import AzooKey.Core.MixedRomajiSplitter

/-!
# The best splits are the best

`Lattice::Best` keeps a few partial paths at each position and forgets the rest.
A segmentation is `Admissible` when its segments follow one another from the first
letter to the last, each is an edge of the lattice, and no two Japanese ones are
adjacent. `Best` finds the cheapest of these: as many as there may be splits, or
all of them.

The proof runs the lattice a second time with the paths written out
(`rememberedUpTo`): a node of the source points at the node it came from, a node
here remembers its segments. `Kept` is what holds of the positions before one:
what is kept at a position are the best of all partial paths that reach it. A
partial path that has been pruned is not missed, because those that were kept
instead of it have the same extensions.

All of this asks that an English edge leads forward. The end of an edge is the sum
of a position and of an option, and where that sum exceeds 64 bits an edge can lead
backward: `Overflows`. Then a path can go back to a position that has been dealt
with, and what is traced is not what was found.
-/

namespace AzooKey.Core.MixedRomajiSplitter

namespace Lattice

variable (l : Lattice)

/-! ## Segmentations -/

/-- A segment is an edge of the lattice. -/
inductive IsSegment : MixedRomajiSegment → Prop
  | japanese {start stop : ℕ} (hlt : start < stop) (hstop : stop ≤ l.size) :
    IsSegment (l.japaneseSegment start stop)
  | english {start : ℕ} {edge : EnglishEdge} (hstart : start < l.size)
    (hedge : edge ∈ l.englishEdges start) : IsSegment (englishSegment start edge.stop edge)

/-- The segments follow one another from one position to another. -/
def Tiles : ℕ → List MixedRomajiSegment → ℕ → Prop
  | p, [], q => p = q
  | p, segment :: segments, q =>
    segment.rawBegin = p ∧ segment.rawBegin < segment.rawEnd ∧ Tiles segment.rawEnd segments q

/-- No two Japanese segments are adjacent. -/
def Apart (segments : List MixedRomajiSegment) : Prop :=
  segments.IsChain (fun a b => a.kind = .english ∨ b.kind = .english)

/-- **An admissible segmentation.** -/
structure Admissible (segments : List MixedRomajiSegment) : Prop where
  tiles : Tiles 0 segments l.size
  apart : Apart segments
  edges : ∀ segment ∈ segments, l.IsSegment segment

/-- The cost of a segment: the one of its edge, and for a Japanese one the one of its
boundary. -/
def segmentCost (segment : MixedRomajiSegment) : ℚ :=
  match segment.kind with
  | .english =>
    ((l.englishEdges segment.rawBegin).find? (fun edge => edge.stop = segment.rawEnd)).elim 0
      EnglishEdge.cost
  | .japanese =>
    (if 0 < segment.rawBegin then boundaryCost l.lower segment.rawBegin else 0)
      + japaneseEdgeCost l.raw l.lower segment.rawBegin segment.rawEnd

/-- **The cost of a segmentation.** -/
def pathCost (segments : List MixedRomajiSegment) : ℚ := (segments.map l.segmentCost).sum

/-- **`Best` is exact**: its traces end, what they give are segmentations with their
costs, these are the best of the admissible ones, and their costs are the smallest
of all. -/
def Exact : Prop :=
  ∃ splits : List MixedRomajiSplit, (∀ rounds, l.size ≤ rounds → l.best rounds = some splits)
    ∧ KBest.IsKBest l.pathCost l.options.maxSplits {segments | l.Admissible segments}
      (splits.map MixedRomajiSplit.segments)
    ∧ (∀ split ∈ splits, split.cost = l.pathCost split.segments)
    ∧ ∀ all : List (List MixedRomajiSegment), all.Nodup →
      (∀ segments, segments ∈ all ↔ l.Admissible segments) →
      splits.map MixedRomajiSplit.cost
        = ((all.map l.pathCost).insertionSort (fun a b => a ≤ b)).take l.options.maxSplits

/-- **The English edges lead forward**, one to each position at most. -/
structure Forward : Prop where
  lt : ∀ start, start < l.size → ∀ edge ∈ l.englishEdges start, start < edge.stop
  le : ∀ start, start < l.size → ∀ edge ∈ l.englishEdges start, edge.stop ≤ l.size
  distinct : ∀ start, (l.englishEdges start).Pairwise (fun a b => a.stop < b.stop)

/-! ## Partial paths, the last segment first -/

/-- **A partial path** to a position, by the kind of its last segment. -/
inductive Reaches : ℕ → State → List MixedRomajiSegment → Prop
  | nil : Reaches 0 .afterEnglish []
  | english {p : ℕ} {s : State} {path : List MixedRomajiSegment} {edge : EnglishEdge}
    (hpath : Reaches p s path) (hp : p < l.size) (hedge : edge ∈ l.englishEdges p) :
    Reaches edge.stop .afterEnglish (englishSegment p edge.stop edge :: path)
  | japanese {p stop : ℕ} {path : List MixedRomajiSegment}
    (hpath : Reaches p .afterEnglish path) (hp : p < stop) (hstop : stop ≤ l.size) :
    Reaches stop .afterJapanese (l.japaneseSegment p stop :: path)

variable {l}

/-- A partial path knows where it ends. -/
theorem Reaches.end_eq {p : ℕ} {s : State} {path : List MixedRomajiSegment}
    (h : l.Reaches p s path) : p = (path.head?.map MixedRomajiSegment.rawEnd).getD 0 := by
  cases h <;> rfl

/-- A partial path knows the kind of its last segment. -/
theorem Reaches.state_eq {p : ℕ} {s : State} {path : List MixedRomajiSegment}
    (h : l.Reaches p s path) :
    s = if path.head?.map MixedRomajiSegment.kind = some .japanese then .afterJapanese
      else .afterEnglish := by
  cases h <;> rfl

/-- The empty path is the only one that ends where it begins. -/
theorem Reaches.eq_nil (hl : l.Forward) {s : State} {path : List MixedRomajiSegment}
    (h : l.Reaches 0 s path) : path = [] := by
  generalize hp : (0 : ℕ) = p at h
  cases h with
  | nil => rfl
  | english hpath hlt hedge =>
    have := hl.lt _ hlt _ hedge
    omega
  | japanese hpath hlt hstop => omega

/-- The last segment of a path begins before the path ends. -/
theorem Reaches.head_lt (hl : l.Forward) {p : ℕ} {s : State} {path : List MixedRomajiSegment}
    (h : l.Reaches p s path) : ∀ segment ∈ path.head?, segment.rawBegin < p := by
  intro segment hsegment
  cases h with
  | nil => cases hsegment
  | english hpath hlt hedge =>
    cases hsegment
    exact hl.lt _ hlt _ hedge
  | japanese hpath hlt hstop =>
    cases hsegment
    exact hlt

/-- Segments that follow one another are not empty. -/
theorem lt_of_tiles {p q : ℕ} {segments : List MixedRomajiSegment} (h : Tiles p segments q) :
    ∀ segment ∈ segments, segment.rawBegin < segment.rawEnd := by
  induction segments generalizing p with
  | nil => exact fun _ hno => absurd hno List.not_mem_nil
  | cons first segments ih =>
    obtain ⟨-, hlt, hrest⟩ := h
    intro segment hsegment
    rcases List.mem_cons.mp hsegment with rfl | hsegment
    · exact hlt
    · exact ih hrest segment hsegment

/-- One more segment at the end. -/
theorem tiles_concat {p q : ℕ} {segments : List MixedRomajiSegment} {segment : MixedRomajiSegment} :
    Tiles p (segments ++ [segment]) q
      ↔ Tiles p segments segment.rawBegin ∧ segment.rawBegin < segment.rawEnd
        ∧ segment.rawEnd = q := by
  induction segments generalizing p with
  | nil =>
    show (_ ∧ _ ∧ _) ↔ (_ ∧ _ ∧ _)
    rw [eq_comm]
    rfl
  | cons first segments ih =>
    show (_ ∧ _ ∧ Tiles _ (segments ++ [segment]) q) ↔ (_ ∧ _ ∧ Tiles _ segments _) ∧ _ ∧ _
    rw [ih, and_assoc, and_assoc]

/-- One more segment at the end is apart from the one before it. -/
theorem apart_concat {segments : List MixedRomajiSegment} {segment : MixedRomajiSegment} :
    Apart (segments ++ [segment])
      ↔ Apart segments ∧ ∀ last ∈ segments.getLast?, last.kind = .english ∨ segment.kind = .english := by
  unfold Apart
  rw [List.isChain_append]
  refine ⟨fun h => ⟨h.1, fun last hlast => h.2.2 last hlast segment rfl⟩,
    fun h => ⟨h.1, .singleton _, fun last hlast first hfirst => ?_⟩⟩
  cases hfirst
  exact h.2 last hlast

/-- A partial path is a segmentation up to its end. -/
theorem Reaches.admissible (hl : l.Forward) {p : ℕ} {s : State} {path : List MixedRomajiSegment}
    (h : l.Reaches p s path) :
    Tiles 0 path.reverse p ∧ Apart path.reverse ∧ ∀ segment ∈ path.reverse, l.IsSegment segment := by
  induction h with
  | nil => exact ⟨rfl, .nil, fun _ hno => absurd hno List.not_mem_nil⟩
  | english hpath hp hedge ih =>
    obtain ⟨htiles, hapart, hedges⟩ := ih
    rw [List.reverse_cons, tiles_concat, apart_concat]
    refine ⟨⟨htiles, hl.lt _ hp _ hedge, rfl⟩, ⟨hapart, fun _ _ => Or.inr rfl⟩, fun segment hmem => ?_⟩
    rcases List.mem_append.mp hmem with hmem | hmem
    · exact hedges segment hmem
    · rw [List.mem_singleton.mp hmem]
      exact .english hp hedge
  | @japanese p stop path hpath hp hstop ih =>
    obtain ⟨htiles, hapart, hedges⟩ := ih
    rw [List.reverse_cons, tiles_concat, apart_concat]
    refine ⟨⟨htiles, hp, rfl⟩, ⟨hapart, fun last hlast => Or.inl ?_⟩, fun segment hmem => ?_⟩
    · -- the path before ends after an English segment
      have hstate := hpath.state_eq
      rw [List.getLast?_reverse] at hlast
      rw [Option.mem_def.mp hlast] at hstate
      cases hkind : last.kind with
      | english => rfl
      | japanese =>
        rw [Option.map_some, hkind, if_pos rfl] at hstate
        cases hstate
    · rcases List.mem_append.mp hmem with hmem | hmem
      · exact hedges segment hmem
      · rw [List.mem_singleton.mp hmem]
        exact .japanese hp hstop

/-- A segmentation up to a position is a partial path. -/
theorem exists_reaches {p : ℕ} {segments : List MixedRomajiSegment} (htiles : Tiles 0 segments p)
    (hapart : Apart segments) (hedges : ∀ segment ∈ segments, l.IsSegment segment) :
    ∃ s, l.Reaches p s segments.reverse := by
  induction segments using List.reverseRecOn generalizing p with
  | nil =>
    obtain rfl : 0 = p := htiles
    exact ⟨_, .nil⟩
  | append_singleton segments segment ih =>
    obtain ⟨hbefore, -, rfl⟩ := tiles_concat.mp htiles
    obtain ⟨hapart, hlast⟩ := apart_concat.mp hapart
    obtain ⟨s, hpath⟩ := ih hbefore hapart (fun seg hseg => hedges seg (List.mem_append_left _ hseg))
    have hsegment := hedges segment (List.mem_append_right _ (List.mem_singleton.mpr rfl))
    rw [List.reverse_append, List.reverse_singleton, List.singleton_append]
    cases hsegment with
    | english hstart hedge => exact ⟨_, .english hpath hstart hedge⟩
    | japanese hstart hstop =>
      have hstate := hpath.state_eq
      rw [List.head?_reverse, if_neg] at hstate
      · subst hstate
        exact ⟨_, .japanese hpath hstart hstop⟩
      · intro hjapanese
        obtain ⟨last, hmem, hkind⟩ := Option.map_eq_some_iff.mp hjapanese
        obtain heng | heng := hlast last hmem
        · rw [hkind] at heng
          cases heng
        · cases heng

/-- **The segmentations are the paths to the end.** -/
theorem admissible_iff (hl : l.Forward) {segments : List MixedRomajiSegment} :
    l.Admissible segments ↔ ∃ s, l.Reaches l.size s segments.reverse := by
  refine ⟨fun h => exists_reaches h.tiles h.apart h.edges, fun ⟨s, h⟩ => ?_⟩
  obtain ⟨htiles, hapart, hedges⟩ := h.admissible hl
  rw [List.reverse_reverse] at htiles hapart hedges
  exact ⟨htiles, hapart, hedges⟩

/-- The cost of a path with one more segment. -/
theorem pathCost_cons (segment : MixedRomajiSegment) (path : List MixedRomajiSegment) :
    l.pathCost (segment :: path) = l.segmentCost segment + l.pathCost path := rfl

/-- The order of the segments does not matter for the cost. -/
theorem pathCost_reverse (path : List MixedRomajiSegment) :
    l.pathCost path.reverse = l.pathCost path := by
  unfold pathCost
  rw [List.map_reverse, List.sum_reverse]

/-- The cost of an English segment is the one of its edge. -/
theorem segmentCost_english (hl : l.Forward) {start : ℕ} {edge : EnglishEdge}
    (hedge : edge ∈ l.englishEdges start) :
    l.segmentCost (englishSegment start edge.stop edge) = edge.cost := by
  show ((l.englishEdges start).find? (fun other => decide (other.stop = edge.stop))).elim 0 _ = _
  have hfind : (l.englishEdges start).find? (fun other => decide (other.stop = edge.stop))
      = some edge := by
    have hdistinct := hl.distinct start
    revert hedge hdistinct
    induction l.englishEdges start with
    | nil => exact fun hedge => absurd hedge List.not_mem_nil
    | cons first edges ih =>
      intro hedge hdistinct
      obtain ⟨hfirst, hedges⟩ := List.pairwise_cons.mp hdistinct
      rcases List.mem_cons.mp hedge with rfl | hedge
      · exact List.find?_cons_of_pos (decide_eq_true rfl)
      · rw [List.find?_cons_of_neg (by simpa using (hfirst edge hedge).ne)]
        exact ih hedge hedges
  rw [hfind]
  rfl

/-! ## The run that remembers its paths -/

/-- A node with its path. -/
abbrev Remembered := Node × List MixedRomajiSegment

variable (l)

/-- What `Best` offers for one node, with the paths. -/
def pathOffersOf (start : ℕ) (state : State) (here : Remembered) (rank : ℕ) :
    List (ℕ × State × Remembered) :=
  let boundary := if 0 < start then boundaryCost l.lower start else 0
  (l.englishEdges start).zipIdx.map (fun e =>
      (e.1.stop, .afterEnglish, ⟨here.1.cost + e.1.cost, start, state, rank, true, e.2⟩,
        englishSegment start e.1.stop e.1 :: here.2))
    ++ match state with
      | .afterJapanese => []
      | .afterEnglish =>
        (List.range' (start + 1) (l.size - start)).map (fun stop =>
          (stop, .afterJapanese,
            ⟨here.1.cost + boundary + japaneseEdgeCost l.raw l.lower start stop, start, state, rank,
              false, 0⟩,
            l.japaneseSegment start stop :: here.2))

/-- What `Best` offers at a position, with the paths. -/
def pathOffersAt (remembered : ℕ → State → List Remembered) (start : ℕ) :
    List (ℕ × State × Remembered) :=
  [State.afterEnglish, State.afterJapanese].flatMap (fun state =>
    (remembered start state).zipIdx.flatMap (fun here => l.pathOffersOf start state here.1 here.2))

/-- The offers that go to one position and state. -/
def offeredTo {α : Type} (offers : List (ℕ × State × α)) (p : ℕ) (s : State) : List α :=
  (offers.filter (fun o => decide (o.1 = p ∧ o.2.1 = s))).map (fun o => o.2.2)

/-- **The nodes with their paths** after the positions before one. -/
def rememberedUpTo : ℕ → ℕ → State → List Remembered
  | 0, p, s => (firstNodes p s).map (fun node => (node, []))
  | start + 1, p, s =>
    (offeredTo (l.pathOffersAt (rememberedUpTo start) start) p s).foldl
      (fun best x => KBest.offer (fun x : Remembered => x.1.cost) l.options.maxSplits x best)
      (rememberedUpTo start p s)

variable {l}

/-- The offers without the paths. -/
theorem offersOf_eq (start : ℕ) (state : State) (here : Remembered) (rank : ℕ) :
    l.offersOf start state here.1 rank
      = (l.pathOffersOf start state here rank).map (fun o => (o.1, o.2.1, o.2.2.1)) := by
  unfold offersOf pathOffersOf
  dsimp only
  rw [List.map_append, List.map_map]
  congr 1
  cases state with
  | afterEnglish =>
    show _ = List.map _ (List.map _ _)
    rw [List.map_map]
    rfl
  | afterJapanese => rfl

/-- The offers at a position without the paths. -/
theorem offersAt_eq {nodes : Nodes} {remembered : ℕ → State → List Remembered} {start : ℕ}
    (h : ∀ s, nodes start s = (remembered start s).map Prod.fst) :
    l.offersAt nodes start
      = (l.pathOffersAt remembered start).map (fun o => (o.1, o.2.1, o.2.2.1)) := by
  unfold offersAt pathOffersAt
  rw [List.map_flatMap]
  refine List.flatMap_congr (fun state _ => ?_)
  rw [h, List.map_flatMap, List.zipIdx_map, List.flatMap_map]
  exact List.flatMap_congr (fun here _ => offersOf_eq start state here.1 here.2)

/-- Offers to other places do not matter for a place. -/
theorem foldl_offer_apply (offers : List (ℕ × State × Node)) (nodes : Nodes) (p : ℕ) (s : State) :
    offers.foldl (fun nodes o => l.offer nodes o.1 o.2.1 o.2.2) nodes p s
      = (offeredTo offers p s).foldl
        (fun best x => KBest.offer Node.cost l.options.maxSplits x best) (nodes p s) := by
  induction offers generalizing nodes with
  | nil => rfl
  | cons o offers ih =>
    rw [List.foldl_cons, ih]
    unfold offeredTo
    by_cases hto : o.1 = p ∧ o.2.1 = s
    · obtain ⟨rfl, rfl⟩ := hto
      rw [List.filter_cons_of_pos (by simp), List.map_cons, List.foldl_cons]
      unfold offer
      rw [if_pos ⟨rfl, rfl⟩]
    · rw [List.filter_cons_of_neg (by simpa using hto)]
      unfold offer
      rw [if_neg (fun h => hto ⟨h.1.symm, h.2.symm⟩)]

/-- Offers to a place, under a map of what is offered. -/
theorem offeredTo_map {α β : Type} (f : α → β) (offers : List (ℕ × State × α)) (p : ℕ) (s : State) :
    offeredTo (offers.map (fun o => (o.1, o.2.1, f o.2.2))) p s = (offeredTo offers p s).map f := by
  unfold offeredTo
  rw [List.filter_map, List.map_map, List.map_map]
  rfl

/-- **The nodes are those of the run that remembers.** -/
theorem nodesUpTo_eq (start p : ℕ) (s : State) :
    l.nodesUpTo start p s = (l.rememberedUpTo start p s).map Prod.fst := by
  induction start generalizing p s with
  | zero =>
    show firstNodes p s = ((firstNodes p s).map _).map _
    rw [List.map_map, List.map_congr_left (fun node _ => show (Prod.fst ∘ _) node = id node from rfl),
      List.map_id]
  | succ start ih =>
    have hadvance : l.nodesUpTo (start + 1) = l.advance (l.nodesUpTo start) start := by
      unfold nodesUpTo
      rw [List.range_succ, List.foldl_append]
      rfl
    rw [hadvance, rememberedUpTo, advance, foldl_offer_apply, offersAt_eq (fun s => ih start s),
      offeredTo_map, ih p s]
    exact (KBest.map_foldl_offer Prod.fst (fun _ _ => rfl) (fun _ _ => rfl)).symm

/-! ## What is kept -/

/-- The partial paths whose last segment begins before a position. -/
def Arrivals (l : Lattice) (start p : ℕ) (s : State) : Set (List MixedRomajiSegment) :=
  {path | l.Reaches p s path ∧ ∀ segment ∈ path.head?, segment.rawBegin < start}

/-- The last segment of a path from a position to another one. -/
inductive Arc (l : Lattice) (start : ℕ) : ℕ → State → State → MixedRomajiSegment → Prop
  | english {s : State} {edge : EnglishEdge} (hedge : edge ∈ l.englishEdges start) :
    Arc l start edge.stop .afterEnglish s (englishSegment start edge.stop edge)
  | japanese {stop : ℕ} (hlt : start < stop) (hstop : stop ≤ l.size) :
    Arc l start stop .afterJapanese .afterEnglish (l.japaneseSegment start stop)

/-- **What holds of the nodes** after the positions before one: what is kept at a place
are the best of the paths that arrive there, with their costs, and each node points
at the one that its path goes on with. -/
structure Kept (l : Lattice) (start : ℕ) : Prop where
  cost_eq : ∀ p s, ∀ x ∈ l.rememberedUpTo start p s, x.1.cost = l.pathCost x.2
  best : ∀ p s, KBest.IsKBest l.pathCost l.options.maxSplits (l.Arrivals start p s)
    ((l.rememberedUpTo start p s).map Prod.snd)
  back : ∀ p s, ∀ x ∈ l.rememberedUpTo start p s, x.2 = [] ∨ ∃ segment y,
    x.2 = segment :: y.2 ∧ l.segmentOf p x.1 = some segment ∧ x.1.start < start
      ∧ (l.rememberedUpTo start x.1.start x.1.fromState)[x.1.fromRank]? = some y

section Offered

variable (hl : l.Forward) {start : ℕ}

/-- The segments that an offer can end with. -/
def arcsFrom (l : Lattice) (start : ℕ) (state : State) : List MixedRomajiSegment :=
  (l.englishEdges start).map (fun edge => englishSegment start edge.stop edge)
    ++ match state with
      | .afterJapanese => []
      | .afterEnglish => (List.range' (start + 1) (l.size - start)).map (l.japaneseSegment start)

include hl in
/-- **What an offer is**: an edge from the position, behind a path that is kept there. -/
theorem mem_pathOffersOf (hstart : start < l.size) {state : State} {here : Remembered} {rank : ℕ}
    (hcost : here.1.cost = l.pathCost here.2) {o : ℕ × State × Remembered}
    (h : o ∈ l.pathOffersOf start state here rank) :
    ∃ segment, l.Arc start o.1 o.2.1 state segment ∧ o.2.2.2 = segment :: here.2
      ∧ l.segmentOf o.1 o.2.2.1 = some segment ∧ o.2.2.1.start = start
      ∧ o.2.2.1.fromState = state ∧ o.2.2.1.fromRank = rank
      ∧ o.2.2.1.cost = l.pathCost o.2.2.2 := by
  rcases List.mem_append.mp h with h | h
  · obtain ⟨⟨edge, index⟩, hedge, rfl⟩ := List.mem_map.mp h
    have hget := List.mem_zipIdx_iff_getElem?.mp hedge
    have hmem := List.mem_of_getElem? hget
    refine ⟨_, .english hmem, rfl, ?_, rfl, rfl, rfl, ?_⟩
    · show (if true = true then _ else _) = _
      rw [if_pos rfl, hget]
      rfl
    · rw [pathCost_cons, segmentCost_english hl hmem, ← hcost, add_comm]
  · cases state with
    | afterJapanese => exact absurd h List.not_mem_nil
    | afterEnglish =>
      obtain ⟨stop, hstop, rfl⟩ := List.mem_map.mp h
      have hrange := List.mem_range'_1.mp hstop
      refine ⟨_, .japanese (by omega) (by omega), rfl, rfl, rfl, rfl, rfl, ?_⟩
      rw [pathCost_cons, ← hcost, add_comm (l.segmentCost _)]
      exact add_assoc _ _ _

/-- The paths of the offers for one node. -/
theorem map_path_pathOffersOf (state : State) (here : Remembered) (rank : ℕ) :
    (l.pathOffersOf start state here rank).map (fun o => o.2.2.2)
      = (l.arcsFrom start state).map (fun segment => segment :: here.2) := by
  unfold pathOffersOf arcsFrom
  dsimp only
  rw [List.map_append, List.map_append, List.map_map, List.map_map]
  congr 1
  · rw [← List.zipIdx_map_fst 0 (l.englishEdges start), List.map_map]
    simp only [List.zipIdx_map_fst]
    rfl
  · cases state with
    | afterJapanese => rfl
    | afterEnglish =>
      show List.map _ (List.map _ _) = List.map _ (List.map _ _)
      rw [List.map_map, List.map_map]
      rfl

/-- The paths of the offers at a position. -/
theorem map_path_pathOffersAt (remembered : ℕ → State → List Remembered) :
    (l.pathOffersAt remembered start).map (fun o => o.2.2.2)
      = [State.afterEnglish, State.afterJapanese].flatMap (fun state =>
        ((remembered start state).map Prod.snd).flatMap (fun rest =>
          (l.arcsFrom start state).map (fun segment => segment :: rest))) := by
  unfold pathOffersAt
  rw [List.map_flatMap]
  refine List.flatMap_congr (fun state _ => ?_)
  rw [List.map_flatMap, List.flatMap_map]
  simp only [map_path_pathOffersOf]
  conv_rhs => rw [← List.zipIdx_map_fst 0 (remembered start state), List.flatMap_map]

include hl in
/-- The segments that offers can end with differ. -/
theorem nodup_arcsFrom (state : State) : (l.arcsFrom start state).Nodup := by
  have hends : ∀ {a b : MixedRomajiSegment}, a.rawEnd < b.rawEnd → a ≠ b := by
    rintro a b hlt rfl
    exact lt_irrefl _ hlt
  have henglish : ((l.englishEdges start).map
      (fun edge => englishSegment start edge.stop edge)).Nodup := by
    refine List.pairwise_map.mpr ((hl.distinct start).imp (fun {a b} hab => ?_))
    exact hends hab
  unfold arcsFrom
  cases state with
  | afterJapanese => simpa using henglish
  | afterEnglish =>
    refine List.nodup_append.mpr ⟨henglish, ?_, fun a ha b hb heq => ?_⟩
    · exact (List.nodup_range' 1).map
        (fun a b hab => congrArg MixedRomajiSegment.rawEnd hab)
    · obtain ⟨edge, -, rfl⟩ := List.mem_map.mp ha
      obtain ⟨stop, -, rfl⟩ := List.mem_map.mp hb
      cases congrArg MixedRomajiSegment.kind heq

/-- What is offered to a place is an offer. -/
theorem mem_offeredTo {α : Type} {offers : List (ℕ × State × α)} {p : ℕ} {s : State} {x : α} :
    x ∈ offeredTo offers p s ↔ (p, s, x) ∈ offers := by
  unfold offeredTo
  rw [List.mem_map]
  refine ⟨?_, fun h => ⟨(p, s, x), List.mem_filter.mpr ⟨h, by simp⟩, rfl⟩⟩
  rintro ⟨o, hmem, rfl⟩
  obtain ⟨hmem, hto⟩ := List.mem_filter.mp hmem
  obtain ⟨hp, hs⟩ := of_decide_eq_true hto
  rw [← hp, ← hs]
  exact hmem

/-- An offer is one for a node that is kept at the position. -/
theorem mem_pathOffersAt {remembered : ℕ → State → List Remembered} {o : ℕ × State × Remembered}
    (h : o ∈ l.pathOffersAt remembered start) :
    ∃ state rank here, (remembered start state)[rank]? = some here
      ∧ o ∈ l.pathOffersOf start state here rank := by
  obtain ⟨state, -, h⟩ := List.mem_flatMap.mp h
  obtain ⟨⟨here, rank⟩, hhere, h⟩ := List.mem_flatMap.mp h
  exact ⟨state, rank, here, List.mem_zipIdx_iff_getElem?.mp hhere, h⟩

/-- **Every edge behind every path that is kept is offered.** -/
theorem exists_offered {remembered : ℕ → State → List Remembered} {p : ℕ} {s state : State}
    {segment : MixedRomajiSegment} (harc : l.Arc start p s state segment) {here : Remembered}
    (hhere : here ∈ remembered start state) :
    ∃ x ∈ offeredTo (l.pathOffersAt remembered start) p s, x.2 = segment :: here.2 := by
  obtain ⟨rank, hrank⟩ := List.getElem?_of_mem hhere
  have hindex : (here, rank) ∈ (remembered start state).zipIdx :=
    List.mem_zipIdx_iff_getElem?.mpr hrank
  have hat : ∀ {o}, o ∈ l.pathOffersOf start state here rank →
      o ∈ l.pathOffersAt remembered start := by
    intro o ho
    refine List.mem_flatMap.mpr ⟨state, ?_, List.mem_flatMap.mpr ⟨_, hindex, ho⟩⟩
    cases state with
    | afterEnglish => exact List.mem_cons_self
    | afterJapanese => exact List.mem_cons_of_mem _ List.mem_cons_self
  cases harc with
  | @english _ edge hedge =>
    obtain ⟨index, hget⟩ := List.getElem?_of_mem hedge
    have hzip : (edge, index) ∈ (l.englishEdges start).zipIdx := List.mem_zipIdx_iff_getElem?.mpr hget
    have hoffer := List.mem_map_of_mem (f := fun e : EnglishEdge × ℕ => (e.1.stop,
      State.afterEnglish, (⟨here.1.cost + e.1.cost, start, state, rank, true, e.2⟩ : Node),
        englishSegment start e.1.stop e.1 :: here.2)) hzip
    exact ⟨_, mem_offeredTo.mpr (hat (List.mem_append_left _ hoffer)), rfl⟩
  | japanese hlt hstop =>
    have hrange : p ∈ List.range' (start + 1) (l.size - start) :=
      List.mem_range'_1.mpr ⟨hlt, by omega⟩
    have hoffer := List.mem_map_of_mem (f := fun stop => (stop, State.afterJapanese,
      (⟨here.1.cost + (if 0 < start then boundaryCost l.lower start else 0)
        + japaneseEdgeCost l.raw l.lower start stop, start, State.afterEnglish, rank, false, 0⟩
          : Node), l.japaneseSegment start stop :: here.2)) hrange
    exact ⟨_, mem_offeredTo.mpr (hat (List.mem_append_right _ hoffer)), rfl⟩

include hl in
/-- **No path is offered twice.** -/
theorem nodup_offered {remembered : ℕ → State → List Remembered}
    (hnodup : ∀ s, ((remembered start s).map Prod.snd).Nodup)
    (hapart : ∀ path ∈ (remembered start .afterEnglish).map Prod.snd,
      path ∉ (remembered start .afterJapanese).map Prod.snd) (p : ℕ) (s : State) :
    ((offeredTo (l.pathOffersAt remembered start) p s).map Prod.snd).Nodup := by
  have htail : ∀ {state : State} {rests : List (List MixedRomajiSegment)} {path},
      path ∈ rests.flatMap (fun rest => (l.arcsFrom start state).map (fun segment => segment :: rest)) →
      path.tail ∈ rests := by
    intro state rests path hpath
    obtain ⟨rest, hrest, hpath⟩ := List.mem_flatMap.mp hpath
    obtain ⟨segment, -, rfl⟩ := List.mem_map.mp hpath
    exact hrest
  have hall : ((l.pathOffersAt remembered start).map (fun o => o.2.2.2)).Nodup := by
    rw [map_path_pathOffersAt]
    refine List.nodup_flatMap.mpr ⟨fun state _ => List.nodup_flatMap.mpr ⟨fun rest _ => ?_, ?_⟩, ?_⟩
    · exact (nodup_arcsFrom hl state).map (fun a b hab => (List.cons.inj hab).1)
    · refine (hnodup state).imp (fun {rest rest'} hne path hpath hpath' => hne ?_)
      obtain ⟨segment, -, rfl⟩ := List.mem_map.mp hpath
      obtain ⟨segment', -, heq⟩ := List.mem_map.mp hpath'
      exact (List.cons.inj heq).2.symm
    · refine List.pairwise_cons.mpr ⟨fun state hstate path hpath hpath' => ?_,
        List.pairwise_singleton _ _⟩
      rw [List.mem_singleton.mp hstate] at hpath'
      exact hapart _ (htail hpath) (htail hpath')
  unfold offeredTo
  rw [List.map_map]
  exact hall.sublist (List.filter_sublist.map _)

end Offered

/-- The places before a position have been dealt with. -/
theorem rememberedUpTo_of_le (hl : l.Forward) {start p : ℕ} (hstart : start < l.size)
    (hp : p ≤ start) (hcost : ∀ p s, ∀ x ∈ l.rememberedUpTo start p s, x.1.cost = l.pathCost x.2)
    (s : State) : l.rememberedUpTo (start + 1) p s = l.rememberedUpTo start p s := by
  have hnone : offeredTo (l.pathOffersAt (l.rememberedUpTo start) start) p s = [] := by
    refine List.eq_nil_iff_forall_not_mem.mpr (fun x hx => ?_)
    obtain ⟨state, rank, here, hhere, hoffer⟩ := mem_pathOffersAt (mem_offeredTo.mp hx)
    obtain ⟨segment, harc, -⟩ :=
      mem_pathOffersOf hl hstart (hcost _ _ _ (List.mem_of_getElem? hhere)) hoffer
    generalize hto : (p, s, x).1 = q at harc
    obtain rfl : p = q := hto
    cases harc with
    | english hedge => exact absurd (hl.lt _ hstart _ hedge) (not_lt.mpr hp)
    | japanese hlt hstop => omega
  rw [rememberedUpTo, hnone]
  rfl

/-- Before the loop there is the empty path. -/
theorem kept_zero (hk : 1 ≤ l.options.maxSplits) : l.Kept 0 := by
  have hfirst : ∀ p s, ∀ x ∈ l.rememberedUpTo 0 p s, p = 0 ∧ s = .afterEnglish
      ∧ x = (⟨0, 0, .afterEnglish, 0, false, 0⟩, []) := by
    intro p s x hx
    obtain ⟨node, hnode, rfl⟩ := List.mem_map.mp hx
    cases p with
    | succ p => cases hnode
    | zero =>
      cases s with
      | afterJapanese => cases hnode
      | afterEnglish =>
        rw [List.mem_singleton.mp hnode]
        exact ⟨rfl, rfl, rfl⟩
  have hempty : ∀ p s, ∀ path ∈ l.Arrivals 0 p s, p = 0 ∧ s = .afterEnglish ∧ path = [] := by
    rintro p s path ⟨hpath, hbegin⟩
    cases hpath with
    | nil => exact ⟨rfl, rfl, rfl⟩
    | english hpath hp hedge => exact absurd (hbegin _ rfl) (Nat.not_lt_zero _)
    | japanese hpath hp hstop => exact absurd (hbegin _ rfl) (Nat.not_lt_zero _)
  refine ⟨fun p s x hx => ?_, fun p s => ?_, fun p s x hx => Or.inl ?_⟩
  · obtain ⟨-, -, rfl⟩ := hfirst p s x hx
    rfl
  · by_cases hplace : p = 0 ∧ s = .afterEnglish
    · obtain ⟨rfl, rfl⟩ := hplace
      refine ⟨List.nodup_singleton _, fun path hpath => ?_, List.pairwise_singleton _ _, hk,
        fun path hpath hnot => ?_⟩
      · rw [List.mem_singleton.mp hpath]
        exact ⟨.nil, fun _ hno => by cases hno⟩
      · obtain ⟨-, -, rfl⟩ := hempty _ _ _ hpath
        exact absurd (List.mem_singleton.mpr rfl) hnot
    · have hnil : l.rememberedUpTo 0 p s = [] :=
        List.eq_nil_iff_forall_not_mem.mpr (fun x hx =>
          hplace ⟨(hfirst p s x hx).1, (hfirst p s x hx).2.1⟩)
      rw [hnil]
      refine ⟨List.nodup_nil, fun path hpath => absurd hpath List.not_mem_nil, List.Pairwise.nil,
        Nat.zero_le _, fun path hpath => ?_⟩
      exact absurd ⟨(hempty _ _ _ hpath).1, (hempty _ _ _ hpath).2.1⟩ hplace
  · obtain ⟨-, -, rfl⟩ := hfirst p s x hx
    rfl

/-- The paths that arrive at a place: those that did before, and those whose last
segment begins at the position. -/
theorem arrivals_succ (hl : l.Forward) {start : ℕ} (hstart : start < l.size) (p : ℕ) (s : State) :
    l.Arrivals (start + 1) p s = l.Arrivals start p s
      ∪ {path | ∃ i : {i : State × MixedRomajiSegment // l.Arc start p s i.1 i.2},
        ∃ rest ∈ l.Arrivals start start i.1.1, i.1.2 :: rest = path} := by
  ext path
  constructor
  · rintro ⟨hpath, hbegin⟩
    by_cases hnew : ∀ segment ∈ path.head?, segment.rawBegin < start
    · exact Or.inl ⟨hpath, hnew⟩
    · cases hpath with
      | nil => exact absurd (fun _ hno => by cases hno) hnew
      | @english q state rest edge hrest hp hedge =>
        have hq : q = start := by
          have := hbegin _ rfl
          have hnot : ¬ q < start := fun hlt => hnew (fun _ hsegment => by cases hsegment; exact hlt)
          change q < start + 1 at this
          omega
        subst hq
        exact Or.inr ⟨⟨(state, _), .english hedge⟩, rest, ⟨hrest, hrest.head_lt hl⟩, rfl⟩
      | @japanese q stop rest hrest hp hstop =>
        have hq : q = start := by
          have := hbegin _ rfl
          have hnot : ¬ q < start := fun hlt => hnew (fun _ hsegment => by cases hsegment; exact hlt)
          change q < start + 1 at this
          omega
        subst hq
        exact Or.inr ⟨⟨(.afterEnglish, _), .japanese hp hstop⟩, rest, ⟨hrest, hrest.head_lt hl⟩, rfl⟩
  · rintro (⟨hpath, hbegin⟩ | ⟨⟨⟨state, segment⟩, harc⟩, rest, ⟨hrest, -⟩, rfl⟩)
    · exact ⟨hpath, fun segment hsegment => Nat.lt_succ_of_lt (hbegin segment hsegment)⟩
    · cases harc with
      | english hedge =>
        exact ⟨.english hrest hstart hedge, fun _ hsegment => by
          cases hsegment
          exact Nat.lt_succ_self _⟩
      | japanese hlt hstop =>
        exact ⟨.japanese hrest hlt hstop, fun _ hsegment => by
          cases hsegment
          exact Nat.lt_succ_self _⟩

/-- **One position of the loop.** -/
theorem Kept.step (hl : l.Forward) {start : ℕ} (hstart : start < l.size) (h : l.Kept start) :
    l.Kept (start + 1) := by
  have hsame : ∀ {p : ℕ}, p ≤ start → ∀ s,
      l.rememberedUpTo (start + 1) p s = l.rememberedUpTo start p s :=
    fun hp s => rememberedUpTo_of_le hl hstart hp h.cost_eq s
  have hoffered : ∀ p s, ∀ x ∈ offeredTo (l.pathOffersAt (l.rememberedUpTo start) start) p s,
      ∃ state rank here segment, (l.rememberedUpTo start start state)[rank]? = some here
        ∧ l.Arc start p s state segment ∧ x.2 = segment :: here.2
        ∧ l.segmentOf p x.1 = some segment ∧ x.1.start = start ∧ x.1.fromState = state
        ∧ x.1.fromRank = rank ∧ x.1.cost = l.pathCost x.2 := by
    intro p s x hx
    obtain ⟨state, rank, here, hhere, hoffer⟩ := mem_pathOffersAt (mem_offeredTo.mp hx)
    obtain ⟨segment, hrest⟩ :=
      mem_pathOffersOf hl hstart (h.cost_eq _ _ _ (List.mem_of_getElem? hhere)) hoffer
    exact ⟨state, rank, here, segment, hhere, hrest⟩
  have hcost : ∀ p s, ∀ x ∈ offeredTo (l.pathOffersAt (l.rememberedUpTo start) start) p s,
      x.1.cost = l.pathCost x.2 := by
    intro p s x hx
    obtain ⟨-, -, -, -, -, -, -, -, -, -, -, hcost⟩ := hoffered p s x hx
    exact hcost
  refine ⟨fun p s x hx => ?_, fun p s => ?_, fun p s x hx => ?_⟩
  · rcases KBest.mem_foldl_offer hx with hx | hx
    · exact hcost p s x hx
    · exact h.cost_eq p s x hx
  · -- the offers are those of the paths that were kept, and nobody misses the others
    have hoffers : {path | path ∈ (offeredTo (l.pathOffersAt (l.rememberedUpTo start) start) p s).map
          Prod.snd}
        = {path | ∃ i : {i : State × MixedRomajiSegment // l.Arc start p s i.1 i.2},
          ∃ rest ∈ {rest | rest ∈ (l.rememberedUpTo start start i.1.1).map Prod.snd},
            i.1.2 :: rest = path} := by
      ext path
      constructor
      · intro hpath
        obtain ⟨x, hx, rfl⟩ := List.mem_map.mp hpath
        obtain ⟨state, rank, here, segment, hhere, harc, hpath, -⟩ := hoffered p s x hx
        exact ⟨⟨(state, segment), harc⟩, here.2,
          List.mem_map_of_mem (List.mem_of_getElem? hhere), hpath.symm⟩
      · rintro ⟨⟨⟨state, segment⟩, harc⟩, rest, hrest, rfl⟩
        obtain ⟨here, hhere, rfl⟩ := List.mem_map.mp hrest
        obtain ⟨x, hx, hpath⟩ := exists_offered harc hhere
        exact List.mem_map.mpr ⟨x, hx, hpath⟩
    have hcovers : KBest.Covers l.pathCost l.options.maxSplits
        (l.Arrivals start p s ∪ {path | path ∈ (offeredTo (l.pathOffersAt (l.rememberedUpTo start)
          start) p s).map Prod.snd})
        (l.Arrivals (start + 1) p s) := by
      rw [arrivals_succ hl hstart, hoffers]
      refine (KBest.Covers.refl _ _ _).union ?_
      refine KBest.Covers.extend (fun i a b hab => (List.cons.inj hab).2) (fun i a b hab => ?_)
        (fun i => (h.best start i.1.1).covers)
      rw [pathCost_cons, pathCost_cons]
      exact (add_le_add_iff_left _).mpr hab
    have hnodup := nodup_offered hl (fun s => (h.best start s).nodup) (fun path hpath hpath' => by
      have hstate := ((h.best start _).mem path hpath).1.state_eq
      have hstate' := ((h.best start _).mem path hpath').1.state_eq
      rw [← hstate] at hstate'
      cases hstate') p s
    have hfresh : ∀ path ∈ (offeredTo (l.pathOffersAt (l.rememberedUpTo start) start) p s).map
        Prod.snd, path ∉ l.Arrivals start p s := by
      intro path hpath harrives
      obtain ⟨x, hx, rfl⟩ := List.mem_map.mp hpath
      obtain ⟨state, rank, here, segment, -, harc, hpath, -⟩ := hoffered p s x hx
      rw [hpath] at harrives
      have hbegin := harrives.2 segment rfl
      cases harc with
      | english hedge => exact lt_irrefl _ hbegin
      | japanese hlt hstop => exact lt_irrefl _ hbegin
    have hmap : (l.rememberedUpTo (start + 1) p s).map Prod.snd
        = ((offeredTo (l.pathOffersAt (l.rememberedUpTo start) start) p s).map Prod.snd).foldl
          (fun best x => KBest.offer l.pathCost l.options.maxSplits x best)
          ((l.rememberedUpTo start p s).map Prod.snd) :=
      KBest.map_foldl_offer Prod.snd (hcost p s) (h.cost_eq p s)
    rw [hmap]
    exact ((h.best p s).foldl_offer hnodup hfresh).of_covers hcovers
  · rcases KBest.mem_foldl_offer hx with hx | hx
    · obtain ⟨state, rank, here, segment, hhere, -, hpath, hsegment, hbegin, rfl, rfl, -⟩ :=
        hoffered p s x hx
      refine Or.inr ⟨segment, here, hpath, hsegment, by omega, ?_⟩
      rw [hbegin, hsame le_rfl]
      exact hhere
    · obtain hnil | ⟨segment, y, hpath, hsegment, hbegin, hy⟩ := h.back p s x hx
      · exact Or.inl hnil
      · refine Or.inr ⟨segment, y, hpath, hsegment, by omega, ?_⟩
        rw [hsame hbegin.le]
        exact hy

/-- **The whole loop.** -/
theorem kept_upTo (hl : l.Forward) (hk : 1 ≤ l.options.maxSplits) {start : ℕ}
    (hstart : start ≤ l.size) : l.Kept start := by
  induction start with
  | zero => exact kept_zero hk
  | succ start ih => exact (ih (by omega)).step hl hstart

/-! ## What is traced -/

/-- **A trace gives the path of its node.** -/
theorem Kept.trace_eq (hl : l.Forward) {start : ℕ} (h : l.Kept start) {rounds p : ℕ} {s : State}
    {rank : ℕ} {x : Remembered} (hrounds : p ≤ rounds)
    (hx : (l.rememberedUpTo start p s)[rank]? = some x) (traced : List MixedRomajiSegment) :
    l.trace (l.nodesUpTo start) rounds p s rank traced = some (x.2.reverse ++ traced) := by
  induction rounds generalizing p s rank x traced with
  | zero =>
    obtain rfl : p = 0 := by omega
    have hpath := ((h.best 0 s).mem _ (List.mem_map_of_mem (List.mem_of_getElem? hx))).1.eq_nil hl
    rw [hpath]
    rfl
  | succ rounds ih =>
    have hreaches := (h.best p s).mem _ (List.mem_map_of_mem (List.mem_of_getElem? hx))
    cases p with
    | zero =>
      rw [hreaches.1.eq_nil hl]
      rfl
    | succ p =>
      obtain hnil | ⟨segment, y, hpath, hsegment, -, hy⟩ := h.back _ _ _ (List.mem_of_getElem? hx)
      · have hend := hreaches.1.end_eq
        rw [hnil] at hend
        cases hend
      · have hbegin : x.1.start < p + 1 := by
          have hlt := hreaches.1.head_lt hl segment (by rw [hpath]; rfl)
          have hsame : segment.rawBegin = x.1.start := by
            unfold segmentOf at hsegment
            split_ifs at hsegment
            · obtain ⟨edge, -, rfl⟩ := Option.map_eq_some_iff.mp hsegment
              rfl
            · cases hsegment
              rfl
          rwa [hsame] at hlt
        rw [trace, nodesUpTo_eq, List.getElem?_map, hx, Option.map_some, Option.bind_some, hsegment,
          Option.bind_some, ih (by omega) hy, hpath, List.reverse_cons, List.append_assoc]
        rfl

/-- The ends of the whole paths, with their paths. -/
def pathEnds (l : Lattice) : List ((State × ℕ) × Remembered) :=
  [State.afterEnglish, State.afterJapanese].flatMap (fun state =>
    (l.rememberedUpTo l.size l.size state).zipIdx.map (fun x => ((state, x.2), x.1)))

/-- The ends without the paths. -/
theorem ends_eq (l : Lattice) :
    l.ends (l.nodesUpTo l.size) = l.pathEnds.map (fun e => (e.1, e.2.1.cost)) := by
  unfold ends pathEnds
  rw [List.map_flatMap]
  refine List.flatMap_congr (fun state _ => ?_)
  rw [nodesUpTo_eq, List.zipIdx_map, List.map_map, List.map_map]
  rfl

/-- The paths of the ends. -/
theorem map_path_pathEnds (l : Lattice) :
    l.pathEnds.map (fun e => e.2.2) = (l.rememberedUpTo l.size l.size .afterEnglish).map Prod.snd
      ++ (l.rememberedUpTo l.size l.size .afterJapanese).map Prod.snd := by
  have hstate : ∀ state : State, ((l.rememberedUpTo l.size l.size state).zipIdx.map
      (fun x => ((state, x.2), x.1))).map (fun e => e.2.2)
        = (l.rememberedUpTo l.size l.size state).map Prod.snd := by
    intro state
    conv_rhs => rw [← List.zipIdx_map_fst 0 (l.rememberedUpTo l.size l.size state)]
    rw [List.map_map, List.map_map]
    rfl
  unfold pathEnds
  rw [List.map_flatMap, List.flatMap_cons, List.flatMap_singleton, hstate, hstate]

/-- An end is a node at the last position. -/
theorem mem_pathEnds {e : (State × ℕ) × Remembered} (h : e ∈ l.pathEnds) :
    (l.rememberedUpTo l.size l.size e.1.1)[e.1.2]? = some e.2 := by
  obtain ⟨state, -, h⟩ := List.mem_flatMap.mp h
  obtain ⟨x, hx, rfl⟩ := List.mem_map.mp h
  exact List.mem_zipIdx_iff_getElem?.mp hx

/-- The ends that are traced, in their order. -/
def chosenEnds (l : Lattice) : List ((State × ℕ) × Remembered) :=
  (l.pathEnds.insertionSort (fun a b => a.2.1.cost ≤ b.2.1.cost)).take l.options.maxSplits

/-- The split that the trace of an end gives. -/
def splitOf (e : (State × ℕ) × Remembered) : MixedRomajiSplit := ⟨e.2.2.reverse, e.2.1.cost⟩

/-- The ends that `Best` chooses. -/
theorem chosen_eq (l : Lattice) :
    ((l.ends (l.nodesUpTo l.size)).insertionSort (fun a b => a.2 ≤ b.2)).take l.options.maxSplits
      = l.chosenEnds.map (fun e => (e.1, e.2.1.cost)) := by
  unfold chosenEnds
  rw [ends_eq, List.map_take]
  congr 1
  exact (List.map_insertionSort (fun a b : (State × ℕ) × Remembered => a.2.1.cost ≤ b.2.1.cost)
    (fun a b : (State × ℕ) × ℚ => a.2 ≤ b.2) _ _ (fun a _ b _ => Iff.rfl)).symm

/-- An end that is chosen is an end. -/
theorem mem_chosenEnds {e : (State × ℕ) × Remembered} (h : e ∈ l.chosenEnds) : e ∈ l.pathEnds :=
  (List.perm_insertionSort _ _).mem_iff.mp (List.mem_of_mem_take h)

section Whole

variable (hl : l.Forward) (hkept : l.Kept l.size)
include hl hkept

omit hl in
/-- The cost of an end is the one of its path. -/
theorem cost_pathEnds {e : (State × ℕ) × Remembered} (h : e ∈ l.pathEnds) :
    e.2.1.cost = l.pathCost e.2.2 :=
  hkept.cost_eq _ _ _ (List.mem_of_getElem? (mem_pathEnds h))

/-- The traces of ends. -/
theorem mapM_trace {rounds : ℕ} (hrounds : l.size ≤ rounds) {chosen : List ((State × ℕ) × Remembered)}
    (hchosen : ∀ e ∈ chosen, e ∈ l.pathEnds) :
    (chosen.map (fun e => (e.1, e.2.1.cost))).mapM (fun e : (State × ℕ) × ℚ =>
      (l.trace (l.nodesUpTo l.size) rounds l.size e.1.1 e.1.2 []).map
        (fun segments => (⟨segments, e.2⟩ : MixedRomajiSplit)))
      = some (chosen.map splitOf) := by
  induction chosen with
  | nil => rfl
  | cons e chosen ih =>
    have htrace := hkept.trace_eq hl hrounds (mem_pathEnds (hchosen e List.mem_cons_self)) []
    rw [List.append_nil] at htrace
    rw [List.map_cons, List.mapM_cons, htrace,
      ih (fun e he => hchosen e (List.mem_cons_of_mem _ he))]
    rfl

omit hkept in
/-- The segmentations are the paths of both kinds to the end, read from the front. -/
theorem setOf_admissible :
    {segments | l.Admissible segments} = List.reverse ''
      (l.Arrivals l.size l.size .afterEnglish ∪ l.Arrivals l.size l.size .afterJapanese) := by
  ext segments
  rw [Set.mem_ofPred_eq, admissible_iff hl]
  constructor
  · rintro ⟨s, hpath⟩
    refine ⟨segments.reverse, ?_, List.reverse_reverse segments⟩
    cases s with
    | afterEnglish => exact Or.inl ⟨hpath, hpath.head_lt hl⟩
    | afterJapanese => exact Or.inr ⟨hpath, hpath.head_lt hl⟩
  · rintro ⟨path, hpath, rfl⟩
    rw [List.reverse_reverse]
    rcases hpath with hpath | hpath
    · exact ⟨_, hpath.1⟩
    · exact ⟨_, hpath.1⟩

omit hl in
/-- No path ends twice. -/
theorem nodup_pathEnds : (l.pathEnds.map (fun e => e.2.2)).Nodup := by
  rw [map_path_pathEnds]
  refine List.nodup_append.mpr ⟨(hkept.best _ _).nodup, (hkept.best _ _).nodup, ?_⟩
  rintro path hpath _ hpath' rfl
  have hstate := ((hkept.best _ _).mem path hpath).1.state_eq
  rw [← ((hkept.best _ _).mem path hpath').1.state_eq] at hstate
  cases hstate

omit hl in
/-- The ends are enough to find the best. -/
theorem covers_pathEnds :
    KBest.Covers l.pathCost l.options.maxSplits {path | path ∈ l.pathEnds.map (fun e => e.2.2)}
      (l.Arrivals l.size l.size .afterEnglish ∪ l.Arrivals l.size l.size .afterJapanese) := by
  have hunion := (hkept.best l.size .afterEnglish).covers.union
    (hkept.best l.size .afterJapanese).covers
  have hends : {path | path ∈ l.pathEnds.map (fun e => e.2.2)}
      = {path | path ∈ (l.rememberedUpTo l.size l.size .afterEnglish).map Prod.snd}
        ∪ {path | path ∈ (l.rememberedUpTo l.size l.size .afterJapanese).map Prod.snd} := by
    ext path
    rw [map_path_pathEnds]
    exact List.mem_append
  rw [hends]
  exact hunion

/-- **The ends that are chosen are the best.** -/
theorem isKBest_chosen :
    KBest.IsKBest l.pathCost l.options.maxSplits {segments | l.Admissible segments}
      ((l.chosenEnds.map splitOf).map MixedRomajiSplit.segments) := by
  have hpaths : l.chosenEnds.map (fun e => e.2.2)
      = ((l.pathEnds.map (fun e => e.2.2)).insertionSort
        (fun a b => l.pathCost a ≤ l.pathCost b)).take l.options.maxSplits := by
    unfold chosenEnds
    rw [List.map_take]
    congr 1
    exact List.map_insertionSort _ _ _ _ (fun a ha b hb => by
      rw [cost_pathEnds hkept ha, cost_pathEnds hkept hb])
  have hsplits : (l.chosenEnds.map splitOf).map MixedRomajiSplit.segments
      = (l.chosenEnds.map (fun e => e.2.2)).map List.reverse := by
    rw [List.map_map, List.map_map]
    rfl
  rw [hsplits, setOf_admissible hl, hpaths]
  exact ((KBest.isKBest_take_insertionSort (nodup_pathEnds hkept)).of_covers
    (covers_pathEnds hkept)).map List.reverse_injective pathCost_reverse

end Whole

/-- **`Best` is exact where the edges lead forward.** -/
theorem exact_of_forward (hl : l.Forward) (hk : 1 ≤ l.options.maxSplits) : l.Exact := by
  have hkept := kept_upTo hl hk (le_refl l.size)
  have hbest := isKBest_chosen hl hkept
  have hcost : ∀ split ∈ l.chosenEnds.map splitOf, split.cost = l.pathCost split.segments := by
    intro split hsplit
    obtain ⟨e, he, rfl⟩ := List.mem_map.mp hsplit
    show e.2.1.cost = l.pathCost e.2.2.reverse
    rw [pathCost_reverse, cost_pathEnds hkept (mem_chosenEnds he)]
  refine ⟨l.chosenEnds.map splitOf, fun rounds hrounds => ?_, hbest, hcost, fun all hnodup hall => ?_⟩
  · unfold best
    dsimp only
    rw [chosen_eq]
    exact mapM_trace hl hkept hrounds (fun e he => mem_chosenEnds he)
  · have hcosts : (l.chosenEnds.map splitOf).map MixedRomajiSplit.cost
        = ((l.chosenEnds.map splitOf).map MixedRomajiSplit.segments).map l.pathCost := by
      rw [List.map_map (l := l.chosenEnds.map splitOf)]
      exact List.map_congr_left hcost
    rw [hcosts]
    exact hbest.map_cost_eq_take hnodup hall

end Lattice

/-! ## Edges that lead backward -/

/-- **The end of an English edge exceeds 64 bits**: it wraps around to a position before
the edge, and the dictionary knows the rest of the letters. -/
def Overflows (raw : Bytes) (lookup : EnglishWordLookup) (options : MixedRomajiSplitOptions) : Prop :=
  ∃ start, start < raw.length ∧ sizeT (start + minLength raw options start) < start
    ∧ sizeT (start + minLength raw options start) ≤ maxEnd raw options start
    ∧ hasAsciiLetter ((lowered raw).drop start) = true ∧ lookup ((lowered raw).drop start) ≠ []

/-- An edge is one of its range. -/
theorem mem_englishEdgesFrom {raw : Bytes} {lookup : EnglishWordLookup}
    {options : MixedRomajiSplitOptions} {start : ℕ} {edge : EnglishEdge}
    (h : edge ∈ englishEdgesFrom raw lookup options start) :
    sizeT (start + minLength raw options start) ≤ edge.stop ∧ edge.stop ≤ maxEnd raw options start
      ∧ hasAsciiLetter (rangeOf (lowered raw) start edge.stop) = true
      ∧ lookup (rangeOf (lowered raw) start edge.stop) ≠ [] := by
  obtain ⟨stop, hstop, hedge⟩ := List.mem_filterMap.mp h
  have hrange := List.mem_range'_1.mp hstop
  unfold englishEdge at hedge
  dsimp only at hedge
  split at hedge
  · cases hedge
  · rename_i hletter
    obtain ⟨front, hfront, rfl⟩ := Option.map_eq_some_iff.mp hedge
    refine ⟨hrange.1, show stop ≤ _ by omega, by simpa using hletter, fun hnil => ?_⟩
    rw [hnil] at hfront
    cases hfront

/-- **The edges lead forward** where no end exceeds 64 bits. -/
theorem forward_of_not_overflows {raw : Bytes} {lookup : EnglishWordLookup}
    {options : MixedRomajiSplitOptions} (hsize : raw.length < 2 ^ 64)
    (hno : ¬ Overflows raw lookup options) : (latticeOf raw lookup options).Forward := by
  have hlength : (latticeOf raw lookup options).size = raw.length := List.length_map _
  refine ⟨fun start hstart edge hedge => ?_, fun start hstart edge hedge => ?_, fun start => ?_⟩
  · rw [hlength] at hstart
    obtain ⟨hfirst, hlast, hletter, hlookup⟩ := mem_englishEdgesFrom hedge
    by_contra hback
    have hdrop : rangeOf (lowered raw) start edge.stop = [] ∨ edge.stop < start
        ∧ rangeOf (lowered raw) start edge.stop = (lowered raw).drop start := by
      unfold rangeOf lengthFrom sizeT
      by_cases hstop : edge.stop = start
      · left
        rw [hstop, if_pos le_rfl, Nat.sub_self, List.take_zero]
      · right
        refine ⟨by omega, ?_⟩
        rw [if_neg (by omega), Nat.mod_eq_of_lt (by omega)]
        refine List.take_of_length_le ?_
        rw [List.length_drop, show (lowered raw).length = raw.length from List.length_map _]
        omega
    obtain hnil | ⟨hlt, hrest⟩ := hdrop
    · rw [hnil] at hletter
      cases hletter
    · rw [hrest] at hletter hlookup
      exact hno ⟨start, hstart, lt_of_le_of_lt hfirst hlt, hfirst.trans hlast, hletter, hlookup⟩
  · rw [hlength]
    exact (mem_englishEdgesFrom hedge).2.1.trans (Nat.min_le_left _ _)
  · have hstop : ∀ {stop : ℕ} {edge : EnglishEdge},
        englishEdge raw lookup options start stop = some edge → edge.stop = stop := by
      intro stop edge hedge
      unfold englishEdge at hedge
      dsimp only at hedge
      split at hedge
      · cases hedge
      · obtain ⟨front, -, rfl⟩ := Option.map_eq_some_iff.mp hedge
        rfl
    refine List.Pairwise.filterMap _ (fun a b hab a' ha b' hb => ?_) (List.pairwise_lt_range' 1)
    rw [hstop ha, hstop hb]
    exact hab

/-- **`Best` is exact** unless the end of an English edge exceeds 64 bits: its results
are distinct segmentations, and as many of the cheapest of all segmentations as there
may be, the cheapest first. -/
theorem best_exact (raw : Bytes) (lookup : EnglishWordLookup) (options : MixedRomajiSplitOptions)
    (hsize : raw.length < 2 ^ 64) (hk : 1 ≤ options.maxSplits)
    (hno : ¬ Overflows raw lookup options) : (latticeOf raw lookup options).Exact :=
  Lattice.exact_of_forward (forward_of_not_overflows hsize hno) hk

/-- A dictionary of two words, `a` and `aa`. -/
def lettersLookup : EnglishWordLookup := fun key =>
  if key = [0x61] ∨ key = [0x61, 0x61] then [⟨key, 0⟩] else []

/-- The splits of `aaaa`, where a word may be a single letter. -/
theorem best_exact_letters :
    (latticeOf [0x61, 0x61, 0x61, 0x61] lettersLookup { minInlineEnglishLength := 1 }).Exact := by
  refine best_exact _ _ _ (by decide) (by decide) ?_
  rintro ⟨start, hstart, hlt, -⟩
  have hstart : start < 4 := hstart
  have hletter : minLength [0x61, 0x61, 0x61, 0x61] { minInlineEnglishLength := 1 } start = 1 := by
    unfold minLength
    interval_cases start <;> decide
  rw [hletter, sizeT] at hlt
  omega

/-- The splits of `aaaa` where no word is long enough, as the length is the greatest
number of 64 bits: a segment ends before it begins. -/
theorem best_overflowing :
    ((latticeOf [0x61, 0x61, 0x61, 0x61] lettersLookup
      { minInlineEnglishLength := 2 ^ 64 - 1 }).best 4).any (fun splits => splits.any (fun split =>
        split.segments.any (fun segment => decide (segment.rawEnd ≤ segment.rawBegin)))) = true := by
  decide +kernel

/-- **`Best` is not exact** where the end of an English edge exceeds 64 bits. -/
theorem best_not_exact :
    ¬ (latticeOf [0x61, 0x61, 0x61, 0x61] lettersLookup
      { minInlineEnglishLength := 2 ^ 64 - 1 }).Exact := by
  rintro ⟨splits, hbest, hkbest, -⟩
  have hrun := best_overflowing
  rw [hbest 4 (by decide), Option.any_some, List.any_eq_true] at hrun
  obtain ⟨split, hsplit, hback⟩ := hrun
  obtain ⟨segment, hsegment, hback⟩ := List.any_eq_true.mp hback
  have hadmissible := hkbest.mem _ (List.mem_map_of_mem hsplit)
  exact absurd (of_decide_eq_true hback)
    (not_le.mpr (Lattice.lt_of_tiles hadmissible.tiles segment hsegment))

end AzooKey.Core.MixedRomajiSplitter

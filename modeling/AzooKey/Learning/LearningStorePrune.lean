import AzooKey.Learning.LearningStoreText
import AzooKey.Lib.EraseLoop
import AzooKey.Lib.InsertionSort
import AzooKey.Lib.NestedMap

/-!
# Pruning the learning store

`Prune` of `learning/src/LearningStore.cpp` on the table as the source has it, a
map of maps of maps, with the loops that erase from it. The numbers that the
rows are scored with are a parameter (`Scores`): those of the machine
(`doubleScores`), where the loops do to the rows what `Store.prune` says
(`flatten_prune`), and exact ones (`exactScores`).

With exact scores, pruning removes the light pairs, then the lowest rows that
are too many, and nothing else (`prune_spec`). Pruned again, the store changes
only when the limit took a row from a pair and left the others light: their sum
is below the threshold, and no rejection outweighs it any more. The sum need not
have fallen for that, since the row that went may be the one with the
rejections.
-/

namespace AzooKey.Learning.LearningStore.Nested

/-! ## The table -/

/-- The rows of a pair, by application. -/
abbrev Apps := OrderedMap Bytes Record

/-- The pairs of a reading, by surface. -/
abbrev Surfaces := OrderedMap Bytes Apps

/-- `table_`. -/
abbrev Readings := OrderedMap Bytes Surfaces

/-- The rows of a pair, with their keys. -/
def rowsOfPair (reading surface : Bytes) (apps : Apps) : List (Key × Record) :=
  apps.entries.map (fun a => (⟨reading, surface, a.1⟩, a.2))

/-- The rows of a reading. -/
def rowsOfReading (reading : Bytes) (surfaces : Surfaces) : List (Key × Record) :=
  surfaces.entries.flatMap (fun s => rowsOfPair reading s.1 s.2)

/-- The rows, in the order of the nested iteration. -/
def rows (t : Readings) : List (Key × Record) := t.entries.flatMap (fun r => rowsOfReading r.1 r.2)

/-- **No map within the table is empty.** -/
def NoEmptyMap (t : Readings) : Prop :=
  ∀ reading surfaces, t.find? reading = some surfaces →
    surfaces.entries ≠ [] ∧ ∀ surface apps, surfaces.find? surface = some apps → apps.entries ≠ []

/-- The row at three keys. -/
def lookup (t : Readings) (key : Key) : Option Record :=
  ((t.find? key.reading).bind (fun surfaces => surfaces.find? key.surface)).bind
    (fun apps => apps.find? key.appName)

/-- The keys are compared one after the other. -/
theorem key_lt_iff {key key' : Key} :
    key < key' ↔ key.reading < key'.reading ∨ key.reading = key'.reading ∧
      (key.surface < key'.surface ∨ key.surface = key'.surface ∧ key.appName < key'.appName) := by
  show key.triple < key'.triple ↔ _
  rw [Key.triple, Key.triple, Prod.Lex.toLex_lt_toLex, Prod.Lex.toLex_lt_toLex]

/-- The rows of a pair are sorted. -/
theorem sorted_rowsOfPair (reading surface : Bytes) (apps : Apps) :
    AssocList.Sorted (rowsOfPair reading surface apps) := by
  refine List.pairwise_map.mpr (apps.sorted.imp (fun h => ?_))
  exact key_lt_iff.mpr (Or.inr ⟨rfl, Or.inr ⟨rfl, h⟩⟩)

/-- **The rows are sorted by their keys.** -/
theorem sorted_rows (t : Readings) : AssocList.Sorted (rows t) := by
  refine List.pairwise_flatMap.mpr ⟨fun r _ => List.pairwise_flatMap.mpr ⟨fun s _ => ?_, ?_⟩, ?_⟩
  · exact sorted_rowsOfPair r.1 s.1 s.2
  · -- two surfaces of one reading
    refine r.2.sorted.imp (fun h row hrow row' hrow' => ?_)
    obtain ⟨a, -, rfl⟩ := List.mem_map.mp hrow
    obtain ⟨a', -, rfl⟩ := List.mem_map.mp hrow'
    exact key_lt_iff.mpr (Or.inr ⟨rfl, Or.inl h⟩)
  · -- two readings
    refine t.sorted.imp (fun h row hrow row' hrow' => ?_)
    obtain ⟨s, -, hrow⟩ := List.mem_flatMap.mp hrow
    obtain ⟨s', -, hrow'⟩ := List.mem_flatMap.mp hrow'
    obtain ⟨a, -, rfl⟩ := List.mem_map.mp hrow
    obtain ⟨a', -, rfl⟩ := List.mem_map.mp hrow'
    exact key_lt_iff.mpr (Or.inl h)

/-- The table as one map. -/
def flatten (t : Readings) : Table := ⟨rows t, sorted_rows t⟩

/-- **The one map finds what the maps find.** -/
theorem find?_flatten (t : Readings) (key : Key) : (flatten t).find? key = lookup t key := by
  refine Option.ext (fun rec => ?_)
  rw [OrderedMap.find?_eq_some_iff, lookup, Option.bind_eq_some_iff]
  show (key, rec) ∈ rows t ↔ _
  constructor
  · intro h
    obtain ⟨r, hr, h⟩ := List.mem_flatMap.mp h
    obtain ⟨s, hs, h⟩ := List.mem_flatMap.mp h
    obtain ⟨a, ha, h⟩ := List.mem_map.mp h
    obtain ⟨rfl, rfl⟩ := Prod.mk.inj h
    refine ⟨s.2, ?_, s.2.find?_eq_some_iff.mpr ha⟩
    rw [t.find?_eq_some_iff.mpr (show (r.1, r.2) ∈ t.entries from hr), Option.bind_some]
    exact r.2.find?_eq_some_iff.mpr hs
  · rintro ⟨apps, happs, hrec⟩
    obtain ⟨surfaces, hsurfaces, happs⟩ := Option.bind_eq_some_iff.mp happs
    refine List.mem_flatMap.mpr ⟨_, t.find?_eq_some_iff.mp hsurfaces, ?_⟩
    refine List.mem_flatMap.mpr ⟨_, surfaces.find?_eq_some_iff.mp happs, ?_⟩
    exact List.mem_map.mpr ⟨_, apps.find?_eq_some_iff.mp hrec, rfl⟩

/-- **The rows of a pair are those of its map.** -/
theorem pairRows_flatten {t : Readings} {reading surface : Bytes} {surfaces : Surfaces}
    {apps : Apps} (hsurfaces : t.find? reading = some surfaces)
    (happs : surfaces.find? surface = some apps) :
    pairRows (flatten t) reading surface = rowsOfPair reading surface apps := by
  refine AssocList.eq_of_mem_iff (List.Pairwise.filter _ (sorted_rows t))
    (sorted_rowsOfPair reading surface apps) (fun row => ?_)
  obtain ⟨⟨r, s, a⟩, rec⟩ := row
  have hfound : (⟨r, s, a⟩, rec) ∈ (flatten t).entries ↔ lookup t ⟨r, s, a⟩ = some rec := by
    rw [← OrderedMap.find?_eq_some_iff, find?_flatten]
  rw [pairRows, List.mem_filter, hfound, rowsOfPair, List.mem_map]
  constructor
  · rintro ⟨h, hpair⟩
    obtain ⟨rfl, rfl⟩ : r = reading ∧ s = surface := of_decide_eq_true hpair
    rw [lookup, hsurfaces, Option.bind_some, happs, Option.bind_some] at h
    exact ⟨(a, rec), apps.find?_eq_some_iff.mp h, rfl⟩
  · rintro ⟨⟨a', rec'⟩, h, heq⟩
    obtain ⟨hkey, rfl⟩ := Prod.mk.inj heq
    obtain ⟨rfl, rfl, rfl⟩ := Key.mk.inj hkey
    refine ⟨?_, decide_eq_true ⟨rfl, rfl⟩⟩
    rw [lookup, hsurfaces, Option.bind_some, happs, Option.bind_some]
    exact apps.find?_eq_some_iff.mpr h

/-- The map of a pair is determined by its rows, when it has some. -/
theorem NoEmptyMap.pair_eq {t t' : Readings} (ht : NoEmptyMap t)
    (h : ∀ key, lookup t key = lookup t' key) {reading surface : Bytes} {apps : Apps}
    (happs : NestedMap.lookup t reading surface = some apps) :
    NestedMap.lookup t' reading surface = some apps := by
  rw [NestedMap.lookup_eq_bind] at happs ⊢
  have hkey : ∀ appName, lookup t ⟨reading, surface, appName⟩ = apps.find? appName := by
    intro appName
    rw [lookup, happs, Option.bind_some]
  obtain ⟨surfaces, hsurfaces, hfound⟩ := Option.bind_eq_some_iff.mp happs
  obtain ⟨a, l, hentries⟩ :=
    List.exists_cons_of_ne_nil ((ht reading surfaces hsurfaces).2 surface apps hfound)
  have ha : apps.find? a.1 = some a.2 :=
    apps.find?_eq_some_iff.mpr (by rw [hentries]; exact List.mem_cons_self)
  -- so the other table has a row of the pair
  have hrow : lookup t' ⟨reading, surface, a.1⟩ = some a.2 := by rw [← h, hkey, ha]
  obtain ⟨apps', happs', -⟩ := Option.bind_eq_some_iff.mp hrow
  have heq : apps' = apps := by
    refine OrderedMap.ext_of_find? (fun appName => ?_)
    rw [← hkey, h, lookup, happs', Option.bind_some]
  rw [← heq]
  exact happs'

/-- **Tables without empty maps and with the same rows are equal.** -/
theorem eq_of_flatten_eq {t t' : Readings} (ht : NoEmptyMap t) (ht' : NoEmptyMap t')
    (h : flatten t = flatten t') : t = t' := by
  have hlookup : ∀ key, lookup t key = lookup t' key := fun key => by
    rw [← find?_flatten, h, find?_flatten]
  refine NestedMap.ext_of_lookup (fun reading surfaces hfound => (ht reading surfaces hfound).1)
    (fun reading surfaces hfound => (ht' reading surfaces hfound).1)
    (fun reading surface => Option.ext (fun apps => ?_))
  exact ⟨fun happs => ht.pair_eq hlookup happs,
    fun happs => ht'.pair_eq (fun key => (hlookup key).symm) happs⟩

/-! ## The loops -/

/-- The numbers that rows are scored with. -/
structure Scores (R : Type) where
  /-- `DecayedWeight`. -/
  decayedWeight : Record → UInt64 → R
  /-- `0.0`. -/
  zero : R
  /-- `+`. -/
  add : R → R → R
  /-- `<`. -/
  lt : R → R → Bool
  /-- `==`. -/
  eq : R → R → Bool

/-- The score of a row, and its keys. -/
structure RankedRecord (R : Type) where
  key : Key
  serializedKey : Bytes
  score : R

section Prune

variable {R : Type} (σ : Scores R)

/-- `SumDecayedWeight`. -/
def sumDecayedWeight (rows : List (Key × Record)) (nowEpochSec : UInt64) : R :=
  rows.foldl (fun total row => σ.add total (σ.decayedWeight row.2 nowEpochSec)) σ.zero

/-- The rows of a pair are too light, and no rejection has to be remembered. -/
def isLightPair (minWeight : R) (nowEpochSec : UInt64) (rows : List (Key × Record)) : Bool :=
  σ.lt (sumDecayedWeight σ rows nowEpochSec) minWeight && !hasNetRejection rows

/-- The body of the loop over the pairs of a reading. -/
def pruneSurface (minWeight : R) (nowEpochSec : UInt64) (reading surface : Bytes) (apps : Apps) :
    Option Apps × Bool :=
  if isLightPair σ minWeight nowEpochSec (rowsOfPair reading surface apps) then (none, true)
  else (some apps, false)

/-- The body of the loop over the readings. -/
def pruneReading (minWeight : R) (nowEpochSec : UInt64) (reading : Bytes) (surfaces : Surfaces) :
    Option Surfaces × Bool :=
  let pruned := surfaces.eraseLoop (pruneSurface σ minWeight nowEpochSec reading)
  (if pruned.1.entries = [] then none else some pruned.1, pruned.2)

/-- The table without its light pairs, and whether there were any. -/
def withoutLightPairs (minWeight : R) (nowEpochSec : UInt64) (t : Readings) : Readings × Bool :=
  if σ.lt σ.zero minWeight then t.eraseLoop (pruneReading σ minWeight nowEpochSec) else (t, false)

/-- The order in which rows go. -/
def before (lhs rhs : RankedRecord R) : Bool :=
  if σ.eq lhs.score rhs.score then lhs.serializedKey < rhs.serializedKey
  else σ.lt lhs.score rhs.score

/-- `ranked`, sorted. -/
def ranked (t : Readings) (nowEpochSec : UInt64) : List (RankedRecord R) :=
  ((rows t).map (fun row =>
    ⟨row.1, LearningStore.serializedKey row.1, σ.decayedWeight row.2 nowEpochSec⟩)).insertionSort
      (fun lhs rhs => ¬ before σ rhs lhs)

/-- The removal of a row, with the maps that it leaves empty. -/
def eraseRow (t : Readings) (key : Key) : Readings :=
  match t.find? key.reading with
  | none => t
  | some surfaces =>
    match surfaces.find? key.surface with
    | none => t
    | some apps =>
      NestedMap.setBucket t key.reading
        (NestedMap.setBucket surfaces key.surface (apps.erase key.appName))

/-- **`Prune`** on the table, and whether it changed it. -/
def pruned (maxRecords : ℕ) (minWeight : R) (nowEpochSec : UInt64) (t : Readings) :
    Readings × Bool :=
  let kept := withoutLightPairs σ minWeight nowEpochSec t
  let recordCount := (flatten kept.1).size
  if 0 < maxRecords ∧ maxRecords < recordCount then
    let removeCount := recordCount - maxRecords
    ((((ranked σ kept.1 nowEpochSec).take removeCount).map RankedRecord.key).foldl eraseRow kept.1,
      0 < removeCount)
  else kept

end Prune

/-! ## What the loops leave -/

/-- A map that finds nothing is empty. -/
theorem entries_eq_nil_iff {V : Type*} {m : OrderedMap Bytes V} :
    m.entries = [] ↔ ∀ k, m.find? k = none := by
  constructor
  · intro h k
    cases hfound : m.find? k with
    | none => rfl
    | some v =>
      have hmem := m.find?_eq_some_iff.mp hfound
      rw [h] at hmem
      exact absurd hmem List.not_mem_nil
  · intro h
    refine List.eq_nil_iff_forall_not_mem.mpr (fun e he => ?_)
    have hfound := m.find?_eq_some_iff.mpr (show (e.1, e.2) ∈ m.entries from he)
    rw [h] at hfound
    cases hfound

section Loops

variable {R : Type} {σ : Scores R} {minWeight : R} {nowEpochSec : UInt64} {t : Readings}

/-- The pairs of a reading after the loop over them. -/
theorem find?_pruneReading (reading : Bytes) (surfaces : Surfaces) (surface : Bytes) :
    (pruneReading σ minWeight nowEpochSec reading surfaces).1.bind (fun m => m.find? surface)
      = (surfaces.find? surface).bind (fun apps =>
          (pruneSurface σ minWeight nowEpochSec reading surface apps).1) := by
  rw [← OrderedMap.find?_eraseLoop, pruneReading]
  dsimp only
  split
  · rename_i hempty
    exact (entries_eq_nil_iff.mp hempty surface).symm
  · rfl

/-- **The rows without the light pairs.** -/
theorem flatten_withoutLightPairs :
    flatten (withoutLightPairs σ minWeight nowEpochSec t).1
      = if σ.lt σ.zero minWeight then
          (flatten t).filter (fun key _ =>
            !isLightPair σ minWeight nowEpochSec
              (pairRows (flatten t) key.reading key.surface))
        else flatten t := by
  unfold withoutLightPairs
  split
  · refine OrderedMap.ext_of_find? (fun key => ?_)
    rw [find?_flatten, OrderedMap.find?_filter, find?_flatten, lookup, lookup,
      OrderedMap.find?_eraseLoop]
    cases hsurfaces : t.find? key.reading with
    | none => rfl
    | some surfaces =>
      rw [Option.bind_some, Option.bind_some, find?_pruneReading]
      cases happs : surfaces.find? key.surface with
      | none => rfl
      | some apps =>
        rw [Option.bind_some, Option.bind_some, pruneSurface, ← pairRows_flatten hsurfaces happs]
        cases hlight : isLightPair σ minWeight nowEpochSec
            (pairRows (flatten t) key.reading key.surface) with
        | true =>
          rw [if_pos rfl, Option.bind_none, Bool.not_true]
          cases apps.find? key.appName <;> rfl
        | false =>
          rw [if_neg Bool.false_ne_true, Option.bind_some, Bool.not_false]
          cases apps.find? key.appName <;> rfl
  · rfl

/-- A row of a pair that is not there. -/
theorem eraseRow_of_none {key : Key}
    (h : (t.find? key.reading).bind (fun surfaces => surfaces.find? key.surface) = none) :
    eraseRow t key = t := by
  rw [eraseRow]
  cases hsurfaces : t.find? key.reading with
  | none => rfl
  | some surfaces =>
    rw [hsurfaces, Option.bind_some] at h
    simp only [h]

/-- A row of a pair that is there. -/
theorem eraseRow_of_some {key : Key} {surfaces : Surfaces} {apps : Apps}
    (hsurfaces : t.find? key.reading = some surfaces)
    (happs : surfaces.find? key.surface = some apps) :
    eraseRow t key = NestedMap.setBucket t key.reading
      (NestedMap.setBucket surfaces key.surface (apps.erase key.appName)) := by
  rw [eraseRow, hsurfaces]
  simp only [happs]

/-- **The rows without one.** -/
theorem flatten_eraseRow (t : Readings) (key : Key) :
    flatten (eraseRow t key) = (flatten t).erase key := by
  refine OrderedMap.ext_of_find? (fun key' => ?_)
  rw [find?_flatten, OrderedMap.find?_erase, find?_flatten]
  cases hpair : (t.find? key.reading).bind (fun surfaces => surfaces.find? key.surface) with
  | none =>
    rw [eraseRow_of_none hpair]
    split
    · rename_i hkey
      rw [hkey, lookup, hpair, Option.bind_none]
    · rfl
  | some apps =>
    obtain ⟨surfaces, hsurfaces, happs⟩ := Option.bind_eq_some_iff.mp hpair
    rw [eraseRow_of_some hsurfaces happs, lookup, lookup]
    obtain ⟨reading, surface, appName⟩ := key
    obtain ⟨reading', surface', appName'⟩ := key'
    dsimp only at hsurfaces happs ⊢
    rw [NestedMap.bind_find?_setBucket]
    by_cases hreading : reading' = reading
    · subst hreading
      rw [if_pos rfl, hsurfaces, Option.bind_some, NestedMap.bind_find?_setBucket]
      by_cases hsurface : surface' = surface
      · subst hsurface
        rw [if_pos rfl, happs, Option.bind_some, OrderedMap.find?_erase]
        simp
      · rw [if_neg hsurface, if_neg (fun h => hsurface (Key.mk.inj h).2.1)]
    · rw [if_neg hreading, if_neg (fun h => hreading (Key.mk.inj h).1)]

/-- Removing a row leaves no map empty. -/
theorem NoEmptyMap.eraseRow (h : NoEmptyMap t) (key : Key) : NoEmptyMap (eraseRow t key) := by
  cases hpair : (t.find? key.reading).bind (fun surfaces => surfaces.find? key.surface) with
  | none =>
    rw [eraseRow_of_none hpair]
    exact h
  | some apps =>
    obtain ⟨surfaces, hsurfaces, happs⟩ := Option.bind_eq_some_iff.mp hpair
    rw [eraseRow_of_some hsurfaces happs]
    intro reading surfaces' hfound
    rcases NestedMap.find?_setBucket_eq_some hfound with ⟨rfl, hne⟩ | hfound
    · refine ⟨hne, fun surface apps' hfound => ?_⟩
      rcases NestedMap.find?_setBucket_eq_some hfound with ⟨rfl, hne⟩ | hfound
      · exact hne
      · exact (h key.reading surfaces hsurfaces).2 surface apps' hfound
    · exact h reading surfaces' hfound

/-- Removing light pairs leaves no map empty. -/
theorem NoEmptyMap.withoutLightPairs (h : NoEmptyMap t) :
    NoEmptyMap (withoutLightPairs σ minWeight nowEpochSec t).1 := by
  unfold Nested.withoutLightPairs
  split
  · intro reading surfaces' hfound
    rw [OrderedMap.find?_eraseLoop] at hfound
    obtain ⟨surfaces, hsurfaces, hleft⟩ := Option.bind_eq_some_iff.mp hfound
    unfold pruneReading at hleft
    dsimp only at hleft
    split at hleft
    · cases hleft
    · rename_i hne
      rw [← Option.some.inj hleft]
      refine ⟨hne, fun surface apps happs => ?_⟩
      rw [OrderedMap.find?_eraseLoop] at happs
      obtain ⟨apps', happs', hleft'⟩ := Option.bind_eq_some_iff.mp happs
      unfold pruneSurface at hleft'
      split at hleft'
      · cases hleft'
      · rw [← Option.some.inj hleft']
        exact (h reading surfaces hsurfaces).2 surface apps' happs'
  · exact h

/-- **Pruning leaves no map empty.** -/
theorem NoEmptyMap.pruned (h : NoEmptyMap t) (maxRecords : ℕ) :
    NoEmptyMap (pruned σ maxRecords minWeight nowEpochSec t).1 := by
  have hrows : ∀ (keys : List Key) (t : Readings), NoEmptyMap t →
      NoEmptyMap (keys.foldl Nested.eraseRow t) := by
    intro keys
    induction keys with
    | nil => exact fun t ht => ht
    | cons key keys ih => exact fun t ht => ih _ (ht.eraseRow key)
  unfold Nested.pruned
  dsimp only
  split
  · exact hrows _ _ h.withoutLightPairs
  · exact h.withoutLightPairs

/-- **The rows after pruning.** -/
theorem flatten_pruned (maxRecords : ℕ) :
    flatten (pruned σ maxRecords minWeight nowEpochSec t).1
      = if 0 < maxRecords ∧
            maxRecords < (flatten (withoutLightPairs σ minWeight nowEpochSec t).1).size then
          (((ranked σ (withoutLightPairs σ minWeight nowEpochSec t).1 nowEpochSec).take
              ((flatten (withoutLightPairs σ minWeight nowEpochSec t).1).size - maxRecords)).map
            RankedRecord.key).foldl OrderedMap.erase
              (flatten (withoutLightPairs σ minWeight nowEpochSec t).1)
        else flatten (withoutLightPairs σ minWeight nowEpochSec t).1 := by
  have hrows : ∀ (keys : List Key) (t : Readings),
      flatten (keys.foldl eraseRow t) = keys.foldl OrderedMap.erase (flatten t) := by
    intro keys
    induction keys with
    | nil => exact fun t => rfl
    | cons key keys ih =>
      intro t
      rw [List.foldl_cons, ih, flatten_eraseRow, List.foldl_cons]
  unfold pruned
  dsimp only
  split
  · exact hrows _ _
  · rfl

/-- The ranking has every row once. -/
theorem perm_ranked (t : Readings) : (ranked σ t nowEpochSec).Perm
    ((flatten t).entries.map (fun row =>
      ⟨row.1, LearningStore.serializedKey row.1, σ.decayedWeight row.2 nowEpochSec⟩)) :=
  List.perm_insertionSort _ _

/-- Whether a pair was light. -/
theorem changed_withoutLightPairs (h : NoEmptyMap t) :
    (withoutLightPairs σ minWeight nowEpochSec t).2 = true
      ↔ ∃ row ∈ (flatten t).entries, σ.lt σ.zero minWeight = true ∧
        isLightPair σ minWeight nowEpochSec (pairRows (flatten t) row.1.reading row.1.surface)
          = true := by
  unfold withoutLightPairs
  split
  · rename_i hlt
    rw [OrderedMap.changed_eraseLoop, List.any_eq_true]
    constructor
    · rintro ⟨r, hr, hchanged⟩
      obtain ⟨s, hs, hlight⟩ := List.any_eq_true.mp
        ((OrderedMap.changed_eraseLoop _ _).symm.trans hchanged)
      have hsurfaces : t.find? r.1 = some r.2 := t.find?_eq_some_iff.mpr hr
      have happs : r.2.find? s.1 = some s.2 := r.2.find?_eq_some_iff.mpr hs
      obtain ⟨a, l, hentries⟩ := List.exists_cons_of_ne_nil ((h _ _ hsurfaces).2 _ _ happs)
      refine ⟨(⟨r.1, s.1, a.1⟩, a.2), ?_, hlt, ?_⟩
      · refine List.mem_flatMap.mpr ⟨r, hr, List.mem_flatMap.mpr ⟨s, hs, ?_⟩⟩
        exact List.mem_map.mpr ⟨a, by rw [hentries]; exact List.mem_cons_self, rfl⟩
      · unfold pruneSurface at hlight
        rw [pairRows_flatten hsurfaces happs]
        by_contra hnot
        rw [if_neg hnot] at hlight
        cases hlight
    · rintro ⟨row, hrow, -, hlight⟩
      obtain ⟨r, hr, hrow⟩ := List.mem_flatMap.mp hrow
      obtain ⟨s, hs, hrow⟩ := List.mem_flatMap.mp hrow
      obtain ⟨a, -, rfl⟩ := List.mem_map.mp hrow
      rw [pairRows_flatten (t.find?_eq_some_iff.mpr (show (r.1, r.2) ∈ t.entries from hr))
        (r.2.find?_eq_some_iff.mpr (show (s.1, s.2) ∈ r.2.entries from hs))] at hlight
      refine ⟨r, hr, (OrderedMap.changed_eraseLoop _ _).trans (List.any_eq_true.mpr ⟨s, hs, ?_⟩)⟩
      rw [pruneSurface, if_pos hlight]
  · rename_i hlt
    exact iff_of_false Bool.false_ne_true (fun ⟨_, _, h, _⟩ => hlt h)

end Loops

/-! ## The store -/

/-- The store: its table, in which no map is empty, and whether it differs from
the file. -/
@[ext] structure NestedStore where
  table : Readings
  noEmptyMap : NoEmptyMap table
  dirty : Bool

/-- **`LearningStore::Prune`.** -/
def NestedStore.prune {R : Type} (σ : Scores R) (s : NestedStore) (maxRecords : ℕ) (minWeight : R)
    (nowEpochSec : UInt64) : NestedStore where
  table := (pruned σ maxRecords minWeight nowEpochSec s.table).1
  noEmptyMap := s.noEmptyMap.pruned maxRecords
  dirty := s.dirty || (pruned σ maxRecords minWeight nowEpochSec s.table).2

/-- The serialized keys tell the rows apart. -/
theorem serializedKey_injective : Function.Injective LearningStore.serializedKey := by
  have hfields : ∀ key : Key, (LearningStore.serializedKey key).splitOn 0x09
      = [escapes.escape key.reading, escapes.escape key.surface, escapes.escape key.appName] := by
    intro key
    have hjoin : LearningStore.serializedKey key = [0x09].intercalate
        [escapes.escape key.reading, escapes.escape key.surface, escapes.escape key.appName] := by
      simp [LearningStore.serializedKey, List.intercalate]
    rw [hjoin, List.splitOn_intercalate _ _ (List.cons_ne_nil _ _)]
    simp only [List.forall_mem_cons, List.not_mem_nil, false_implies, implies_true, and_true]
    exact ⟨(not_mem_escape _).1, (not_mem_escape _).1, (not_mem_escape _).1⟩
  have hescape : Function.Injective escapes.escape :=
    Function.LeftInverse.injective escapes.unescape_escape
  rintro ⟨reading, surface, appName⟩ ⟨reading', surface', appName'⟩ h
  have heq := (hfields _).symm.trans ((congrArg (fun text => text.splitOn 0x09) h).trans (hfields _))
  simp only [List.cons.injEq, and_true] at heq
  rw [Key.mk.injEq]
  exact ⟨hescape heq.1, hescape heq.2.1, hescape heq.2.2⟩

/-- A sum of counts, modulo the word size. -/
theorem toNat_foldl_add (count : Record → UInt64) (rows : List (Key × Record)) (sum : UInt64) :
    (rows.foldl (fun sum row => sum + count row.2) sum).toNat
      = (sum.toNat + (rows.map (fun row => (count row.2).toNat)).sum) % 2 ^ 64 := by
  induction rows generalizing sum with
  | nil => rw [List.foldl_nil, List.map_nil, List.sum_nil, Nat.add_zero, Nat.mod_eq_of_lt sum.toNat_lt]
  | cons row rows ih =>
    rw [List.foldl_cons, ih, List.map_cons, List.sum_cons, UInt64.toNat_add, Nat.mod_add_mod,
      Nat.add_assoc]

/-- **What a net rejection is**, as long as the sums of the counts fit the word. -/
theorem hasNetRejection_iff {rows : List (Key × Record)}
    (haccepts : (rows.map (fun row => row.2.acceptCount.toNat)).sum < 2 ^ 64)
    (hrejects : (rows.map (fun row => row.2.rejectCount.toNat)).sum < 2 ^ 64) :
    hasNetRejection rows = true ↔ (rows.map (fun row => row.2.acceptCount.toNat)).sum
      < (rows.map (fun row => row.2.rejectCount.toNat)).sum := by
  rw [hasNetRejection, decide_eq_true_iff, UInt64.lt_iff_toNat_lt,
    toNat_foldl_add Record.acceptCount, toNat_foldl_add Record.rejectCount, UInt64.toNat_zero,
    Nat.zero_add, Nat.zero_add, Nat.mod_eq_of_lt haccepts, Nat.mod_eq_of_lt hrejects]

/-! ## With exact scores -/

section Exact

variable {R : Type} [LinearOrder R] [AddCommMonoid R] (decayedWeight : Record → UInt64 → R)

/-- **Exact scores**: sums are not rounded, and all scores can be compared. -/
def exactScores : Scores R where
  decayedWeight := decayedWeight
  zero := 0
  add := (· + ·)
  lt a b := decide (a < b)
  eq a b := decide (a = b)

/-- The sum of the decayed weights of some rows. -/
def pairWeight (rows : List (Key × Record)) (nowEpochSec : UInt64) : R :=
  (rows.map (fun row => decayedWeight row.2 nowEpochSec)).sum

/-- **A light pair**: its sum is below the threshold, and no rejection outweighs
it. -/
def IsLight (minWeight : R) (nowEpochSec : UInt64) (t : Table) (reading surface : Bytes) : Prop :=
  0 < minWeight ∧ pairWeight decayedWeight (pairRows t reading surface) nowEpochSec < minWeight
    ∧ hasNetRejection (pairRows t reading surface) = false

instance (minWeight : R) (nowEpochSec : UInt64) (t : Table) (reading surface : Bytes) :
    Decidable (IsLight decayedWeight minWeight nowEpochSec t reading surface) :=
  inferInstanceAs (Decidable (_ ∧ _ ∧ _))

/-- The rows of the pairs that are not light. -/
def heavy (minWeight : R) (nowEpochSec : UInt64) (t : Table) : Table :=
  t.filter (fun key _ => ¬IsLight decayedWeight minWeight nowEpochSec t key.reading key.surface)

/-- A row is lower than another: by its decayed weight, and then by its key. -/
def Lower (nowEpochSec : UInt64) (row row' : Key × Record) : Prop :=
  decayedWeight row.2 nowEpochSec < decayedWeight row'.2 nowEpochSec
    ∨ decayedWeight row.2 nowEpochSec = decayedWeight row'.2 nowEpochSec
      ∧ LearningStore.serializedKey row.1 < LearningStore.serializedKey row'.1

variable {decayedWeight} {minWeight : R} {nowEpochSec : UInt64} {t : Readings}

/-- The sum is exact. -/
theorem sumDecayedWeight_exactScores (rows : List (Key × Record)) :
    sumDecayedWeight (exactScores decayedWeight) rows nowEpochSec
      = pairWeight decayedWeight rows nowEpochSec := by
  rw [pairWeight, List.sum_eq_foldl, List.foldl_map]
  rfl

/-- What is light. -/
theorem isLight_iff {reading surface : Bytes} :
    IsLight decayedWeight minWeight nowEpochSec (flatten t) reading surface
      ↔ (exactScores decayedWeight).lt (exactScores decayedWeight).zero minWeight = true
        ∧ isLightPair (exactScores decayedWeight) minWeight nowEpochSec
            (pairRows (flatten t) reading surface) = true := by
  rw [IsLight, isLightPair, Bool.and_eq_true, Bool.not_eq_true', sumDecayedWeight_exactScores]
  exact and_congr decide_eq_true_iff.symm (and_congr_left' decide_eq_true_iff.symm)

/-- **The first part of pruning leaves the pairs that are not light.** -/
theorem flatten_withoutLightPairs_exactScores :
    flatten (withoutLightPairs (exactScores decayedWeight) minWeight nowEpochSec t).1
      = heavy decayedWeight minWeight nowEpochSec (flatten t) := by
  rw [flatten_withoutLightPairs, heavy]
  split
  · rename_i hlt
    refine congrArg (OrderedMap.filter (flatten t)) (funext₂ (fun key _ => ?_))
    cases hlight : isLightPair (exactScores decayedWeight) minWeight nowEpochSec
        (pairRows (flatten t) key.reading key.surface) with
    | true =>
      rw [Bool.not_true, eq_comm, decide_eq_false_iff_not, not_not, isLight_iff]
      exact ⟨hlt, hlight⟩
    | false =>
      rw [Bool.not_false, eq_comm, decide_eq_true_iff, isLight_iff, hlight]
      exact fun h => Bool.false_ne_true h.2
  · rename_i hlt
    refine OrderedMap.ext_of_find? (fun key => ?_)
    rw [OrderedMap.find?_filter]
    cases (flatten t).find? key with
    | none => rfl
    | some rec =>
      have hnot : ¬IsLight decayedWeight minWeight nowEpochSec (flatten t) key.reading key.surface :=
        fun h => hlt (isLight_iff.mp h).1
      rw [Option.filter_some, if_pos (decide_eq_true hnot)]

/-- The rows of a pair that is not light all stay. -/
theorem pairRows_heavy {t : Table} {reading surface : Bytes}
    (h : ¬IsLight decayedWeight minWeight nowEpochSec t reading surface) :
    pairRows (heavy decayedWeight minWeight nowEpochSec t) reading surface
      = pairRows t reading surface := by
  show ((t.entries.filter _).filter _) = t.entries.filter _
  rw [List.filter_filter]
  refine List.filter_congr (fun row _ => ?_)
  cases hpair : row.1.ofPair reading surface with
  | false => rw [Bool.false_and]
  | true =>
    obtain ⟨hreading, hsurface⟩ : row.1.reading = reading ∧ row.1.surface = surface :=
      of_decide_eq_true hpair
    show (true && decide (¬IsLight _ _ _ t row.1.reading row.1.surface)) = true
    rw [Bool.true_and, hreading, hsurface]
    exact decide_eq_true h

/-- The order in which rows go, with exact scores. -/
theorem before_exactScores {lhs rhs : RankedRecord R} :
    before (exactScores decayedWeight) lhs rhs = true
      ↔ toLex (lhs.score, lhs.serializedKey) < toLex (rhs.score, rhs.serializedKey) := by
  rw [Prod.Lex.toLex_lt_toLex, before]
  by_cases heq : lhs.score = rhs.score
  · rw [if_pos (show (exactScores decayedWeight).eq _ _ = true from decide_eq_true heq),
      decide_eq_true_iff]
    simp [heq]
  · rw [if_neg (show ¬(exactScores decayedWeight).eq _ _ = true by simpa [exactScores] using heq)]
    simp [exactScores, heq]

/-- **The ranking is sorted.** -/
theorem pairwise_ranked (t : Readings) :
    (ranked (exactScores decayedWeight) t nowEpochSec).Pairwise (fun lhs rhs =>
      toLex (lhs.score, lhs.serializedKey) ≤ toLex (rhs.score, rhs.serializedKey)) := by
  have hle : ∀ lhs rhs : RankedRecord R, (¬before (exactScores decayedWeight) rhs lhs = true)
      ↔ toLex (lhs.score, lhs.serializedKey) ≤ toLex (rhs.score, rhs.serializedKey) :=
    fun lhs rhs => by rw [before_exactScores, not_lt]
  refine List.Pairwise.imp (fun {lhs rhs} h => (hle lhs rhs).mp h) ?_
  refine pairwise_insertionSort_of_mem (fun a _ b _ => ?_) (fun a _ b _ c _ hab hbc => ?_)
  · rw [hle, hle]
    exact le_total _ _
  · rw [hle] at hab hbc ⊢
    exact hab.trans hbc

/-- **What the limit leaves**: so many rows, and none that goes is above one that
stays. -/
theorem limit_spec (t : Readings) {maxRecords : ℕ} (hmore : maxRecords < (flatten t).size) :
    let left := (((ranked (exactScores decayedWeight) t nowEpochSec).take
      ((flatten t).size - maxRecords)).map RankedRecord.key).foldl OrderedMap.erase (flatten t)
    left.size = maxRecords ∧ (∀ row ∈ left.entries, row ∈ (flatten t).entries)
      ∧ ∀ row ∈ (flatten t).entries, row ∉ left.entries → ∀ kept ∈ left.entries,
        Lower decayedWeight nowEpochSec row kept := by
  intro left
  set σ : Scores R := exactScores decayedWeight with hσ
  set n := (flatten t).size - maxRecords with hn
  have hperm := @perm_ranked R σ nowEpochSec t
  have hkeys : ((ranked σ t nowEpochSec).map RankedRecord.key).Perm
      ((flatten t).entries.map Prod.fst) := by
    have hmap := hperm.map RankedRecord.key
    rw [List.map_map] at hmap
    exact hmap
  have hlength : (ranked σ t nowEpochSec).length = (flatten t).size := by
    rw [hperm.length_eq, List.length_map]
    rfl
  have hnodup : ((ranked σ t nowEpochSec).map RankedRecord.key).Nodup :=
    hkeys.nodup_iff.mpr (List.pairwise_map.mpr ((flatten t).sorted.imp (fun h => h.ne)))
  -- the rows that are left are those whose keys are not taken
  have hleft : ∀ row, row ∈ left.entries ↔ row ∈ (flatten t).entries
      ∧ row.1 ∉ ((ranked σ t nowEpochSec).take n).map RankedRecord.key := by
    rintro ⟨key, rec⟩
    rw [← OrderedMap.find?_eq_some_iff, OrderedMap.find?_foldl_erase, ← OrderedMap.find?_eq_some_iff]
    split
    · rename_i hmem
      exact iff_of_false (fun h => by cases h) (fun h => h.2 hmem)
    · rename_i hmem
      exact ⟨fun h => ⟨h, hmem⟩, fun h => h.1⟩
  refine ⟨?_, fun row hrow => ((hleft row).mp hrow).1, fun row hrow hgone kept hkept => ?_⟩
  · have htaken : (((ranked σ t nowEpochSec).take n).map RankedRecord.key).length = n := by
      rw [List.length_map, List.length_take, hlength]
      omega
    have hsize := (flatten t).size_foldl_erase
      (hnodup.sublist ((List.take_sublist n _).map RankedRecord.key)) (fun key hkey => by
        exact List.mem_toFinset.mpr (hkeys.mem_iff.mp
          (((List.take_sublist n _).map RankedRecord.key).subset hkey)))
    rw [htaken] at hsize
    show ((((ranked σ t nowEpochSec).take n).map RankedRecord.key).foldl OrderedMap.erase
      (flatten t)).size = maxRecords
    omega
  · obtain ⟨hkeptRow, hkeptKey⟩ := (hleft kept).mp hkept
    have hrowKey : row.1 ∈ ((ranked σ t nowEpochSec).take n).map RankedRecord.key := by
      by_contra hnot
      exact hgone ((hleft row).mpr ⟨hrow, hnot⟩)
    -- the row is ranked among those that are taken
    obtain ⟨taken, htaken, hkey⟩ := List.mem_map.mp hrowKey
    obtain ⟨row', hrow', rfl⟩ := List.mem_map.mp
      (hperm.mem_iff.mp ((List.take_sublist n _).subset htaken))
    have hsame : row' = row := by
      have hfound := (flatten t).find?_eq_some_iff.mpr (show (row'.1, row'.2) ∈ _ from hrow')
      rw [show row'.1 = row.1 from hkey,
        (flatten t).find?_eq_some_iff.mpr (show (row.1, row.2) ∈ _ from hrow)] at hfound
      exact Prod.ext hkey (Option.some.inj hfound).symm
    subst hsame
    -- the other one behind them
    have hstays := hperm.mem_iff.mpr (List.mem_map.mpr ⟨kept, hkeptRow, rfl⟩)
    rw [← List.take_append_drop n (ranked σ t nowEpochSec), List.mem_append] at hstays
    have hbehind := hstays.resolve_left (fun h => hkeptKey (List.mem_map.mpr ⟨_, h, rfl⟩))
    have hsorted := @pairwise_ranked R _ _ decayedWeight nowEpochSec t
    rw [← List.take_append_drop n (ranked _ t nowEpochSec)] at hsorted
    have hle := (List.pairwise_append.mp hsorted).2.2 _ htaken _ hbehind
    rw [Prod.Lex.toLex_le_toLex] at hle
    refine hle.imp id (fun h => ⟨h.1, lt_of_le_of_ne h.2 (fun heq => ?_)⟩)
    exact hkeptKey (serializedKey_injective heq ▸ hrowKey)

/-! ## What pruning does -/

/-- The rows of a store. -/
abbrev NestedStore.rows (s : NestedStore) : Table := flatten s.table

/-- **Pruning**: the light pairs go, and then the lowest rows that are too
many. -/
structure Prunes (decayedWeight : Record → UInt64 → R) (maxRecords : ℕ) (minWeight : R)
    (nowEpochSec : UInt64) (s s' : NestedStore) : Prop where
  /-- Without too many rows, exactly the light pairs go. -/
  within : maxRecords = 0 ∨ (heavy decayedWeight minWeight nowEpochSec s.rows).size ≤ maxRecords →
    s'.rows = heavy decayedWeight minWeight nowEpochSec s.rows
  /-- Of too many rows, so many stay as there may be. -/
  size : 0 < maxRecords → maxRecords < (heavy decayedWeight minWeight nowEpochSec s.rows).size →
    s'.rows.size = maxRecords
  /-- What stays is unchanged, and of no light pair. -/
  unchanged : ∀ row ∈ s'.rows.entries,
    row ∈ (heavy decayedWeight minWeight nowEpochSec s.rows).entries
  /-- What goes of the other pairs is lower than what stays. -/
  lowest : ∀ row ∈ (heavy decayedWeight minWeight nowEpochSec s.rows).entries,
    row ∉ s'.rows.entries → ∀ kept ∈ s'.rows.entries, Lower decayedWeight nowEpochSec row kept
  /-- No map is left empty. -/
  noEmptyMap : NoEmptyMap s'.table
  /-- The store differs from its file when a row went, or when it did before. -/
  dirty : s'.dirty = true ↔ s.dirty = true ∨ s'.rows ≠ s.rows

/-- **The limit broke up a pair**: it took a row and left another. -/
def BreaksUp (before after : Table) (reading surface : Bytes) : Prop :=
  (∃ row ∈ pairRows before reading surface, row ∉ after.entries)
    ∧ pairRows after reading surface ≠ []

/-- The rows that are not of a light pair. -/
theorem mem_heavy {t : Table} {row : Key × Record} :
    row ∈ (heavy decayedWeight minWeight nowEpochSec t).entries ↔ row ∈ t.entries
      ∧ ¬IsLight decayedWeight minWeight nowEpochSec t row.1.reading row.1.surface := by
  show row ∈ List.filter _ t.entries ↔ _
  rw [List.mem_filter]
  exact and_congr_right' decide_eq_true_iff

/-- All rows stay when no pair is light. -/
theorem heavy_eq_self_iff {t : Table} : heavy decayedWeight minWeight nowEpochSec t = t
    ↔ ∀ row ∈ t.entries,
      ¬IsLight decayedWeight minWeight nowEpochSec t row.1.reading row.1.surface := by
  constructor
  · intro h row hrow
    rw [← h] at hrow
    exact (mem_heavy.mp hrow).2
  · intro h
    have hentries : (heavy decayedWeight minWeight nowEpochSec t).entries = t.entries :=
      List.filter_eq_self.mpr (fun row hrow => decide_eq_true (h row hrow))
    refine OrderedMap.ext_of_find? (fun key => ?_)
    rw [OrderedMap.find?, OrderedMap.find?, hentries]

/-- The first part of pruning says whether it took a row. -/
theorem changed_withoutLightPairs_iff (h : NoEmptyMap t) :
    (withoutLightPairs (exactScores decayedWeight) minWeight nowEpochSec t).2 = true
      ↔ heavy decayedWeight minWeight nowEpochSec (flatten t) ≠ flatten t := by
  rw [changed_withoutLightPairs h, Ne, heavy_eq_self_iff]
  simp only [not_forall, not_not, exists_prop]
  exact exists_congr (fun row => and_congr_right' isLight_iff.symm)

/-- **Pruning within the limit.** -/
theorem prune_within {s : NestedStore} {maxRecords : ℕ} (h : maxRecords = 0
      ∨ (heavy decayedWeight minWeight nowEpochSec s.rows).size ≤ maxRecords) :
    (s.prune (exactScores decayedWeight) maxRecords minWeight nowEpochSec).table
        = (withoutLightPairs (exactScores decayedWeight) minWeight nowEpochSec s.table).1
      ∧ (s.prune (exactScores decayedWeight) maxRecords minWeight nowEpochSec).dirty
        = (s.dirty
          || (withoutLightPairs (exactScores decayedWeight) minWeight nowEpochSec s.table).2) := by
  have hfew : ¬(0 < maxRecords ∧ maxRecords < (flatten
      (withoutLightPairs (exactScores decayedWeight) minWeight nowEpochSec s.table).1).size) := by
    have hsize : maxRecords = 0
        ∨ (heavy decayedWeight minWeight nowEpochSec (flatten s.table)).size ≤ maxRecords := h
    rw [flatten_withoutLightPairs_exactScores]
    omega
  unfold NestedStore.prune pruned
  simp only [if_neg hfew, and_self]

/-- **Pruning beyond the limit.** -/
theorem prune_beyond {s : NestedStore} {maxRecords : ℕ} (hpos : 0 < maxRecords)
    (hmore : maxRecords < (heavy decayedWeight minWeight nowEpochSec s.rows).size) :
    let s' := s.prune (exactScores decayedWeight) maxRecords minWeight nowEpochSec
    s'.dirty = true ∧ s'.rows.size = maxRecords
      ∧ (∀ row ∈ s'.rows.entries,
        row ∈ (heavy decayedWeight minWeight nowEpochSec s.rows).entries)
      ∧ ∀ row ∈ (heavy decayedWeight minWeight nowEpochSec s.rows).entries,
        row ∉ s'.rows.entries → ∀ kept ∈ s'.rows.entries, Lower decayedWeight nowEpochSec row kept := by
  intro s'
  have hkept := @flatten_withoutLightPairs_exactScores R _ _ decayedWeight minWeight nowEpochSec s.table
  rw [← hkept] at hmore
  have hrows : s'.rows = _ := flatten_pruned maxRecords
  rw [if_pos ⟨hpos, hmore⟩] at hrows
  refine ⟨?_, ?_⟩
  · show (s.dirty || (pruned _ maxRecords minWeight nowEpochSec s.table).2) = true
    unfold pruned
    simp only [if_pos (And.intro hpos hmore)]
    rw [Bool.or_eq_true, decide_eq_true_iff]
    exact Or.inr (by omega)
  · rw [hrows]
    have hlimit := @limit_spec R _ _ decayedWeight nowEpochSec _ _ hmore
    rw [hkept] at hlimit ⊢
    exact hlimit

/-- Erasing some rows changes the rows. -/
theorem size_heavy_le (t : Table) :
    (heavy decayedWeight minWeight nowEpochSec t).size ≤ t.size := t.size_filter_le _

/-- **One pruning.** -/
theorem prunes_prune (decayedWeight : Record → UInt64 → R) (s : NestedStore) (maxRecords : ℕ)
    (minWeight : R) (nowEpochSec : UInt64) :
    Prunes decayedWeight maxRecords minWeight nowEpochSec s
      (s.prune (exactScores decayedWeight) maxRecords minWeight nowEpochSec) := by
  set s' := s.prune (exactScores decayedWeight) maxRecords minWeight nowEpochSec with hs'
  have hkept := @flatten_withoutLightPairs_exactScores R _ _ decayedWeight minWeight nowEpochSec s.table
  by_cases hmore : 0 < maxRecords
      ∧ maxRecords < (heavy decayedWeight minWeight nowEpochSec s.rows).size
  · obtain ⟨hdirty, hsize, hunchanged, hlowest⟩ := prune_beyond hmore.1 hmore.2
    refine ⟨fun h => absurd h (by omega), fun _ _ => hsize, hunchanged, hlowest, s'.noEmptyMap, ?_⟩
    refine iff_of_true hdirty (Or.inr (fun heq => ?_))
    have hle := @size_heavy_le R _ _ decayedWeight minWeight nowEpochSec s.rows
    have hsize' : s.rows.size = maxRecords := heq ▸ hsize
    omega
  · have hfew : maxRecords = 0
        ∨ (heavy decayedWeight minWeight nowEpochSec s.rows).size ≤ maxRecords := by omega
    obtain ⟨htable, hdirty⟩ := prune_within hfew
    have hrows : s'.rows = heavy decayedWeight minWeight nowEpochSec s.rows :=
      (congrArg flatten htable).trans hkept
    refine ⟨fun _ => hrows, fun hpos hlt => absurd ⟨hpos, hlt⟩ hmore, fun row hrow => hrows ▸ hrow,
      fun row hrow hgone => absurd (hrows ▸ hrow) hgone, s'.noEmptyMap, ?_⟩
    rw [hrows, hdirty, Bool.or_eq_true, changed_withoutLightPairs_iff s.noEmptyMap]

/-- A store within the limit and without light pairs is left as it is. -/
theorem prune_eq_self {s : NestedStore} {maxRecords : ℕ}
    (hsize : maxRecords = 0 ∨ s.rows.size ≤ maxRecords)
    (hlight : heavy decayedWeight minWeight nowEpochSec s.rows = s.rows) :
    s.prune (exactScores decayedWeight) maxRecords minWeight nowEpochSec = s := by
  obtain ⟨htable, hdirty⟩ := @prune_within R _ _ decayedWeight minWeight nowEpochSec s maxRecords
    (by rw [hlight]; exact hsize)
  have hunchanged : (withoutLightPairs (exactScores decayedWeight) minWeight nowEpochSec s.table).2
      = false := by
    rw [← Bool.not_eq_true, changed_withoutLightPairs_iff s.noEmptyMap, not_not]
    exact hlight
  refine NestedStore.ext (eq_of_flatten_eq (NestedStore.noEmptyMap _) s.noEmptyMap ?_) ?_
  · rw [htable, flatten_withoutLightPairs_exactScores]
    exact hlight
  · rw [hdirty, hunchanged, Bool.or_false]

/-- **A light pair in a pruned store was broken up by the limit.** -/
theorem breaksUp_of_isLight {s s' : NestedStore} {maxRecords : ℕ}
    (h : Prunes decayedWeight maxRecords minWeight nowEpochSec s s') {row : Key × Record}
    (hrow : row ∈ s'.rows.entries)
    (hlight : IsLight decayedWeight minWeight nowEpochSec s'.rows row.1.reading row.1.surface) :
    BreaksUp (heavy decayedWeight minWeight nowEpochSec s.rows) s'.rows row.1.reading
      row.1.surface := by
  have hpair : row.1.ofPair row.1.reading row.1.surface = true := decide_eq_true ⟨rfl, rfl⟩
  refine ⟨?_, List.ne_nil_of_mem (List.mem_filter.mpr ⟨hrow, hpair⟩)⟩
  by_contra hnone
  -- otherwise the pair has all its rows, and it was not light
  have hnotLight := (mem_heavy.mp (h.unchanged row hrow)).2
  have hsame : pairRows s'.rows row.1.reading row.1.surface
      = pairRows s.rows row.1.reading row.1.surface := by
    rw [← pairRows_heavy hnotLight]
    refine AssocList.eq_of_mem_iff (s'.rows.sorted.filter _) ((OrderedMap.sorted _).filter _) (fun r => ?_)
    constructor
    · intro hr
      obtain ⟨hr, hof⟩ := List.mem_filter.mp hr
      exact List.mem_filter.mpr ⟨h.unchanged r hr, hof⟩
    · intro hr
      by_contra hgone
      exact hnone ⟨r, hr, fun hmem =>
        hgone (List.mem_filter.mpr ⟨hmem, (List.mem_filter.mp hr).2⟩)⟩
  unfold IsLight at hlight hnotLight
  rw [hsame] at hlight
  exact hnotLight hlight

/-- **Pruning with exact scores**, and that a second pruning changes nothing unless
the limit broke up a pair whose other rows are light. -/
theorem prune_spec (decayedWeight : Record → UInt64 → R) (s : NestedStore) (maxRecords : ℕ)
    (minWeight : R) (nowEpochSec : UInt64) :
    let s' := s.prune (exactScores decayedWeight) maxRecords minWeight nowEpochSec
    Prunes decayedWeight maxRecords minWeight nowEpochSec s s'
      ∧ (s'.prune (exactScores decayedWeight) maxRecords minWeight nowEpochSec ≠ s' →
        ∃ reading surface,
          BreaksUp (heavy decayedWeight minWeight nowEpochSec s.rows) s'.rows reading surface
          ∧ IsLight decayedWeight minWeight nowEpochSec s'.rows reading surface) := by
  intro s'
  have hprunes := prunes_prune decayedWeight s maxRecords minWeight nowEpochSec
  refine ⟨hprunes, fun hchanges => ?_⟩
  have hsize : maxRecords = 0 ∨ s'.rows.size ≤ maxRecords := by
    by_cases hmore : 0 < maxRecords
        ∧ maxRecords < (heavy decayedWeight minWeight nowEpochSec s.rows).size
    · exact Or.inr (hprunes.size hmore.1 hmore.2).le
    · have hfew : maxRecords = 0
          ∨ (heavy decayedWeight minWeight nowEpochSec s.rows).size ≤ maxRecords := by omega
      exact hfew.imp id (fun hle => (congrArg OrderedMap.size (hprunes.within hfew)).le.trans hle)
  by_contra hnone
  refine hchanges (prune_eq_self hsize (heavy_eq_self_iff.mpr (fun row hrow hlight => ?_)))
  exact hnone ⟨_, _, breaksUp_of_isLight hprunes hrow hlight, hlight⟩

end Exact

/-! ## A pair that loses its rejections -/

/-- The value of a weight. -/
noncomputable def exactValue : Double → ℝ
  | .finite b => b.toRat
  | _ => 0

/-- `DecayedWeight`, exactly. -/
noncomputable def exactDecayedWeight (rec : Record) (nowEpochSec : UInt64) : ℝ :=
  let elapsedSeconds : UInt64 :=
    if rec.lastUpdatedEpochSec ≤ nowEpochSec then nowEpochSec - rec.lastUpdatedEpochSec else 0
  exactValue rec.weight * Real.exp (-(15 / 100) * (elapsedSeconds.toNat / 86400))

/-- A row that was rejected. -/
def rejectedRow : Record := { rejectCount := 5 }

/-- A row that was accepted. -/
def acceptedRow : Record :=
  { weight := .finite (.ofInt 1 Binary64.natAbs_one_lt), commitCount := 3, acceptCount := 3 }

/-- The rows of a pair in two applications. -/
def rejectedApps : Apps :=
  (OrderedMap.empty.assign (utf8 "a") rejectedRow).assign (utf8 "b") acceptedRow

/-- The table of that pair. -/
def rejectedTable : Readings :=
  OrderedMap.empty.assign (utf8 "r") (OrderedMap.empty.assign (utf8 "s") rejectedApps)

/-- It has no empty map. -/
theorem noEmptyMap_rejectedTable : NoEmptyMap rejectedTable := by
  intro reading surfaces h
  rw [rejectedTable, OrderedMap.find?_assign] at h
  split at h
  · rw [← Option.some.inj h]
    refine ⟨List.cons_ne_nil _ _, fun surface apps happs => ?_⟩
    rw [OrderedMap.find?_assign] at happs
    split at happs
    · rw [← Option.some.inj happs]
      exact List.cons_ne_nil _ _
    · cases happs
  · cases h

/-- The store of that pair. -/
def rejectedPair : NestedStore := ⟨rejectedTable, noEmptyMap_rejectedTable, false⟩

/-- Its rows. -/
theorem entries_rejectedPair : rejectedPair.rows.entries
    = [(⟨utf8 "r", utf8 "s", utf8 "a"⟩, rejectedRow), (⟨utf8 "r", utf8 "s", utf8 "b"⟩, acceptedRow)] :=
  rfl

/-- A row that was never accepted weighs nothing. -/
theorem exactDecayedWeight_rejectedRow : exactDecayedWeight rejectedRow 0 = 0 := by
  have hzero : exactValue rejectedRow.weight = 0 := by
    show (((Binary64.zero false).toRat : ℚ) : ℝ) = 0
    simp [Binary64.zero, Binary64.toRat]
  unfold exactDecayedWeight
  rw [hzero, zero_mul]

/-- A row of this moment has its weight. -/
theorem exactDecayedWeight_acceptedRow : exactDecayedWeight acceptedRow 0 = 1 := by
  have hone : exactValue acceptedRow.weight = 1 := by
    show (((Binary64.ofInt 1 Binary64.natAbs_one_lt).toRat : ℚ) : ℝ) = 1
    rw [Binary64.toRat_ofInt]
    norm_num
  have hnow : (if acceptedRow.lastUpdatedEpochSec ≤ 0 then 0 - acceptedRow.lastUpdatedEpochSec
      else 0 : UInt64).toNat = 0 := by decide
  unfold exactDecayedWeight
  dsimp only
  rw [hone, hnow]
  simp

/-- The rejections keep the pair. -/
theorem heavy_rejectedPair :
    heavy exactDecayedWeight 2 0 rejectedPair.rows = rejectedPair.rows := by
  refine heavy_eq_self_iff.mpr (fun row hrow hlight => ?_)
  have hpair : row.1.reading = utf8 "r" ∧ row.1.surface = utf8 "s" := by
    rw [entries_rejectedPair] at hrow
    rcases List.mem_cons.mp hrow with rfl | hrow
    · exact ⟨rfl, rfl⟩
    · rw [List.mem_singleton.mp hrow]
      exact ⟨rfl, rfl⟩
  have hnet : hasNetRejection (pairRows rejectedPair.rows (utf8 "r") (utf8 "s")) = true := by decide
  rw [hpair.1, hpair.2] at hlight
  rw [hlight.2.2] at hnet
  cases hnet

/-- The limit takes the row with the rejections. -/
theorem entries_prune_rejectedPair :
    (rejectedPair.prune (exactScores exactDecayedWeight) 1 2 0).rows.entries
      = [(⟨utf8 "r", utf8 "s", utf8 "b"⟩, acceptedRow)] := by
  have hprunes := prunes_prune exactDecayedWeight rejectedPair 1 2 0
  obtain ⟨-, hsize, hunchanged, hlowest, -, -⟩ := hprunes
  rw [heavy_rejectedPair] at hsize hunchanged hlowest
  have hone := hsize one_pos (by decide)
  obtain ⟨row, hrow⟩ := List.length_eq_one_iff.mp hone
  rw [hrow] at hunchanged hlowest ⊢
  rw [entries_rejectedPair] at hunchanged hlowest
  have hmem := hunchanged row (List.mem_singleton_self row)
  rcases List.mem_cons.mp hmem with rfl | hmem
  · -- the other row would be lower
    have hlower := hlowest (⟨utf8 "r", utf8 "s", utf8 "b"⟩, acceptedRow) (by simp)
      (by simp [rejectedRow, acceptedRow]) _ (List.mem_singleton_self _)
    rw [Lower, exactDecayedWeight_rejectedRow, exactDecayedWeight_acceptedRow] at hlower
    norm_num at hlower
  · rw [List.mem_singleton.mp hmem]

/-- **The sum need not have fallen**: it was below the threshold before, and the
rejections that kept the pair are gone. -/
theorem prune_rejectedPair :
    (rejectedPair.prune (exactScores exactDecayedWeight) 1 2 0).prune
          (exactScores exactDecayedWeight) 1 2 0
        ≠ rejectedPair.prune (exactScores exactDecayedWeight) 1 2 0
      ∧ ¬∃ reading surface,
        BreaksUp (heavy exactDecayedWeight 2 0 rejectedPair.rows)
            (rejectedPair.prune (exactScores exactDecayedWeight) 1 2 0).rows reading surface
          ∧ 2 ≤ pairWeight exactDecayedWeight
              (pairRows (heavy exactDecayedWeight 2 0 rejectedPair.rows) reading surface) 0
          ∧ pairWeight exactDecayedWeight
              (pairRows (rejectedPair.prune (exactScores exactDecayedWeight) 1 2 0).rows reading
                surface) 0 < 2 := by
  have hentries := entries_prune_rejectedPair
  set s' := rejectedPair.prune (exactScores exactDecayedWeight) 1 2 0 with hs'
  constructor
  · intro hsame
    -- the row that is left is of a light pair
    have hstays := (prunes_prune exactDecayedWeight s' 1 2 0).unchanged
      (⟨utf8 "r", utf8 "s", utf8 "b"⟩, acceptedRow)
      (by rw [hsame, hentries]; exact List.mem_singleton_self _)
    refine (mem_heavy.mp hstays).2 ?_
    have hrows : pairRows s'.rows (utf8 "r") (utf8 "s")
        = [(⟨utf8 "r", utf8 "s", utf8 "b"⟩, acceptedRow)] := by
      rw [pairRows, hentries]
      decide
    unfold IsLight
    rw [hrows]
    refine ⟨by norm_num, ?_, by decide⟩
    simp only [pairWeight, List.map_cons, List.map_nil, List.sum_cons, List.sum_nil,
      exactDecayedWeight_acceptedRow]
    norm_num
  · rintro ⟨reading, surface, -, hbefore, -⟩
    rw [heavy_rejectedPair, pairRows, entries_rejectedPair] at hbefore
    have hsum : pairWeight exactDecayedWeight
        (List.filter (fun e => e.1.ofPair reading surface)
          [(⟨utf8 "r", utf8 "s", utf8 "a"⟩, rejectedRow),
            (⟨utf8 "r", utf8 "s", utf8 "b"⟩, acceptedRow)]) 0 ≤ 1 := by
      by_cases hpair : utf8 "r" = reading ∧ utf8 "s" = surface
      · simp [pairWeight, Key.ofPair, hpair.1, hpair.2, exactDecayedWeight_rejectedRow,
          exactDecayedWeight_acceptedRow]
      · simp [pairWeight, Key.ofPair, hpair]
    linarith

/-! ## With the numbers of the machine -/

/-- The scores of the machine. -/
def doubleScores (exp : Double → Double) : Scores Double where
  decayedWeight := LearningStore.decayedWeight exp
  zero := LearningStore.zero
  add := Double.add
  lt := Double.ieeeLt
  eq := Double.ieeeEq

/-- The keys of the rows are ranked alike. -/
theorem map_key_ranked_doubleScores (exp : Double → Double) (t : Readings)
    (nowEpochSec : UInt64) (n : ℕ) :
    ((ranked (doubleScores exp) t nowEpochSec).take n).map RankedRecord.key
      = ((LearningStore.ranked exp (flatten t) nowEpochSec).take n).map
          LearningStore.RankedRecord.key := by
  have hmap : (LearningStore.ranked exp (flatten t) nowEpochSec).map
      (fun r => (⟨r.key, r.serializedKey, r.score⟩ : RankedRecord Double))
        = ranked (doubleScores exp) t nowEpochSec := by
    unfold LearningStore.ranked ranked
    rw [List.map_insertionSort _ (fun lhs rhs => ¬before (doubleScores exp) rhs lhs = true)]
    · rw [List.map_map]
      rfl
    · exact fun a _ b _ => Iff.rfl
  rw [← hmap, ← List.map_take, List.map_map]
  rfl

/-- The first part of pruning took a row when there are fewer. -/
theorem changed_withoutLightPairs_eq {R : Type} {σ : Scores R} {minWeight : R}
    {nowEpochSec : UInt64} {t : Readings} (h : NoEmptyMap t) :
    (withoutLightPairs σ minWeight nowEpochSec t).2
      = decide ((flatten (withoutLightPairs σ minWeight nowEpochSec t).1).size
          ≠ (flatten t).size) := by
  rw [Bool.eq_iff_iff, decide_eq_true_iff, changed_withoutLightPairs h, flatten_withoutLightPairs]
  split
  · rename_i hlt
    rw [OrderedMap.size, OrderedMap.size, OrderedMap.filter, Ne, List.length_filter_eq_length_iff]
    simp [hlt]
  · rename_i hlt
    refine iff_of_false ?_ (fun h => h rfl)
    rintro ⟨_, _, h, _⟩
    exact hlt h

/-- **The loops do to the rows what `Store.prune` says.** -/
theorem flatten_prune (exp : Double → Double) {s : NestedStore} {f : Store}
    (htable : f.table = s.rows) (hdirty : f.dirty = s.dirty) (maxRecords : ℕ) (minWeight : Double)
    (nowEpochSec : UInt64) :
    (f.prune exp maxRecords minWeight nowEpochSec).table
        = (s.prune (doubleScores exp) maxRecords minWeight nowEpochSec).rows
      ∧ (f.prune exp maxRecords minWeight nowEpochSec).dirty
        = (s.prune (doubleScores exp) maxRecords minWeight nowEpochSec).dirty := by
  have hkept : LearningStore.withoutLightPairs exp f.table minWeight nowEpochSec
      = flatten (withoutLightPairs (doubleScores exp) minWeight nowEpochSec s.table).1 := by
    rw [htable, flatten_withoutLightPairs]
    rfl
  have hchanged := @changed_withoutLightPairs_eq _ (doubleScores exp) minWeight nowEpochSec _ s.noEmptyMap
  have hrows := @flatten_pruned _ (doubleScores exp) minWeight nowEpochSec s.table maxRecords
  show _ = flatten (pruned _ _ _ _ _).1 ∧ _ = (s.dirty || (pruned _ _ _ _ _).2)
  rw [hrows]
  unfold Store.prune pruned
  dsimp only
  rw [hkept]
  split
  · rw [map_key_ranked_doubleScores]
    refine ⟨rfl, ?_⟩
    rw [eq_comm, Bool.or_eq_true, decide_eq_true_iff]
    exact Or.inr (by omega)
  · rw [hchanged, hdirty, htable]
    exact ⟨rfl, rfl⟩

end AzooKey.Learning.LearningStore.Nested

import Mathlib

/-!
# Ordered maps

An ordered map keeps its entries in a list of strictly increasing keys, as a
balanced tree does when it is read in order. The operations are those of
`std::map`: `find?`, `emplace` (keeps an entry that is already there),
`assign` (replaces it), `erase`, and the two searches `lowerBound` and
`upperBound` for the first entry at, or strictly after, a key.

The list operations come first, on plain association lists, because a map
whose values are trees over the map itself cannot carry a proof of its order
as a field. `OrderedMap` bundles the two.
-/

variable {K V : Type*} [LinearOrder K]

namespace AssocList

/-- The keys of the list increase strictly. -/
def Sorted (l : List (K × V)) : Prop := l.Pairwise (fun a b => a.1 < b.1)

/-- Put `v` at `k`: `onHit` decides what an entry already at `k` becomes. -/
def insertWith (onHit : V → V) (k : K) (v : V) : List (K × V) → List (K × V)
  | [] => [(k, v)]
  | e :: l =>
    if k < e.1 then (k, v) :: e :: l
    else if k = e.1 then (e.1, onHit e.2) :: l
    else e :: insertWith onHit k v l

/-- `std::map::emplace`: an entry already at `k` stays. -/
def emplace (k : K) (v : V) (l : List (K × V)) : List (K × V) := insertWith id k v l

/-- `map[k] = v`: an entry already at `k` is replaced. -/
def assign (k : K) (v : V) (l : List (K × V)) : List (K × V) :=
  insertWith (fun _ => v) k v l

/-- The value at `k`. -/
def find? : List (K × V) → K → Option V
  | [], _ => none
  | e :: l, k => if k = e.1 then some e.2 else find? l k

/-- The first entry whose key lies strictly after `k`. -/
def upperBound (l : List (K × V)) (k : K) : Option (K × V) :=
  l.find? (fun e => k < e.1)

/-- The first entry whose key is not before `k`. -/
def lowerBound (l : List (K × V)) (k : K) : Option (K × V) :=
  l.find? (fun e => ¬ e.1 < k)

/-- The list without its entry at `k`. -/
def erase (k : K) (l : List (K × V)) : List (K × V) := l.filter (fun e => e.1 ≠ k)

/-- What an insertion can put in the list. -/
theorem mem_insertWith {onHit : V → V} {k : K} {v : V} {l : List (K × V)} {e : K × V}
    (h : e ∈ insertWith onHit k v l) :
    e = (k, v) ∨ e ∈ l ∨ ∃ w, (k, w) ∈ l ∧ e = (k, onHit w) := by
  induction l with
  | nil => exact Or.inl (List.mem_singleton.mp h)
  | cons d l ih =>
    unfold insertWith at h
    split at h
    · exact (List.mem_cons.mp h).imp id Or.inl
    · split at h
      · rename_i hk
        rcases List.mem_cons.mp h with rfl | h
        · exact Or.inr (Or.inr ⟨d.2, by rw [hk]; exact List.mem_cons_self, by rw [hk]⟩)
        · exact Or.inr (Or.inl (List.mem_cons_of_mem _ h))
      · rcases List.mem_cons.mp h with rfl | h
        · exact Or.inr (Or.inl List.mem_cons_self)
        · rcases ih h with h | h | ⟨w, hw, rfl⟩
          · exact Or.inl h
          · exact Or.inr (Or.inl (List.mem_cons_of_mem _ h))
          · exact Or.inr (Or.inr ⟨w, List.mem_cons_of_mem _ hw, rfl⟩)

/-- Insertion keeps the keys increasing. -/
theorem Sorted.insertWith {onHit : V → V} {k : K} {v : V} {l : List (K × V)}
    (h : Sorted l) : Sorted (insertWith onHit k v l) := by
  induction l with
  | nil => exact List.pairwise_singleton _ _
  | cons d l ih =>
    have hd := List.pairwise_cons.mp h
    unfold AssocList.insertWith
    split
    · rename_i hlt
      refine List.pairwise_cons.mpr ⟨fun e he => ?_, h⟩
      rcases List.mem_cons.mp he with rfl | he
      · exact hlt
      · exact hlt.trans (hd.1 e he)
    · split
      · exact List.pairwise_cons.mpr ⟨fun e he => hd.1 e he, hd.2⟩
      · rename_i hnlt hne
        have hlt : d.1 < k := lt_of_le_of_ne (not_lt.mp hnlt) (Ne.symm hne)
        refine List.pairwise_cons.mpr ⟨fun e he => ?_, ih hd.2⟩
        rcases mem_insertWith he with rfl | he | ⟨w, -, rfl⟩
        · exact hlt
        · exact hd.1 e he
        · exact hlt

/-- Erasing keeps the keys increasing. -/
theorem Sorted.erase {k : K} {l : List (K × V)} (h : Sorted l) : Sorted (erase k l) :=
  List.Pairwise.filter _ h

/-- What is found is an entry. -/
theorem mem_of_find?_eq_some {l : List (K × V)} {k : K} {v : V}
    (h : find? l k = some v) : (k, v) ∈ l := by
  induction l with
  | nil => exact absurd h (by simp [find?])
  | cons d l ih =>
    unfold find? at h
    split at h
    · rename_i hk
      rw [hk, ← Option.some.inj h]
      exact List.mem_cons_self
    · exact List.mem_cons_of_mem _ (ih h)

/-- In a sorted list every entry is found under its key. -/
theorem find?_eq_some_iff {l : List (K × V)} (hl : Sorted l) {k : K} {v : V} :
    find? l k = some v ↔ (k, v) ∈ l := by
  refine ⟨mem_of_find?_eq_some, fun h => ?_⟩
  induction l with
  | nil => exact absurd h List.not_mem_nil
  | cons d l ih =>
    have hd := List.pairwise_cons.mp hl
    unfold find?
    rcases List.mem_cons.mp h with rfl | h
    · rw [if_pos rfl]
    · rw [if_neg (hd.1 _ h).ne']
      exact ih hd.2 h

/-- A key that no entry carries is not found. -/
theorem find?_eq_none_iff {l : List (K × V)} (hl : Sorted l) {k : K} :
    find? l k = none ↔ ∀ v, (k, v) ∉ l := by
  rw [Option.eq_none_iff_forall_ne_some]
  exact forall_congr' (fun v => not_congr (find?_eq_some_iff hl))

/-- **What is found after an insertion.** -/
theorem find?_insertWith {onHit : V → V} {k : K} {v : V} {l : List (K × V)} (hl : Sorted l)
    (k' : K) : find? (insertWith onHit k v l) k'
      = if k' = k then some (((find? l k).map onHit).getD v) else find? l k' := by
  induction l with
  | nil => simp [insertWith, find?]
  | cons d l ih =>
    have hd := List.pairwise_cons.mp hl
    unfold insertWith
    split
    · rename_i hlt
      have hnone : find? (d :: l) k = none := by
        refine (find?_eq_none_iff hl).mpr (fun w hw => ?_)
        rcases List.mem_cons.mp hw with h | h
        · exact absurd hlt (by rw [← h]; exact lt_irrefl k)
        · exact absurd (hlt.trans (hd.1 _ h)) (lt_irrefl k)
      rw [hnone, find?]
      rfl
    · split
      · rename_i hk
        rw [find?, find?, find?, if_pos hk, hk]
        split <;> rfl
      · rename_i hne
        rw [find?, find?, find?, if_neg hne, ih hd.2]
        by_cases hk' : k' = d.1
        · rw [if_pos hk', if_pos hk', if_neg (fun h => hne (h.symm.trans hk'))]
        · rw [if_neg hk', if_neg hk']

/-- A key after all others goes to the end. -/
theorem insertWith_of_lt {onHit : V → V} {k : K} {v : V} {l : List (K × V)}
    (h : ∀ e ∈ l, e.1 < k) : insertWith onHit k v l = l ++ [(k, v)] := by
  induction l with
  | nil => rfl
  | cons d l ih =>
    have hlt := h d List.mem_cons_self
    rw [insertWith, if_neg hlt.asymm, if_neg hlt.ne', ih (fun e he => h e (List.mem_cons_of_mem _ he)),
      List.cons_append]

/-- **What `upperBound` finds is the least key after `k`.** -/
theorem upperBound_eq_some {l : List (K × V)} (hl : Sorted l) {k : K} {e : K × V}
    (h : upperBound l k = some e) : e ∈ l ∧ k < e.1 ∧ ∀ d ∈ l, k < d.1 → e.1 ≤ d.1 := by
  have hmem := List.mem_of_find?_eq_some h
  have hlt : k < e.1 := by simpa using List.find?_some h
  refine ⟨hmem, hlt, fun d hd hkd => ?_⟩
  obtain ⟨-, as, bs, rfl, has⟩ := List.find?_eq_some_iff_append.mp h
  rcases List.mem_append.mp hd with hd | hd
  · exact absurd hkd (by simpa using has d hd)
  · rcases List.mem_cons.mp hd with rfl | hd
    · exact le_rfl
    · exact ((List.pairwise_cons.mp (List.pairwise_append.mp hl).2.1).1 d hd).le

/-- Sorted lists with the same entries are equal. -/
theorem eq_of_mem_iff {l l' : List (K × V)} (hl : Sorted l) (hl' : Sorted l')
    (h : ∀ e, e ∈ l ↔ e ∈ l') : l = l' := by
  have hnodup : ∀ {l : List (K × V)}, Sorted l → l.Nodup :=
    fun hl => hl.imp (fun hab heq => hab.ne (congrArg Prod.fst heq))
  have hperm : l.Perm l' := (List.perm_ext_iff_of_nodup (hnodup hl) (hnodup hl')).mpr h
  exact hperm.eq_of_pairwise (fun a b _ _ hab hba => absurd hba hab.asymm) hl hl'

end AssocList

/-- **An ordered map**: an association list in key order. -/
structure OrderedMap (K V : Type*) [LinearOrder K] where
  /-- The entries, in key order. -/
  entries : List (K × V)
  /-- The keys increase strictly. -/
  sorted : AssocList.Sorted entries

namespace OrderedMap

/-- The map with no entry. -/
def empty : OrderedMap K V := ⟨[], List.Pairwise.nil⟩

/-- The value at a key. -/
def find? (m : OrderedMap K V) (k : K) : Option V := AssocList.find? m.entries k

/-- `map[k] = v`. -/
def assign (m : OrderedMap K V) (k : K) (v : V) : OrderedMap K V :=
  ⟨AssocList.assign k v m.entries, m.sorted.insertWith⟩

/-- The map without its entry at a key. -/
def erase (m : OrderedMap K V) (k : K) : OrderedMap K V :=
  ⟨AssocList.erase k m.entries, m.sorted.erase⟩

/-- The first entry strictly after a key. -/
def upperBound (m : OrderedMap K V) (k : K) : Option (K × V) :=
  AssocList.upperBound m.entries k

/-- The first entry not before a key. -/
def lowerBound (m : OrderedMap K V) (k : K) : Option (K × V) :=
  AssocList.lowerBound m.entries k

/-- The map holds exactly the entries it finds. -/
theorem find?_eq_some_iff (m : OrderedMap K V) {k : K} {v : V} :
    m.find? k = some v ↔ (k, v) ∈ m.entries :=
  AssocList.find?_eq_some_iff m.sorted

/-- **Two maps that find the same are equal.** -/
theorem ext_of_find? {m m' : OrderedMap K V} (h : ∀ k, m.find? k = m'.find? k) : m = m' := by
  obtain ⟨l, hl⟩ := m
  obtain ⟨l', hl'⟩ := m'
  have hmem : ∀ e, e ∈ l ↔ e ∈ l' := by
    rintro ⟨k, v⟩
    rw [← AssocList.find?_eq_some_iff hl, ← AssocList.find?_eq_some_iff hl']
    exact iff_of_eq (congrArg (· = some v) (h k))
  have heq : l = l' := AssocList.eq_of_mem_iff hl hl' hmem
  subst heq
  rfl

/-- Nothing is found in the empty map. -/
@[simp] theorem find?_empty (k : K) : (empty : OrderedMap K V).find? k = none := rfl

/-- What is found after an assignment. -/
theorem find?_assign (m : OrderedMap K V) (k : K) (v : V) (k' : K) :
    (m.assign k v).find? k' = if k' = k then some v else m.find? k' := by
  show AssocList.find? (AssocList.insertWith _ k v m.entries) k' = _
  rw [AssocList.find?_insertWith m.sorted]
  split
  · cases AssocList.find? m.entries k <;> rfl
  · rfl

/-- The entries that satisfy a condition. -/
def filter (m : OrderedMap K V) (p : K → V → Bool) : OrderedMap K V :=
  ⟨m.entries.filter (fun e => p e.1 e.2), List.Pairwise.filter _ m.sorted⟩

/-- **What is found of the entries that satisfy a condition.** -/
theorem find?_filter (m : OrderedMap K V) (p : K → V → Bool) (k : K) :
    (m.filter p).find? k = (m.find? k).filter (p k) := by
  refine Option.ext (fun v => ?_)
  rw [find?_eq_some_iff, Option.filter_eq_some_iff, find?_eq_some_iff]
  exact List.mem_filter

/-- What is found after an entry is erased. -/
theorem find?_erase (m : OrderedMap K V) (k k' : K) :
    (m.erase k).find? k' = if k' = k then none else m.find? k' := by
  refine Option.ext (fun v => ?_)
  rw [find?_eq_some_iff]
  show (k', v) ∈ List.filter _ m.entries ↔ _
  rw [List.mem_filter]
  split
  · rename_i hk
    simp [hk]
  · rename_i hk
    simp only [find?_eq_some_iff, ne_eq, decide_eq_true_eq, hk, not_false_eq_true, and_true]

/-- What is found after some keys are erased. -/
theorem find?_foldl_erase (m : OrderedMap K V) (keys : List K) (key : K) :
    (keys.foldl erase m).find? key = if key ∈ keys then none else m.find? key := by
  induction keys generalizing m with
  | nil => rw [List.foldl_nil, if_neg List.not_mem_nil]
  | cons k keys ih =>
    rw [List.foldl_cons, ih, find?_erase]
    by_cases hkeys : key ∈ keys
    · rw [if_pos hkeys, if_pos (List.mem_cons_of_mem _ hkeys)]
    · rw [if_neg hkeys]
      by_cases hk : key = k
      · rw [if_pos hk, if_pos (hk ▸ List.mem_cons_self)]
      · rw [if_neg hk, if_neg (fun h => (List.mem_cons.mp h).elim hk hkeys)]

/-- `map.emplace(k, v)`: an entry that is already there stays. -/
def emplace (m : OrderedMap K V) (k : K) (v : V) : OrderedMap K V :=
  ⟨AssocList.emplace k v m.entries, m.sorted.insertWith⟩

/-- What is found after an insertion that gives way. -/
theorem find?_emplace (m : OrderedMap K V) (k : K) (v : V) (k' : K) :
    (m.emplace k v).find? k' = if k' = k then some ((m.find? k).getD v) else m.find? k' := by
  show AssocList.find? (AssocList.insertWith id k v m.entries) k' = _
  rw [AssocList.find?_insertWith m.sorted, Option.map_id]
  rfl

/-- The same keys with other values. -/
def mapValues (m : OrderedMap K V) (f : K → V → V) : OrderedMap K V :=
  ⟨m.entries.map (fun e => (e.1, f e.1 e.2)), List.pairwise_map.mpr (m.sorted.imp (fun h => h))⟩

/-- What is found among other values. -/
theorem find?_mapValues (m : OrderedMap K V) (f : K → V → V) (k : K) :
    (m.mapValues f).find? k = (m.find? k).map (f k) := by
  refine Option.ext (fun v => ?_)
  rw [find?_eq_some_iff, Option.map_eq_some_iff]
  constructor
  · intro h
    obtain ⟨⟨j, w⟩, hmem, heq⟩ := List.mem_map.mp h
    obtain ⟨rfl, rfl⟩ := Prod.mk.inj heq
    exact ⟨w, m.find?_eq_some_iff.mpr hmem, rfl⟩
  · rintro ⟨w, hw, rfl⟩
    exact List.mem_map.mpr ⟨(k, w), m.find?_eq_some_iff.mp hw, rfl⟩

/-! ## Maps of good entries -/

/-- **Every entry is good.** -/
def Holds (P : K → V → Prop) (m : OrderedMap K V) : Prop := ∀ k v, m.find? k = some v → P k v

section Holds

variable {P : K → V → Prop} {m : OrderedMap K V}

/-- The empty map has no bad entry. -/
theorem holds_empty : Holds P (empty : OrderedMap K V) := fun _ _ h => by cases h

/-- A good entry may come in. -/
theorem Holds.assign (h : Holds P m) {k : K} {v : V} (hv : P k v) : Holds P (m.assign k v) := by
  intro k' v' hfound
  rw [find?_assign] at hfound
  split at hfound
  · rename_i hk
    rw [hk, ← Option.some.inj hfound]
    exact hv
  · exact h k' v' hfound

/-- A good entry may come in where there is none. -/
theorem Holds.emplace (h : Holds P m) {k : K} {v : V} (hv : P k v) : Holds P (m.emplace k v) := by
  intro k' v' hfound
  rw [find?_emplace] at hfound
  split at hfound
  · rename_i hk
    rw [hk, ← Option.some.inj hfound]
    cases hold : m.find? k with
    | none => exact hv
    | some w => exact h k w hold
  · exact h k' v' hfound

/-- Entries may go. -/
theorem Holds.filter (h : Holds P m) (p : K → V → Bool) : Holds P (m.filter p) := by
  intro k v hfound
  rw [find?_filter] at hfound
  exact h k v (Option.filter_eq_some_iff.mp hfound).1

/-- An entry may go. -/
theorem Holds.erase (h : Holds P m) (k : K) : Holds P (m.erase k) := by
  intro k' v hfound
  rw [find?_erase] at hfound
  split at hfound
  · cases hfound
  · exact h k' v hfound

/-- Good values may be replaced by good values. -/
theorem Holds.mapValues (h : Holds P m) {f : K → V → V} (hf : ∀ k v, P k v → P k (f k v)) :
    Holds P (m.mapValues f) := by
  intro k v hfound
  rw [find?_mapValues] at hfound
  obtain ⟨w, hw, rfl⟩ := Option.map_eq_some_iff.mp hfound
  exact hf k w (h k w hw)

end Holds

/-- What is found in a map that entries of `m` were inserted into. -/
theorem find?_foldl_emplace (m : OrderedMap K V) {l : List (K × V)} (hl : ∀ e ∈ l, e ∈ m.entries)
    {acc : OrderedMap K V} (hacc : ∀ k v, acc.find? k = some v → m.find? k = some v) (k : K) (v : V) :
    (l.foldl (fun acc e => acc.emplace e.1 e.2) acc).find? k = some v
      ↔ acc.find? k = some v ∨ (k, v) ∈ l := by
  induction l generalizing acc with
  | nil => simp
  | cons e l ih =>
    obtain ⟨k₀, v₀⟩ := e
    have he : m.find? k₀ = some v₀ := m.find?_eq_some_iff.mpr (hl _ List.mem_cons_self)
    -- whatever the map already holds at the key is the entry itself
    have hgetD : (acc.find? k₀).getD v₀ = v₀ := by
      cases hold : acc.find? k₀ with
      | none => rfl
      | some w => exact Option.some.inj ((hacc _ _ hold).symm.trans he)
    have hfound : ∀ k', (acc.emplace k₀ v₀).find? k' = if k' = k₀ then some v₀ else acc.find? k' :=
      fun k' => by rw [find?_emplace, hgetD]
    rw [List.foldl_cons, ih (fun d hd => hl d (List.mem_cons_of_mem _ hd)), hfound, List.mem_cons,
      Prod.mk.injEq, ← or_assoc]
    · refine or_congr_left ?_
      by_cases hk : k = k₀
      · subst hk
        rw [if_pos rfl, Option.some.injEq]
        constructor
        · rintro rfl
          exact Or.inr ⟨rfl, rfl⟩
        · rintro (hold | ⟨-, rfl⟩)
          · exact Option.some.inj (he.symm.trans (hacc _ _ hold))
          · rfl
      · rw [if_neg hk]
        exact ⟨Or.inl, fun h => h.resolve_right (fun h => hk h.1)⟩
    · intro k' v' h
      rw [hfound] at h
      split at h
      · rename_i hk
        rw [hk, he]
        exact h
      · exact hacc k' v' h

/-- **A map is built by its own entries**, in whatever order they come. -/
theorem foldl_emplace_of_perm (m : OrderedMap K V) {l : List (K × V)} (hl : l.Perm m.entries) :
    l.foldl (fun acc e => acc.emplace e.1 e.2) empty = m := by
  refine ext_of_find? (fun k => Option.ext (fun v => ?_))
  rw [m.find?_foldl_emplace (fun e he => hl.mem_iff.mp he) (fun k v h => by cases h),
    m.find?_eq_some_iff, hl.mem_iff, find?_empty]
  exact ⟨fun h => h.resolve_left (fun h => by cases h), Or.inr⟩

/-! ## Keys -/

/-- The keys of a map. -/
def keys (m : OrderedMap K V) : Finset K := (m.entries.map Prod.fst).toFinset

/-- The keys are what is found. -/
theorem mem_keys {m : OrderedMap K V} {k : K} : k ∈ m.keys ↔ ∃ v, m.find? k = some v := by
  simp only [keys, List.mem_toFinset, List.mem_map, Prod.exists, exists_and_right, exists_eq_right,
    find?_eq_some_iff]

/-- An assignment adds its key. -/
theorem keys_assign (m : OrderedMap K V) (k : K) (v : V) :
    (m.assign k v).keys = insert k m.keys := by
  ext k'
  rw [Finset.mem_insert, mem_keys, mem_keys, find?_assign]
  by_cases hk : k' = k
  · simp [hk]
  · simp [hk]

/-- Erasing takes its key away. -/
theorem keys_erase (m : OrderedMap K V) (k : K) : (m.erase k).keys = m.keys.erase k := by
  ext k'
  rw [Finset.mem_erase, mem_keys, mem_keys, find?_erase]
  by_cases hk : k' = k
  · simp [hk]
  · simp [hk]

/-- Other values have the same keys. -/
theorem keys_mapValues (m : OrderedMap K V) (f : K → V → V) : (m.mapValues f).keys = m.keys := by
  ext k
  rw [mem_keys, mem_keys, find?_mapValues]
  simp

/-- The sum of a measure of the values. -/
def total (m : OrderedMap K V) (f : V → ℕ) : ℕ := (m.entries.map (fun e => f e.2)).sum

/-- The number of entries. -/
def size (m : OrderedMap K V) : ℕ := m.entries.length

/-- No key occurs twice. -/
theorem size_eq_card_keys (m : OrderedMap K V) : m.size = m.keys.card := by
  have hnodup : (m.entries.map Prod.fst).Nodup :=
    List.pairwise_map.mpr (m.sorted.imp (fun h => h.ne))
  rw [keys, List.toFinset_card_of_nodup hnodup, List.length_map]
  rfl

/-- **Erasing several keys of a map makes it so much smaller.** -/
theorem size_foldl_erase (m : OrderedMap K V) {l : List K} (hl : l.Nodup) (hmem : ∀ k ∈ l, k ∈ m.keys) :
    (l.foldl erase m).size + l.length = m.size := by
  induction l generalizing m with
  | nil => rfl
  | cons k l ih =>
    have hd := List.nodup_cons.mp hl
    have hrest : ∀ j ∈ l, j ∈ (m.erase k).keys := by
      intro j hj
      rw [keys_erase, Finset.mem_erase]
      exact ⟨fun h => hd.1 (h ▸ hj), hmem j (List.mem_cons_of_mem _ hj)⟩
    have hone : (m.erase k).size + 1 = m.size := by
      rw [size_eq_card_keys, size_eq_card_keys, keys_erase]
      exact Finset.card_erase_add_one (hmem k List.mem_cons_self)
    rw [List.foldl_cons, List.length_cons, ← hone, ← ih (m.erase k) hd.2 hrest]
    omega

/-- The number of entries is a sum. -/
theorem size_eq_total (m : OrderedMap K V) : m.size = m.total (fun _ => 1) := by
  rw [size, total, List.map_const', List.sum_replicate, smul_eq_mul, mul_one]

/-- **An assignment replaces what was found by the new value.** -/
theorem total_assign (m : OrderedMap K V) (f : V → ℕ) (k : K) (v : V) :
    (m.assign k v).total f + (m.find? k).elim 0 f = m.total f + f v := by
  have hlist : ∀ l : List (K × V), AssocList.Sorted l →
      ((AssocList.assign k v l).map (fun e => f e.2)).sum + (AssocList.find? l k).elim 0 f
        = (l.map (fun e => f e.2)).sum + f v := by
    intro l hl
    induction l with
    | nil => simp [AssocList.assign, AssocList.insertWith, AssocList.find?]
    | cons e l ih =>
      have hd := List.pairwise_cons.mp hl
      have htail := ih hd.2
      unfold AssocList.assign AssocList.insertWith
      split_ifs with hlt heq
      · have hnone : AssocList.find? (e :: l) k = none := by
          refine (AssocList.find?_eq_none_iff hl).mpr (fun w hw => ?_)
          rcases List.mem_cons.mp hw with h | h
          · exact absurd hlt (by rw [← h]; exact lt_irrefl k)
          · exact absurd (hlt.trans (hd.1 _ h)) (lt_irrefl k)
        rw [hnone]
        simp only [List.map_cons, List.sum_cons, Option.elim_none]
        omega
      · rw [AssocList.find?, if_pos heq]
        simp only [List.map_cons, List.sum_cons, Option.elim_some]
        omega
      · unfold AssocList.assign at htail
        rw [AssocList.find?, if_neg heq]
        simp only [List.map_cons, List.sum_cons]
        omega
  exact hlist m.entries m.sorted

/-- **Erasing takes away what was found.** -/
theorem total_erase (m : OrderedMap K V) (f : V → ℕ) (k : K) :
    (m.erase k).total f + (m.find? k).elim 0 f = m.total f := by
  have hlist : ∀ l : List (K × V), AssocList.Sorted l →
      ((AssocList.erase k l).map (fun e => f e.2)).sum + (AssocList.find? l k).elim 0 f
        = (l.map (fun e => f e.2)).sum := by
    intro l hl
    induction l with
    | nil => rfl
    | cons e l ih =>
      have hd := List.pairwise_cons.mp hl
      have htail := ih hd.2
      unfold AssocList.erase at htail ⊢
      rw [AssocList.find?]
      by_cases heq : k = e.1
      · have hnone : AssocList.find? l k = none := by
          refine (AssocList.find?_eq_none_iff hd.2).mpr (fun w hw => ?_)
          exact absurd (hd.1 _ hw) (by rw [heq]; exact lt_irrefl _)
        rw [hnone, Option.elim_none] at htail
        rw [if_pos heq, List.filter_cons_of_neg (by simp [heq])]
        simp only [List.map_cons, List.sum_cons, Option.elim_some]
        omega
      · rw [if_neg heq, List.filter_cons_of_pos (by simpa using Ne.symm heq)]
        simp only [List.map_cons, List.sum_cons]
        omega
  exact hlist m.entries m.sorted

/-- Entries without a measure can go. -/
theorem total_filter (m : OrderedMap K V) (f : V → ℕ) {p : K → V → Bool}
    (h : ∀ k v, m.find? k = some v → p k v = false → f v = 0) :
    (m.filter p).total f = m.total f := by
  have hlist : ∀ l : List (K × V), (∀ e ∈ l, p e.1 e.2 = false → f e.2 = 0) →
      ((l.filter (fun e => p e.1 e.2)).map (fun e => f e.2)).sum = (l.map (fun e => f e.2)).sum := by
    intro l hl
    induction l with
    | nil => rfl
    | cons e l ih =>
      have htail := ih (fun d hd => hl d (List.mem_cons_of_mem _ hd))
      cases hp : p e.1 e.2 with
      | true =>
        rw [List.filter_cons_of_pos (by rw [hp]), List.map_cons, List.map_cons, List.sum_cons,
          List.sum_cons, htail]
      | false =>
        rw [List.filter_cons_of_neg (by rw [hp]; exact Bool.false_ne_true), List.map_cons,
          List.sum_cons, htail, hl e List.mem_cons_self hp, Nat.zero_add]
  exact hlist m.entries (fun e he => h e.1 e.2 (m.find?_eq_some_iff.mpr he))

/-- A filter leaves no more entries. -/
theorem size_filter_le (m : OrderedMap K V) (p : K → V → Bool) : (m.filter p).size ≤ m.size :=
  List.length_filter_le _ _

end OrderedMap

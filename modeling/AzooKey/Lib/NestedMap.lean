import AzooKey.Lib.OrderedMap

/-!
# Maps of maps

A table with two keys is a map from the first to a map from the second: a
bucket for each first key. `lookup` reads through both levels, `put` is
`table[k][l] = v`, `emplace` is `table[k].emplace(l, v)`, and `remove` takes a
bucket away with its last entry.

A table without empty buckets is determined by its lookups
(`ext_of_lookup`), and is the table that its own rows build, in their order
(`build_rows`): what is written row by row is read back.
-/

variable {K L V : Type*} [LinearOrder K] [LinearOrder L]

/-- A map of maps. -/
abbrev NestedMap (K L V : Type*) [LinearOrder K] [LinearOrder L] :=
  OrderedMap K (OrderedMap L V)

namespace NestedMap

/-- The bucket of a key; a key without a bucket has an empty one. -/
def bucket (t : NestedMap K L V) (k : K) : OrderedMap L V := (t.find? k).getD .empty

/-- The value at a pair of keys. -/
def lookup (t : NestedMap K L V) (k : K) (l : L) : Option V := (bucket t k).find? l

/-- `table[k][l] = v`. -/
def put (t : NestedMap K L V) (k : K) (l : L) (v : V) : NestedMap K L V :=
  t.assign k ((bucket t k).assign l v)

/-- `table[k].emplace(l, v)`: an entry that is already there stays. -/
def emplace (t : NestedMap K L V) (k : K) (l : L) (v : V) : NestedMap K L V :=
  if (lookup t k l).isSome then t else put t k l v

/-- Replace the bucket of a key, or take it away when it is empty. -/
def setBucket (t : NestedMap K L V) (k : K) (b : OrderedMap L V) : NestedMap K L V :=
  if b.entries = [] then t.erase k else t.assign k b

/-- The table without an entry. -/
def remove (t : NestedMap K L V) (k : K) (l : L) : NestedMap K L V :=
  setBucket t k ((bucket t k).erase l)

/-- No bucket is empty. -/
def NoEmptyBucket (t : NestedMap K L V) : Prop := ∀ k b, t.find? k = some b → b.entries ≠ []

/-- The entries in the order of the keys. -/
def rows (t : NestedMap K L V) : List (K × L × V) :=
  t.entries.flatMap (fun e => e.2.entries.map (fun d => (e.1, d.1, d.2)))

/-- The entries that satisfy a condition; a bucket goes with its last entry. -/
def filter (t : NestedMap K L V) (p : K → L → V → Bool) : NestedMap K L V :=
  ⟨(t.entries.map (fun e => (e.1, OrderedMap.filter e.2 (p e.1)))).filter
      (fun e => e.2.entries ≠ []),
    List.Pairwise.filter _ (List.pairwise_map.mpr (t.sorted.imp (fun h => h)))⟩

/-! ## Lookups -/

/-- One map within another finds what the two find. -/
theorem lookup_eq_bind (m : NestedMap K L V) (k : K) (l : L) :
    lookup m k l = (m.find? k).bind (fun b => b.find? l) := by
  unfold lookup bucket
  cases m.find? k with
  | none => rfl
  | some b => rfl

/-- The bucket after an assignment. -/
theorem bucket_assign (t : NestedMap K L V) (k : K) (b : OrderedMap L V) (k' : K) :
    bucket (t.assign k b) k' = if k' = k then b else bucket t k' := by
  unfold bucket
  rw [OrderedMap.find?_assign]
  split <;> rfl

/-- **What is found after an assignment.** -/
theorem lookup_put (t : NestedMap K L V) (k : K) (l : L) (v : V) (k' : K) (l' : L) :
    lookup (put t k l v) k' l' = if k' = k ∧ l' = l then some v else lookup t k' l' := by
  unfold lookup put
  rw [bucket_assign]
  by_cases hk : k' = k
  · subst hk
    rw [if_pos rfl, OrderedMap.find?_assign]
    by_cases hl : l' = l
    · rw [if_pos hl, if_pos ⟨rfl, hl⟩]
    · rw [if_neg hl, if_neg (fun h => hl h.2)]
  · rw [if_neg hk, if_neg (fun h => hk h.1)]

/-- **What is found after an insertion that gives way.** -/
theorem lookup_emplace (t : NestedMap K L V) (k : K) (l : L) (v : V) (k' : K) (l' : L) :
    lookup (emplace t k l v) k' l'
      = if k' = k ∧ l' = l then some ((lookup t k l).getD v) else lookup t k' l' := by
  unfold emplace
  cases hfound : lookup t k l with
  | some w =>
    rw [if_pos (show (some w).isSome = true from rfl)]
    split
    · rename_i hkl
      rw [hkl.1, hkl.2, hfound, Option.getD_some]
    · rfl
  | none =>
    rw [if_neg (show ¬ (none : Option V).isSome = true from Bool.false_ne_true), lookup_put]
    rfl

/-- The bucket after a replacement. -/
theorem bucket_setBucket (t : NestedMap K L V) (k : K) (b : OrderedMap L V) (k' : K) :
    bucket (setBucket t k b) k' = if k' = k then b else bucket t k' := by
  unfold setBucket
  split
  · rename_i hempty
    have hb : b = .empty := by
      obtain ⟨l, hl⟩ := b
      subst hempty
      rfl
    unfold bucket
    rw [OrderedMap.find?_erase]
    split
    · rw [hb, Option.getD_none]
    · rfl
  · exact bucket_assign t k b k'

/-- What is found after a map is replaced, or erased with its last entry. -/
theorem bind_find?_setBucket (m : NestedMap K L V) (k : K) (b : OrderedMap L V) (k' : K) (l : L) :
    ((setBucket m k b).find? k').bind (fun b => b.find? l)
      = if k' = k then b.find? l else (m.find? k').bind (fun b => b.find? l) := by
  rw [← lookup_eq_bind, ← lookup_eq_bind, lookup, bucket_setBucket]
  split <;> rfl

/-- What is found after a map is replaced, unless it went with its last entry. -/
theorem find?_setBucket_eq_some {m : NestedMap K L V} {k k' : K} {b c : OrderedMap L V}
    (h : (setBucket m k b).find? k' = some c) :
    c = b ∧ b.entries ≠ [] ∨ m.find? k' = some c := by
  unfold setBucket at h
  split at h
  · rw [OrderedMap.find?_erase] at h
    split at h
    · cases h
    · exact Or.inr h
  · rename_i hb
    rw [OrderedMap.find?_assign] at h
    split at h
    · exact Or.inl ⟨(Option.some.inj h).symm, hb⟩
    · exact Or.inr h

/-- **What is found after a removal.** -/
theorem lookup_remove (t : NestedMap K L V) (k : K) (l : L) (k' : K) (l' : L) :
    lookup (remove t k l) k' l' = if k' = k ∧ l' = l then none else lookup t k' l' := by
  unfold lookup remove
  rw [bucket_setBucket]
  by_cases hk : k' = k
  · subst hk
    rw [if_pos rfl, OrderedMap.find?_erase]
    by_cases hl : l' = l
    · rw [if_pos hl, if_pos ⟨rfl, hl⟩]
    · rw [if_neg hl, if_neg (fun h => hl h.2)]
  · rw [if_neg hk, if_neg (fun h => hk h.1)]

/-- **What is found of the entries that satisfy a condition.** -/
theorem lookup_filter (t : NestedMap K L V) (p : K → L → V → Bool) (k : K) (l : L) :
    lookup (filter t p) k l = (lookup t k l).filter (p k l) := by
  have hbucket : bucket (filter t p) k = (bucket t k).filter (p k) := by
    unfold bucket
    cases hfound : (filter t p).find? k with
    | some b =>
      have hmem := (List.mem_filter.mp ((filter t p).find?_eq_some_iff.mp hfound)).1
      obtain ⟨⟨j, c⟩, hc, heq⟩ := List.mem_map.mp hmem
      obtain ⟨rfl, rfl⟩ := Prod.mk.inj heq
      rw [t.find?_eq_some_iff.mpr hc]
      rfl
    | none =>
      cases hold : t.find? k with
      | none => rfl
      | some c =>
        by_cases hempty : (c.filter (p k)).entries = []
        · show (OrderedMap.empty : OrderedMap L V) = c.filter (p k)
          exact OrderedMap.ext_of_find? (fun l => by
            rw [OrderedMap.find?_empty, OrderedMap.find?, hempty]
            rfl)
        · have hmem : (k, c.filter (p k)) ∈ (filter t p).entries :=
            List.mem_filter.mpr ⟨List.mem_map.mpr ⟨(k, c), t.find?_eq_some_iff.mp hold, rfl⟩,
              by simpa using hempty⟩
          rw [(filter t p).find?_eq_some_iff.mpr hmem] at hfound
          cases hfound
  unfold lookup
  rw [hbucket, OrderedMap.find?_filter]

/-! ## Empty buckets -/

/-- The empty table has no bucket. -/
theorem noEmptyBucket_empty : NoEmptyBucket (OrderedMap.empty : NestedMap K L V) := by
  intro k b h
  cases h

/-- A bucket that is not empty may come in. -/
theorem NoEmptyBucket.assign {t : NestedMap K L V} (h : NoEmptyBucket t) {k : K}
    {b : OrderedMap L V} (hb : b.entries ≠ []) : NoEmptyBucket (t.assign k b) := by
  intro k' b' h'
  rw [OrderedMap.find?_assign] at h'
  split at h'
  · exact Option.some.inj h' ▸ hb
  · exact h k' b' h'

/-- A map that finds something is not empty. -/
theorem entries_ne_nil {b : OrderedMap L V} {l : L} {v : V} (h : b.find? l = some v) :
    b.entries ≠ [] :=
  List.ne_nil_of_mem (b.find?_eq_some_iff.mp h)

/-- An assignment leaves no bucket empty. -/
theorem NoEmptyBucket.put {t : NestedMap K L V} (h : NoEmptyBucket t) (k : K) (l : L) (v : V) :
    NoEmptyBucket (put t k l v) :=
  h.assign (entries_ne_nil (by rw [OrderedMap.find?_assign, if_pos rfl]))

/-- A removal leaves no bucket empty. -/
theorem NoEmptyBucket.remove {t : NestedMap K L V} (h : NoEmptyBucket t) (k : K) (l : L) :
    NoEmptyBucket (remove t k l) := by
  unfold NestedMap.remove setBucket
  split
  · intro k' b' h'
    rw [OrderedMap.find?_erase] at h'
    split at h'
    · cases h'
    · exact h k' b' h'
  · rename_i hb
    exact h.assign hb

/-- A filter leaves no bucket empty. -/
theorem noEmptyBucket_filter (t : NestedMap K L V) (p : K → L → V → Bool) :
    NoEmptyBucket (filter t p) := by
  intro k b h
  have hmem := (List.mem_filter.mp ((filter t p).find?_eq_some_iff.mp h)).2
  simpa using hmem

/-- **Tables without empty buckets that find the same are equal.** -/
theorem ext_of_lookup {t t' : NestedMap K L V} (h : NoEmptyBucket t) (h' : NoEmptyBucket t')
    (hlookup : ∀ k l, lookup t k l = lookup t' k l) : t = t' := by
  have hbucket : ∀ k, bucket t k = bucket t' k := fun k => OrderedMap.ext_of_find? (hlookup k)
  have hone : ∀ {t t' : NestedMap K L V}, NoEmptyBucket t → (∀ k, bucket t k = bucket t' k) →
      ∀ k b, t.find? k = some b → t'.find? k = some b := by
    intro t t' h hbucket k b hb
    have heq := hbucket k
    unfold bucket at heq
    rw [hb, Option.getD_some] at heq
    cases hb' : t'.find? k with
    | some b' => rw [heq, hb', Option.getD_some]
    | none =>
      rw [hb', Option.getD_none] at heq
      exact absurd (congrArg OrderedMap.entries heq) (h k b hb)
  refine OrderedMap.ext_of_find? (fun k => Option.ext (fun b => ?_))
  exact ⟨hone h hbucket k b, hone h' (fun k => (hbucket k).symm) k b⟩

/-! ## Tables of good entries -/

/-- **Every entry is good**, and no bucket is empty. -/
structure Holds (P : K → L → V → Prop) (t : NestedMap K L V) : Prop where
  noEmptyBucket : NoEmptyBucket t
  entry : ∀ k l v, lookup t k l = some v → P k l v

variable {P : K → L → V → Prop}

/-- The empty table has no bad entry. -/
theorem holds_empty : Holds P (OrderedMap.empty : NestedMap K L V) :=
  ⟨noEmptyBucket_empty, fun k l v h => by cases h⟩

/-- A good entry may come in. -/
theorem Holds.put {t : NestedMap K L V} (h : Holds P t) {k : K} {l : L} {v : V} (hv : P k l v) :
    Holds P (put t k l v) := by
  refine ⟨h.noEmptyBucket.put k l v, fun k' l' v' hfound => ?_⟩
  rw [lookup_put] at hfound
  split at hfound
  · rename_i hkl
    rw [hkl.1, hkl.2, ← Option.some.inj hfound]
    exact hv
  · exact h.entry k' l' v' hfound

/-- A good entry may come in where there is none. -/
theorem Holds.emplace {t : NestedMap K L V} (h : Holds P t) {k : K} {l : L} {v : V}
    (hv : P k l v) : Holds P (emplace t k l v) := by
  unfold NestedMap.emplace
  split
  · exact h
  · exact h.put hv

/-- An entry may go. -/
theorem Holds.remove {t : NestedMap K L V} (h : Holds P t) (k : K) (l : L) :
    Holds P (remove t k l) := by
  refine ⟨h.noEmptyBucket.remove k l, fun k' l' v' hfound => ?_⟩
  rw [lookup_remove] at hfound
  split at hfound
  · cases hfound
  · exact h.entry k' l' v' hfound

/-- Entries may go. -/
theorem Holds.filter {t : NestedMap K L V} (h : Holds P t) (p : K → L → V → Bool) :
    Holds P (filter t p) := by
  refine ⟨noEmptyBucket_filter t p, fun k l v hfound => h.entry k l v ?_⟩
  rw [lookup_filter] at hfound
  exact (Option.filter_eq_some_iff.mp hfound).1

/-- Good rows may come in one after the other. -/
theorem holds_foldl {step : NestedMap K L V → K × L × V → NestedMap K L V}
    (hstep : ∀ t row, Holds P t → P row.1 row.2.1 row.2.2 → Holds P (step t row))
    {t : NestedMap K L V} (h : Holds P t) {l : List (K × L × V)}
    (hl : ∀ row ∈ l, P row.1 row.2.1 row.2.2) : Holds P (l.foldl step t) := by
  induction l generalizing t with
  | nil => exact h
  | cons row l ih =>
    exact ih (hstep t row h (hl row List.mem_cons_self))
      (fun r hr => hl r (List.mem_cons_of_mem _ hr))

/-! ## Rows -/

/-- **The rows are the entries that are found.** -/
theorem mem_rows {t : NestedMap K L V} {k : K} {l : L} {v : V} :
    (k, l, v) ∈ rows t ↔ lookup t k l = some v := by
  unfold rows lookup bucket
  rw [List.mem_flatMap]
  constructor
  · rintro ⟨⟨k', b⟩, hb, hrow⟩
    obtain ⟨⟨l', v'⟩, hd, heq⟩ := List.mem_map.mp hrow
    simp only [Prod.mk.injEq] at heq
    obtain ⟨rfl, rfl, rfl⟩ := heq
    rw [t.find?_eq_some_iff.mpr hb]
    exact b.find?_eq_some_iff.mpr hd
  · intro h
    cases hb : t.find? k with
    | none =>
      rw [hb] at h
      cases h
    | some b =>
      rw [hb] at h
      exact ⟨(k, b), t.find?_eq_some_iff.mp hb,
        List.mem_map.mpr ⟨(l, v), b.find?_eq_some_iff.mp h, rfl⟩⟩

/-- A step that puts a row into the table, where the table does not hold another
value for its keys. -/
def Adds (step : NestedMap K L V → K × L × V → NestedMap K L V) : Prop :=
  ∀ t k l v, (∀ w, lookup t k l = some w → w = v) →
    ∀ k' l', lookup (step t (k, l, v)) k' l' = if k' = k ∧ l' = l then some v else lookup t k' l'

/-- Assignment is such a step. -/
theorem adds_put : Adds (fun (t : NestedMap K L V) row => put t row.1 row.2.1 row.2.2) :=
  fun t k l v _ k' l' => lookup_put t k l v k' l'

/-- Insertion is such a step. -/
theorem adds_emplace : Adds (fun (t : NestedMap K L V) row => emplace t row.1 row.2.1 row.2.2) := by
  intro t k l v hsame k' l'
  show lookup (emplace t k l v) k' l' = _
  rw [lookup_emplace]
  cases hfound : lookup t k l with
  | none => rfl
  | some w => rw [Option.getD_some, hsame w hfound]

/-- What is found in a table that rows of `t` were added to. -/
theorem lookup_foldl {step : NestedMap K L V → K × L × V → NestedMap K L V} (hstep : Adds step)
    {t : NestedMap K L V} {l : List (K × L × V)} (hl : ∀ row ∈ l, row ∈ rows t)
    {acc : NestedMap K L V} (hacc : ∀ k j v, lookup acc k j = some v → lookup t k j = some v)
    (k : K) (j : L) (v : V) :
    lookup (l.foldl step acc) k j = some v ↔ lookup acc k j = some v ∨ (k, j, v) ∈ l := by
  induction l generalizing acc with
  | nil => simp
  | cons row l ih =>
    obtain ⟨k₀, j₀, v₀⟩ := row
    have hrow : lookup t k₀ j₀ = some v₀ := mem_rows.mp (hl _ List.mem_cons_self)
    have hlookup := hstep acc k₀ j₀ v₀
      (fun w hw => Option.some.inj ((hacc _ _ _ hw).symm.trans hrow))
    rw [List.foldl_cons, ih (fun r hr => hl r (List.mem_cons_of_mem _ hr)), hlookup k j,
      List.mem_cons, ← or_assoc]
    · refine or_congr_left ?_
      by_cases hkey : k = k₀ ∧ j = j₀
      · obtain ⟨rfl, rfl⟩ := hkey
        rw [if_pos ⟨rfl, rfl⟩, Option.some.injEq, Prod.mk.injEq, Prod.mk.injEq]
        constructor
        · rintro rfl
          exact Or.inr ⟨rfl, rfl, rfl⟩
        · rintro (hfound | ⟨-, -, rfl⟩)
          · exact Option.some.inj (hrow.symm.trans (hacc _ _ _ hfound))
          · rfl
      · rw [if_neg hkey, Prod.mk.injEq, Prod.mk.injEq]
        exact ⟨Or.inl, fun h => h.resolve_right (fun h => hkey ⟨h.1, h.2.1⟩)⟩
    · intro k' j' v' hfound
      rw [hlookup] at hfound
      split at hfound
      · rename_i hkey
        rw [hkey.1, hkey.2, hrow]
        exact hfound
      · exact hacc k' j' v' hfound

/-- **A table without empty buckets is built by its own rows.** -/
theorem build_rows {step : NestedMap K L V → K × L × V → NestedMap K L V} (hstep : Adds step)
    {t : NestedMap K L V} (h : NoEmptyBucket t)
    (hbuilt : NoEmptyBucket ((rows t).foldl step .empty)) : (rows t).foldl step .empty = t := by
  refine ext_of_lookup hbuilt h (fun k l => Option.ext (fun v => ?_))
  rw [lookup_foldl hstep (fun _ hrow => hrow) (fun k j v hfound => by cases hfound), mem_rows]
  exact ⟨fun hor => hor.resolve_left (fun hfound => by cases hfound), Or.inr⟩

end NestedMap

import AzooKey.Lib.BinarySearch

/-!
# Indices that are sorted by a key

A table with `n` rows and a key for each row is indexed by the list of its row
numbers, sorted by the key, and by the number where two keys are equal. Such a
list names each row once (`perm_range`), two binary searches find the range of
the rows with one key (`slice_eq_filter`), and what stands in that range is
what a scan of the table finds, in the same order (`slice_eq_range_filter`).
-/

namespace KeyIndex

variable {β : Type*} [LinearOrder β]

/-- The order of the index: by the key, then by the number. -/
def Before (key : ℕ → β) (a b : ℕ) : Prop := key a < key b ∨ key a = key b ∧ a < b

/-- The order is transitive. -/
theorem Before.trans {key : ℕ → β} {a b c : ℕ} (hab : Before key a b) (hbc : Before key b c) :
    Before key a c := by
  obtain hab | ⟨hab, hab'⟩ := hab
  · obtain hbc | ⟨hbc, -⟩ := hbc
    · exact Or.inl (hab.trans hbc)
    · exact Or.inl (hbc ▸ hab)
  · obtain hbc | ⟨hbc, hbc'⟩ := hbc
    · exact Or.inl (hab ▸ hbc)
    · exact Or.inr ⟨hab.trans hbc, hab'.trans hbc'⟩

/-- **The range that two bounds leave is the filter by what lies between them.** -/
theorem filter_eq_slice {α : Type*} {l : List α} {p : α → Bool} {lower upper : ℕ}
    (hp : ∀ i (h : i < l.length), p l[i] = true ↔ lower ≤ i ∧ i < upper) :
    l.filter p = (l.drop lower).take (upper - lower) := by
  induction l generalizing lower upper with
  | nil => simp
  | cons a l ih =>
    have hhead := hp 0 (by simp)
    have htail : ∀ i (h : i < l.length), p l[i] = true ↔ lower - 1 ≤ i ∧ i < upper - 1 := by
      intro i h
      have hnext := hp (i + 1) (by simpa using h)
      rw [List.getElem_cons_succ] at hnext
      rw [hnext]
      omega
    rw [List.getElem_cons_zero] at hhead
    cases lower with
    | zero =>
      cases upper with
      | zero =>
        rw [List.filter_cons_of_neg (by simpa using hhead), ih htail]
        simp
      | succ upper =>
        rw [List.filter_cons_of_pos (hhead.mpr ⟨le_rfl, Nat.succ_pos _⟩), ih htail]
        simp
    | succ lower =>
      rw [List.filter_cons_of_neg (fun h => by simpa using hhead.mp h), ih htail,
        List.drop_succ_cons, Nat.add_sub_cancel, Nat.sub_sub, Nat.add_comm 1 lower]

section Sorted

variable {key : ℕ → β} {rows : List ℕ} (hsorted : rows.Pairwise (Before key))
include hsorted

/-- No row is named twice. -/
theorem nodup_of_sorted : rows.Nodup := by
  refine hsorted.imp (fun {a b} hab heq => ?_)
  subst heq
  obtain hlt | ⟨-, hlt⟩ := hab
  · exact lt_irrefl _ hlt
  · exact lt_irrefl _ hlt

/-- The keys of the places do not fall. -/
theorem key_getD_le {i j : ℕ} (hij : i ≤ j) (hj : j < rows.length) :
    key (rows.getD i 0) ≤ key (rows.getD j 0) := by
  obtain hlt | rfl := lt_or_eq_of_le hij
  · have hi : i < rows.length := hlt.trans hj
    have hbefore := List.pairwise_iff_getElem.mp hsorted i j hi hj hlt
    rw [List.getElem_eq_getD 0, List.getElem_eq_getD 0] at hbefore
    obtain hkey | ⟨hkey, -⟩ := hbefore
    · exact hkey.le
    · exact hkey.le
  · exact le_rfl

end Sorted

/-! ## The search -/

/-- The first place whose key is not before the one that is looked for. -/
def lower (key : ℕ → β) (rows : List ℕ) (q : β) : ℕ :=
  BinarySearch.partitionPoint (fun p => decide (key (rows.getD p 0) < q)) 0 rows.length

/-- The first place whose key is behind the one that is looked for. -/
def upper (key : ℕ → β) (rows : List ℕ) (q : β) : ℕ :=
  BinarySearch.partitionPoint (fun p => decide (key (rows.getD p 0) ≤ q)) 0 rows.length

section Search

variable {key : ℕ → β} {rows : List ℕ} (hsorted : rows.Pairwise (Before key)) (q : β)
include hsorted

/-- What the lower bound splits. -/
theorem lower_spec : lower key rows q ≤ rows.length
    ∧ ∀ i, i < rows.length → (key (rows.getD i 0) < q ↔ i < lower key rows q) := by
  obtain ⟨-, hle, hbelow, hrest⟩ :=
    @BinarySearch.partitionPoint_spec (fun p => decide (key (rows.getD p 0) < q)) 0 rows.length
      (Nat.zero_le rows.length) (fun i j hij hj h =>
        decide_eq_true (lt_of_le_of_lt (key_getD_le hsorted hij hj) (of_decide_eq_true h)))
  refine ⟨hle, fun i hi => ⟨fun h => ?_, fun h => of_decide_eq_true (hbelow i (Nat.zero_le i) h)⟩⟩
  by_contra hlt
  exact of_decide_eq_false (hrest i (not_lt.mp hlt) hi) h

/-- What the upper bound splits. -/
theorem upper_spec : upper key rows q ≤ rows.length
    ∧ ∀ i, i < rows.length → (key (rows.getD i 0) ≤ q ↔ i < upper key rows q) := by
  obtain ⟨-, hle, hbelow, hrest⟩ :=
    @BinarySearch.partitionPoint_spec (fun p => decide (key (rows.getD p 0) ≤ q)) 0 rows.length
      (Nat.zero_le rows.length) (fun i j hij hj h =>
        decide_eq_true ((key_getD_le hsorted hij hj).trans (of_decide_eq_true h)))
  refine ⟨hle, fun i hi => ⟨fun h => ?_, fun h => of_decide_eq_true (hbelow i (Nat.zero_le i) h)⟩⟩
  by_contra hlt
  exact of_decide_eq_false (hrest i (not_lt.mp hlt) hi) h

/-- The bounds come in their order. -/
theorem lower_le_upper : lower key rows q ≤ upper key rows q := by
  obtain ⟨hle, hlower⟩ := lower_spec hsorted q
  obtain ⟨-, hupper⟩ := upper_spec hsorted q
  by_contra hlt
  have hplace : upper key rows q < rows.length := lt_of_lt_of_le (not_le.mp hlt) hle
  have hkey := (hlower _ hplace).mpr (not_le.mp hlt)
  exact lt_irrefl _ ((hupper _ hplace).mp hkey.le)

/-- **Two binary searches find the rows with one key.** -/
theorem slice_eq_filter :
    (rows.drop (lower key rows q)).take (upper key rows q - lower key rows q)
      = rows.filter (fun r => decide (key r = q)) := by
  refine (filter_eq_slice (fun i hi => ?_)).symm
  have hlower := (lower_spec hsorted q).2 i hi
  have hupper := (upper_spec hsorted q).2 i hi
  rw [← List.getElem_eq_getD (h := hi) 0] at hlower hupper
  rw [decide_eq_true_eq, ← hupper, ← not_lt, ← hlower, not_lt, le_antisymm_iff, and_comm]

variable {n : ℕ} (hlength : rows.length = n) (hlt : ∀ r ∈ rows, r < n)
include hlength hlt

omit q in
/-- **The index names each row once.** -/
theorem perm_range : rows.Perm (List.range n) := by
  refine ((nodup_of_sorted hsorted).subperm (fun r hr => ?_)).perm_of_length_le ?_
  · exact List.mem_range.mpr (hlt r hr)
  · rw [List.length_range, hlength]

/-- **What the searches find is what a scan of the table finds**, in the same
order. -/
theorem slice_eq_range_filter :
    (rows.drop (lower key rows q)).take (upper key rows q - lower key rows q)
      = (List.range n).filter (fun r => decide (key r = q)) := by
  rw [slice_eq_filter hsorted q]
  have hperm := (perm_range hsorted hlength hlt).filter (fun r => decide (key r = q))
  have hrows : (rows.filter (fun r => decide (key r = q))).Pairwise (· < ·) := by
    refine List.Pairwise.imp_of_mem (fun {a b} ha hb hab => ?_) (hsorted.filter _)
    have hkeyA := of_decide_eq_true (List.mem_filter.mp ha).2
    have hkeyB := of_decide_eq_true (List.mem_filter.mp hb).2
    obtain hkey | ⟨-, hnumber⟩ := hab
    · rw [hkeyA, hkeyB] at hkey
      exact absurd hkey (lt_irrefl q)
    · exact hnumber
  have hrange := (List.pairwise_lt_range (n := n)).filter (fun r => decide (key r = q))
  exact hperm.eq_of_pairwise (fun a b _ _ hab hba => absurd (hab.trans hba) (lt_irrefl a))
    hrows hrange

end Search

end KeyIndex

import AzooKey.Lib.Bytes
import Mathlib.Data.List.Nodup

/-!
# Windows on sorted lists

The first elements of a list, the window, from which some are picked. What is
picked from the window is what would be picked from the whole list as long as it
stands in the window (`filter_take_eq_iff`), and where an element of a sorted list
stands is the number of those before it (`mem_take_iff`). In a sorted list of texts
those that begin with a text stand together (`takeWhile_dropWhile_isPrefixOf`).
-/

namespace AzooKey

section Window

variable {α : Type*}

/-- **What is picked from a window** is what is picked from the list, if it stands
in the window. -/
theorem filter_take_eq_iff {l : List α} (hl : l.Nodup) (p : α → Bool) (n k : ℕ) :
    ((l.take n).filter p).take k = (l.filter p).take k ↔ ∀ a ∈ (l.filter p).take k, a ∈ l.take n := by
  have hsplit : l.filter p = (l.take n).filter p ++ (l.drop n).filter p := by
    rw [← List.filter_append, List.take_append_drop]
  constructor
  · intro h a ha
    rw [← h] at ha
    exact List.mem_of_mem_filter (List.mem_of_mem_take ha)
  · intro h
    rw [hsplit, List.take_append] at h ⊢
    have hnone : ((l.drop n).filter p).take (k - ((l.take n).filter p).length) = [] := by
      refine List.eq_nil_iff_forall_not_mem.mpr (fun a ha => ?_)
      have hdrop : a ∈ l.drop n := List.mem_of_mem_filter (List.mem_of_mem_take ha)
      have htake : a ∈ l.take n := h a (List.mem_append_right _ ha)
      rw [← List.take_append_drop n l] at hl
      exact (List.nodup_append.mp hl).2.2 a htake a hdrop rfl
    rw [hnone, List.append_nil]

/-- What is filtered out behind the first elements is not missed. -/
theorem take_filter_of_forall {l : List α} {p : α → Bool} {k : ℕ} (h : ∀ a ∈ l.take k, p a = true) :
    (l.filter p).take k = l.take k := by
  induction l generalizing k with
  | nil => rfl
  | cons x l ih =>
    cases k with
    | zero => rw [List.take_zero, List.take_zero]
    | succ k =>
      rw [List.take_succ_cons] at h
      rw [List.filter_cons_of_pos (h x List.mem_cons_self), List.take_succ_cons, List.take_succ_cons,
        ih (fun a ha => h a (List.mem_cons_of_mem _ ha))]

/-- **Where an element stands** is the number of elements before it. -/
theorem mem_take_iff {r : α → α → Bool} {l : List α} (hl : l.Pairwise (fun a b => r a b = true))
    (hasymm : ∀ a ∈ l, ∀ b ∈ l, r a b = true → r b a = false) {a : α} (ha : a ∈ l) (n : ℕ) :
    a ∈ l.take n ↔ (l.filter (fun b => r b a)).length < n := by
  induction l generalizing n with
  | nil => exact absurd ha List.not_mem_nil
  | cons x l ih =>
    obtain ⟨hx, hl⟩ := List.pairwise_cons.mp hl
    have hirrefl : r a a = false := by
      by_contra h
      exact h (hasymm a ha a ha (by simpa using h))
    cases n with
    | zero => simp
    | succ n =>
      rw [List.take_succ_cons, List.mem_cons, List.filter_cons]
      by_cases hax : a = x
      · subst hax
        have hnone : l.filter (fun b => r b a) = [] := by
          refine List.filter_eq_nil_iff.mpr (fun b hb => ?_)
          rw [hasymm a ha b (List.mem_cons_of_mem _ hb) (hx b hb)]
          exact Bool.false_ne_true
        rw [hirrefl, hnone]
        exact iff_of_true (Or.inl rfl) (Nat.succ_pos n)
      · have ha' : a ∈ l := (List.mem_cons.mp ha).resolve_left hax
        rw [hx a ha', or_iff_right hax,
          ih hl (fun b hb c hc => hasymm b (List.mem_cons_of_mem _ hb) c (List.mem_cons_of_mem _ hc)) ha', if_pos rfl, List.length_cons]
        omega

end Window

section Texts

variable {α : Type*} [LinearOrder α]

/-- **The texts that begin with a text stand together** in a sorted list. -/
theorem takeWhile_dropWhile_isPrefixOf {l : List (List α)} (hl : l.Pairwise (· < ·)) (p : List α) :
    (l.dropWhile (fun x => decide (x < p))).takeWhile (fun x => p.isPrefixOf x)
      = l.filter (fun x => p.isPrefixOf x) := by
  induction l with
  | nil => rfl
  | cons x l ih =>
    obtain ⟨hx, hl⟩ := List.pairwise_cons.mp hl
    by_cases hlt : x < p
    · have hnot : ¬ p.isPrefixOf x = true := by
        intro h
        have hstart := List.isPrefixOf_iff_prefix.mp h
        by_cases heq : p = x
        · rw [heq] at hlt
          exact lt_irrefl _ hlt
        · exact lt_asymm hlt (List.lt_of_prefix_of_ne hstart heq)
      rw [List.dropWhile_cons_of_pos (by simpa using hlt), ih hl, List.filter_cons_of_neg hnot]
    · rw [List.dropWhile_cons_of_neg (by simpa using hlt)]
      -- Nothing is dropped any more; the texts that follow are past the first.
      have hpast : ∀ y ∈ l, ¬ y < p := fun y hy h => hlt ((hx y hy).trans h)
      have hrest : l.dropWhile (fun x => decide (x < p)) = l := by
        cases l with
        | nil => rfl
        | cons y l => exact List.dropWhile_cons_of_neg (by simpa using hpast y List.mem_cons_self)
      rw [hrest] at ih
      by_cases hstart : p.isPrefixOf x = true
      · rw [List.takeWhile_cons_of_pos hstart, List.filter_cons_of_pos hstart, ih hl]
      · have hnone : l.filter (fun x => p.isPrefixOf x) = [] := by
          refine List.filter_eq_nil_iff.mpr (fun y hy h => hstart ?_)
          rw [List.isPrefixOf_iff_prefix] at h ⊢
          obtain heq | hpx := (not_lt.mp hlt).eq_or_lt
          · rw [heq]
          · exact List.prefix_of_lt_of_prefix hpx (hx y hy).le h
        rw [List.takeWhile_cons_of_neg hstart, List.filter_cons_of_neg hstart, hnone]

end Texts

end AzooKey

import Mathlib.Data.List.Basic
import Mathlib.Tactic.Ring

/-!
# Edit distance

`editDistance` is the recursive definition: the least number of elements that
have to be inserted, deleted or replaced to make one list of another. `Edits`
are the ways to do so, each with its number of changes; the distance is the
least of these numbers (`edits_editDistance`, `Edits.editDistance_le`). Ways
can be read backwards and from the other side, and so the distance is
symmetric and does not change when both lists are reversed.
-/

namespace AzooKey

variable {α : Type}

section Distance

variable [DecidableEq α]

/-- **The edit distance** of two lists. -/
def editDistance : List α → List α → ℕ
  | [], ys => ys.length
  | x :: xs, [] => (x :: xs).length
  | x :: xs, y :: ys =>
    min (min (editDistance (x :: xs) ys + 1) (editDistance xs (y :: ys) + 1))
      (editDistance xs ys + if x = y then 0 else 1)
termination_by xs ys => xs.length + ys.length

/-- From the empty list everything is inserted. -/
@[simp] theorem editDistance_nil (ys : List α) : editDistance [] ys = ys.length := by
  rw [editDistance]

/-- To the empty list everything is deleted. -/
@[simp] theorem editDistance_nil_right (xs : List α) : editDistance xs [] = xs.length := by
  cases xs with
  | nil => rw [editDistance_nil]
  | cons x xs => rw [editDistance]

/-- The first elements are kept or replaced, or one of them goes. -/
theorem editDistance_cons (x y : α) (xs ys : List α) :
    editDistance (x :: xs) (y :: ys)
      = min (min (editDistance (x :: xs) ys + 1) (editDistance xs (y :: ys) + 1))
        (editDistance xs ys + if x = y then 0 else 1) := by
  rw [editDistance]

/-- One more element to delete is one more change at most. -/
theorem editDistance_cons_left_le (x : α) (xs ys : List α) :
    editDistance (x :: xs) ys ≤ editDistance xs ys + 1 := by
  cases ys with
  | nil => rw [editDistance_nil_right, editDistance_nil_right, List.length_cons]
  | cons y ys =>
    rw [editDistance_cons]
    exact (min_le_left _ _).trans (min_le_right _ _)

/-- One more element to insert is one more change at most. -/
theorem editDistance_cons_right_le (y : α) (xs ys : List α) :
    editDistance xs (y :: ys) ≤ editDistance xs ys + 1 := by
  cases xs with
  | nil => rw [editDistance_nil, editDistance_nil, List.length_cons]
  | cons x xs =>
    rw [editDistance_cons]
    exact (min_le_left _ _).trans (min_le_left _ _)

end Distance

/-! ## Ways to change a list -/

/-- **A way to make one list of another**, with the number of changes. -/
inductive Edits : List α → List α → ℕ → Prop
  | nil : Edits [] [] 0
  | keep {xs ys : List α} {n : ℕ} (x : α) (h : Edits xs ys n) : Edits (x :: xs) (x :: ys) n
  | replace {xs ys : List α} {n : ℕ} (x y : α) (h : Edits xs ys n) :
      Edits (x :: xs) (y :: ys) (n + 1)
  | delete {xs ys : List α} {n : ℕ} (x : α) (h : Edits xs ys n) : Edits (x :: xs) ys (n + 1)
  | insert {xs ys : List α} {n : ℕ} (y : α) (h : Edits xs ys n) : Edits xs (y :: ys) (n + 1)

namespace Edits

variable {xs ys us vs : List α} {n m : ℕ}

/-- A way read from the other side. -/
theorem symm (h : Edits xs ys n) : Edits ys xs n := by
  induction h with
  | nil => exact .nil
  | keep x _ ih => exact .keep x ih
  | replace x y _ ih => exact .replace y x ih
  | delete x _ ih => exact .insert x ih
  | insert y _ ih => exact .delete y ih

/-- One way after the other. -/
theorem append (h : Edits xs ys n) (h' : Edits us vs m) : Edits (xs ++ us) (ys ++ vs) (n + m) := by
  induction h with
  | nil => rwa [Nat.zero_add]
  | keep x _ ih => exact .keep x ih
  | replace x y _ ih => rw [Nat.succ_add]; exact .replace x y ih
  | delete x _ ih => rw [Nat.succ_add]; exact .delete x ih
  | insert y _ ih => rw [Nat.succ_add]; exact .insert y ih

/-- A way read backwards. -/
theorem reverse (h : Edits xs ys n) : Edits xs.reverse ys.reverse n := by
  induction h with
  | nil => exact .nil
  | keep x _ ih =>
    rw [List.reverse_cons, List.reverse_cons]
    exact ih.append (.keep x .nil)
  | replace x y _ ih =>
    rw [List.reverse_cons, List.reverse_cons]
    exact ih.append (.replace x y .nil)
  | delete x _ ih =>
    rw [List.reverse_cons]
    simpa using ih.append (.delete x .nil)
  | insert y _ ih =>
    rw [List.reverse_cons]
    simpa using ih.append (.insert y .nil)

/-- A change makes a list longer or shorter by one at most. -/
theorem length_le (h : Edits xs ys n) : xs.length ≤ ys.length + n ∧ ys.length ≤ xs.length + n := by
  induction h with
  | nil => exact ⟨le_rfl, le_rfl⟩
  | keep x _ ih => rw [List.length_cons, List.length_cons]; omega
  | replace x y _ ih => rw [List.length_cons, List.length_cons]; omega
  | delete x _ ih => rw [List.length_cons]; omega
  | insert y _ ih => rw [List.length_cons]; omega

/-- **The distance is a lower bound.** -/
theorem editDistance_le [DecidableEq α] (h : Edits xs ys n) : editDistance xs ys ≤ n := by
  induction h with
  | nil => rw [editDistance_nil]; exact le_rfl
  | keep x _ ih =>
    rw [editDistance_cons, if_pos rfl]
    exact (min_le_right _ _).trans ih
  | replace x y _ ih =>
    rw [editDistance_cons]
    refine (min_le_right _ _).trans (add_le_add ih ?_)
    split <;> omega
  | delete x _ ih => exact (editDistance_cons_left_le _ _ _).trans (Nat.succ_le_succ ih)
  | insert y _ ih => exact (editDistance_cons_right_le _ _ _).trans (Nat.succ_le_succ ih)

/-- Everything is inserted. -/
theorem of_nil (ys : List α) : Edits [] ys ys.length := by
  induction ys with
  | nil => exact .nil
  | cons y ys ih => exact .insert y ih

end Edits

section Distance

variable [DecidableEq α]

/-- **The distance is reached.** -/
theorem edits_editDistance (xs ys : List α) : Edits xs ys (editDistance xs ys) := by
  induction xs, ys using editDistance.induct with
  | case1 ys => rw [editDistance_nil]; exact .of_nil ys
  | case2 x xs => rw [editDistance_nil_right]; exact (Edits.of_nil (x :: xs)).symm
  | case3 x xs y ys ihInsert ihDelete ih =>
    rw [editDistance_cons]
    rcases min_choice (min (editDistance (x :: xs) ys + 1) (editDistance xs (y :: ys) + 1))
      (editDistance xs ys + if x = y then 0 else 1) with h | h
    · rw [h]
      rcases min_choice (editDistance (x :: xs) ys + 1) (editDistance xs (y :: ys) + 1) with h | h
      · rw [h]; exact .insert y ihInsert
      · rw [h]; exact .delete x ihDelete
    · rw [h]
      by_cases hxy : x = y
      · subst hxy
        rw [if_pos rfl]
        exact .keep x ih
      · rw [if_neg hxy]
        exact .replace x y ih

/-- **The distance is symmetric.** -/
theorem editDistance_comm (xs ys : List α) : editDistance xs ys = editDistance ys xs :=
  le_antisymm (edits_editDistance ys xs).symm.editDistance_le
    (edits_editDistance xs ys).symm.editDistance_le

/-- **The distance does not depend on the end from which it is counted.** -/
theorem editDistance_reverse (xs ys : List α) :
    editDistance xs.reverse ys.reverse = editDistance xs ys := by
  refine le_antisymm (edits_editDistance xs ys).reverse.editDistance_le ?_
  have h := (edits_editDistance xs.reverse ys.reverse).reverse.editDistance_le
  rwa [List.reverse_reverse, List.reverse_reverse] at h

/-- **The lengths differ by no more than the distance.** -/
theorem length_le_add_editDistance (xs ys : List α) :
    xs.length ≤ ys.length + editDistance xs ys ∧ ys.length ≤ xs.length + editDistance xs ys :=
  (edits_editDistance xs ys).length_le

end Distance

end AzooKey

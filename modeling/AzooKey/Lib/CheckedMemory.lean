import Mathlib.Data.List.Basic
import Mathlib.Tactic

/-!
# Memory with checked accesses

A piece of memory is a list, read with `memory[i]?` and written with `store`; an
access outside of it has no result, so that a program in which one occurs has none
either. The rule for a loop over an interval (`foldlM_range'_eq_some`) takes the
state before each turn as a function of the number of turns.
-/

namespace CheckedMemory

universe u

variable {α α' β : Type u}

/-- Write to a place, if the memory has it. -/
def store (memory : List α) (i : ℕ) (x : α) : Option (List α) :=
  if i < memory.length then some (memory.set i x) else none

/-- Writing behind some elements. -/
theorem store_append (front : List α) (y x : α) (back : List α) :
    store (front ++ y :: back) front.length x = some (front ++ x :: back) := by
  have hlt : front.length < (front ++ y :: back).length := by
    rw [List.length_append, List.length_cons]
    omega
  rw [store, if_pos hlt, List.set_append_right _ _ le_rfl, Nat.sub_self, List.set_cons_zero]

/-- Writing behind some elements, where the rest is all the same. -/
theorem store_append_replicate (front : List α) (y x : α) {i n : ℕ} (hi : i = front.length)
    (hn : 0 < n) (back : List α) :
    store (front ++ (List.replicate n y ++ back)) i x
      = some (front ++ [x] ++ (List.replicate (n - 1) y ++ back)) := by
  obtain ⟨m, rfl⟩ : ∃ m, n = m + 1 := ⟨n - 1, by omega⟩
  rw [hi, List.replicate_succ, List.cons_append, store_append, Nat.add_sub_cancel,
    List.append_assoc, List.singleton_append]

/-- **A loop** whose state is known before each turn. -/
theorem foldlM_range'_eq_some {step : β → ℕ → Option β} (P : ℕ → β) {start n : ℕ}
    (h : ∀ k < n, step (P k) (start + k) = some (P (k + 1))) :
    (List.range' start n).foldlM step (P 0) = some (P n) := by
  induction n with
  | zero => rfl
  | succ n ih =>
    rw [List.range'_concat, List.foldlM_append, ih (fun k hk => h k (Nat.lt_succ_of_lt hk)),
      Nat.one_mul]
    show (step (P n) (start + n) >>= pure) = _
    rw [h n (Nat.lt_succ_self n)]
    rfl

/-- **A loop from zero** whose state is known before each turn. -/
theorem foldlM_range_eq_some {step : β → ℕ → Option β} (P : ℕ → β) {n : ℕ}
    (h : ∀ k < n, step (P k) k = some (P (k + 1))) :
    (List.range n).foldlM step (P 0) = some (P n) := by
  rw [List.range_eq_range']
  exact foldlM_range'_eq_some P (fun k hk => by rw [Nat.zero_add]; exact h k hk)

/-- **A loop over two tables** of one size, read at the same place. -/
theorem foldlM_getElem?_zip (f : β → α → α' → β) {n : ℕ} {xs : List α} {ys : List α'}
    (hxs : xs.length = n) (hys : ys.length = n) (b : β) :
    (List.range n).foldlM (fun b i => do return f b (← xs[i]?) (← ys[i]?)) b
      = some ((xs.zip ys).foldl (fun b xy => f b xy.1 xy.2) b) := by
  have hzip : (xs.zip ys).length = n := by rw [List.length_zip, hxs, hys, Nat.min_self]
  have hloop : (List.range n).foldlM (fun b i => do return f b (← xs[i]?) (← ys[i]?)) b
      = some (((xs.zip ys).take n).foldl (fun b xy => f b xy.1 xy.2) b) := by
    refine foldlM_range_eq_some (fun i => ((xs.zip ys).take i).foldl (fun b xy => f b xy.1 xy.2) b)
      (fun i hi => ?_)
    rw [List.take_succ_eq_append_getElem (by rwa [hzip]), List.foldl_append, List.getElem_zip,
      List.getElem?_eq_getElem (by rwa [hxs]), List.getElem?_eq_getElem (by rwa [hys])]
    rfl
  rw [hloop, List.take_of_length_le (le_of_eq hzip)]

end CheckedMemory

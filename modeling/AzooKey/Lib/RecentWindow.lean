import Mathlib.Data.List.DropRight
import Mathlib.Tactic

/-!
# The last keys that were new

A window of at most `n` distinct keys, the oldest first. A key that is in the
window is refused; one that is not is accepted and put at the end, and the oldest
keys leave while there are too many. What a run leaves in the window is the end of
what it accepted (`keys_run`), so a key is refused exactly when it is one of the
last `n` accepted ones, and among `n` more accepted keys a key is not accepted
again (`not_mem_accepted`).
-/

variable {α : Type*}

/-- **At most `n` distinct keys**, the oldest first. -/
structure RecentWindow (α : Type*) (n : ℕ) where
  keys : List α
  nodup : keys.Nodup
  length_le : keys.length ≤ n

namespace RecentWindow

variable {n : ℕ}

/-- No key. -/
def empty : RecentWindow α n := ⟨[], .nil, Nat.zero_le n⟩

/-- The end of a list has no more elements than asked for. -/
theorem length_rtake_le (l : List α) (n : ℕ) : (l.rtake n).length ≤ n := by
  rw [List.rtake, List.length_drop]
  omega

/-- The end of a list is what is left when the front is taken off. -/
theorem rtake_suffix (l : List α) (n : ℕ) : l.rtake n <:+ l := List.drop_suffix _ _

/-- The end of a list that begins with an end. -/
theorem rtake_append_rtake (l m : List α) (n : ℕ) : (l.rtake n ++ m).rtake n = (l ++ m).rtake n := by
  rw [List.rtake, List.rtake, List.rtake, ← List.drop_append_of_le_length (by omega),
    List.drop_drop]
  congr 1
  rw [List.length_drop, List.length_append]
  omega

/-- Of a list in which what satisfies a condition comes first, the first ones that do. -/
theorem filter_take {p : α → Bool} {l : List α} (hl : l.Pairwise (fun a b => p b → p a)) (n : ℕ) :
    (l.take n).filter p = (l.filter p).take n := by
  induction l generalizing n with
  | nil => rw [List.take_nil, List.filter_nil, List.take_nil]
  | cons a l ih =>
    obtain ⟨ha, hrest⟩ := List.pairwise_cons.mp hl
    cases n with
    | zero => rfl
    | succ n =>
      by_cases hp : p a = true
      · rw [List.take_succ_cons, List.filter_cons_of_pos hp, List.filter_cons_of_pos hp,
          List.take_succ_cons, ih hrest]
      · have hnone : l.filter p = [] :=
          List.filter_eq_nil_iff.mpr (fun b hb hpb => hp (ha b hb hpb))
        rw [List.take_succ_cons, List.filter_cons_of_neg hp, List.filter_cons_of_neg hp, ih hrest,
          hnone, List.take_nil, List.take_nil]

/-- **Of a list in which what satisfies a condition comes last**, the last ones that do. -/
theorem filter_rtake {p : α → Bool} {l : List α} (hl : l.Pairwise (fun a b => p a → p b)) (n : ℕ) :
    (l.rtake n).filter p = (l.filter p).rtake n := by
  rw [List.rtake_eq_reverse_take_reverse, List.rtake_eq_reverse_take_reverse, List.filter_reverse,
    filter_take (List.pairwise_reverse.mpr hl), ← List.filter_reverse]

variable [DecidableEq α]

/-- Add a key that is not there, and keep the last `n`. -/
def push (w : RecentWindow α n) (key : α) (h : key ∉ w.keys) : RecentWindow α n where
  keys := (w.keys ++ [key]).rtake n
  nodup := (List.nodup_append.mpr ⟨w.nodup, List.nodup_singleton key, fun _ ha _ hb heq =>
    h (List.mem_singleton.mp hb ▸ heq ▸ ha)⟩).sublist (rtake_suffix _ _).sublist
  length_le := length_rtake_le _ _

omit [DecidableEq α] in
/-- The keys after adding one. -/
theorem keys_push (w : RecentWindow α n) {key : α} (h : key ∉ w.keys) :
    (w.push key h).keys = (w.keys ++ [key]).rtake n := rfl

/-- **Offer a key**: whether it is accepted, and the window after. -/
def offer (w : RecentWindow α n) (key : α) : Bool × RecentWindow α n :=
  if h : key ∈ w.keys then (false, w) else (true, w.push key h)

/-- The window after offering one key after the other. -/
def run (w : RecentWindow α n) (offered : List α) : RecentWindow α n :=
  offered.foldl (fun w key => (w.offer key).2) w

/-- The offered keys that are accepted. -/
def accepted (w : RecentWindow α n) : List α → List α
  | [] => []
  | key :: offered =>
    if (w.offer key).1 then key :: accepted (w.offer key).2 offered
    else accepted (w.offer key).2 offered

/-- A key in the window changes nothing. -/
theorem offer_of_mem {w : RecentWindow α n} {key : α} (h : key ∈ w.keys) :
    w.offer key = (false, w) := dif_pos h

/-- A key that is not there is added. -/
theorem offer_of_not_mem {w : RecentWindow α n} {key : α} (h : key ∉ w.keys) :
    w.offer key = (true, w.push key h) := dif_neg h

/-- **What is refused** is what is there. -/
theorem offer_eq_false_iff {w : RecentWindow α n} {key : α} :
    (w.offer key).1 = false ↔ key ∈ w.keys := by
  by_cases h : key ∈ w.keys
  · rw [offer_of_mem h]
    exact iff_of_true rfl h
  · rw [offer_of_not_mem h]
    exact iff_of_false (by simp) h

/-- **A run leaves the end of what it accepted.** -/
theorem keys_run (w : RecentWindow α n) (offered : List α) :
    (w.run offered).keys = (w.keys ++ w.accepted offered).rtake n := by
  induction offered generalizing w with
  | nil =>
    show w.keys = (w.keys ++ []).rtake n
    rw [List.append_nil, List.rtake, Nat.sub_eq_zero_of_le w.length_le, List.drop_zero]
  | cons key offered ih =>
    show ((w.offer key).2.run offered).keys = _
    rw [ih, accepted]
    by_cases h : key ∈ w.keys
    · rw [offer_of_mem h]
      rfl
    · rw [offer_of_not_mem h, if_pos rfl]
      show ((w.keys ++ [key]).rtake n ++ _).rtake n = _
      rw [rtake_append_rtake, List.append_assoc, List.singleton_append]

/-- **A key is not accepted again** among the next `n` accepted keys. -/
theorem not_mem_accepted {w : RecentWindow α n} {key : α} {front back : List α}
    (hkeys : w.keys = front ++ key :: back) {offered : List α}
    (hfew : (back ++ w.accepted offered).length ≤ n) : key ∉ w.accepted offered := by
  induction offered generalizing w front back with
  | nil => exact List.not_mem_nil
  | cons next offered ih =>
    rw [accepted] at hfew ⊢
    by_cases h : next ∈ w.keys
    · rw [offer_of_mem h] at hfew ⊢
      exact ih hkeys hfew
    · rw [offer_of_not_mem h, if_pos rfl] at hfew ⊢
      have hne : key ≠ next := by
        rintro rfl
        exact h (hkeys ▸ List.mem_append_right _ List.mem_cons_self)
      rw [List.mem_cons, not_or]
      refine ⟨hne, ?_⟩
      by_cases hlast : (w.push next h).accepted offered = []
      · rw [hlast]
        exact List.not_mem_nil
      -- more are accepted, so the key is not the one that leaves for the next one
      have hmore := List.length_pos_iff.mpr hlast
      have hdrop : (w.keys ++ [next]).length - n ≤ front.length := by
        have hbelow : back.length + (((w.push next h).accepted offered).length + 1) ≤ n := by
          rw [List.length_append, List.length_cons] at hfew
          exact hfew
        rw [hkeys, List.length_append, List.length_append, List.length_cons,
          List.length_singleton]
        omega
      have hkeys' : (w.push next h).keys
          = front.drop ((w.keys ++ [next]).length - n) ++ key :: (back ++ [next]) := by
        show (w.keys ++ [next]).drop _ = _
        rw [← List.drop_append_of_le_length hdrop, hkeys, List.append_assoc, List.cons_append]
      refine ih hkeys' ?_
      rw [List.append_assoc, List.singleton_append]
      exact hfew

end RecentWindow

import Mathlib

/-!
# Binary search

The first place of an interval at which a predicate fails, found by halving.
The predicate has to hold on an initial part of the interval only; then the
search splits the interval into that part and the rest.
-/

namespace BinarySearch

/-- The first place from `low` on, and before `high`, at which `before` fails. -/
def partitionPoint (before : ℕ → Bool) (low high : ℕ) : ℕ :=
  if low < high then
    let mid := low + (high - low) / 2
    if before mid then partitionPoint before (mid + 1) high else partitionPoint before low mid
  else low
termination_by high - low
decreasing_by all_goals omega

/-- **The search splits the interval.** -/
theorem partitionPoint_spec {before : ℕ → Bool} {low high : ℕ} (hle : low ≤ high)
    (hbefore : ∀ i j, i ≤ j → j < high → before j = true → before i = true) :
    low ≤ partitionPoint before low high ∧ partitionPoint before low high ≤ high
      ∧ (∀ i, low ≤ i → i < partitionPoint before low high → before i = true)
      ∧ ∀ i, partitionPoint before low high ≤ i → i < high → before i = false := by
  fun_induction partitionPoint before low high with
  | case1 low high hlt mid hmid ih =>
    have hmidLt : mid < high := by omega
    obtain ⟨hlow, hhigh, hleft, hright⟩ := ih (by omega) hbefore
    refine ⟨by omega, hhigh, fun i hi hi' => ?_, hright⟩
    by_cases hcase : i ≤ mid
    · exact hbefore i mid hcase hmidLt hmid
    · exact hleft i (by omega) hi'
  | case2 low high hlt mid hmid ih =>
    have hmidLt : mid < high := by omega
    obtain ⟨hlow, hhigh, hleft, hright⟩ :=
      ih (by omega) (fun i j hij hj => hbefore i j hij (by omega))
    refine ⟨hlow, by omega, hleft, fun i hi hi' => ?_⟩
    by_cases hcase : i < mid
    · exact hright i hi hcase
    · rw [Bool.eq_false_iff]
      exact fun htrue => hmid (hbefore mid i (by omega) hi' htrue)
  | case3 low high hlt =>
    exact ⟨Nat.le_refl low, hle, fun i hi hi' => absurd hi' (by omega), fun i hi hi' => by omega⟩

/-- The search with a number of rounds that it may take and a predicate that may fail:
it answers nothing when it runs out of rounds, or asks what cannot be answered. -/
def rounds (before : ℕ → Option Bool) : ℕ → ℕ → ℕ → Option ℕ
  | 0, low, high => if low < high then none else some low
  | fuel + 1, low, high =>
    if low < high then
      let mid := low + (high - low) / 2
      (before mid).bind fun smaller =>
        if smaller then rounds before fuel (mid + 1) high else rounds before fuel low mid
    else some low

/-- **The search ends**: each round halves the interval, and asks about places in it
only. -/
theorem rounds_eq {before : ℕ → Option Bool} {p : ℕ → Bool} {fuel low high : ℕ}
    (hfuel : high - low < 2 ^ fuel) (hp : ∀ i, low ≤ i → i < high → before i = some (p i)) :
    rounds before fuel low high = some (partitionPoint p low high) := by
  induction fuel generalizing low high with
  | zero =>
    have hle : ¬ low < high := by
      rw [Nat.pow_zero] at hfuel
      omega
    rw [rounds, partitionPoint, if_neg hle, if_neg hle]
  | succ fuel ih =>
    rw [rounds, partitionPoint]
    by_cases hlt : low < high
    · rw [Nat.pow_succ] at hfuel
      rw [if_pos hlt, if_pos hlt]
      dsimp only
      rw [hp _ (by omega) (by omega), Option.bind_some]
      by_cases hmid : p (low + (high - low) / 2) = true
      · rw [if_pos hmid, if_pos hmid]
        exact ih (by omega) (fun i hi hi' => hp i (by omega) hi')
      · rw [if_neg hmid, if_neg hmid]
        exact ih (by omega) (fun i hi hi' => hp i hi (by omega))
    · rw [if_neg hlt, if_neg hlt]

end BinarySearch

import AzooKey.Lib.Binary64

/-!
# The order of the values of the format

The comparisons of the format are those of a linear order, in which the numbers
lie between the infinities, as long as NaN is not compared (`ieeeLt_iff`,
`ieeeEq_iff`).
-/

namespace Double

/-- The place of a value in the order. -/
def rank : Double → WithBot (WithTop ℚ)
  | finite b => ((b.toRat : WithTop ℚ) : WithBot (WithTop ℚ))
  | infinity false => ((⊤ : WithTop ℚ) : WithBot (WithTop ℚ))
  | infinity true => ⊥
  | nan => ⊥

/-- **`<` is the order of the places.** -/
theorem ieeeLt_iff {a b : Double} : ieeeLt a b = true ↔ a ≠ nan ∧ b ≠ nan ∧ rank a < rank b := by
  cases a with
  | nan => cases b <;> simp [ieeeLt]
  | infinity m =>
    cases b with
    | nan => simp [ieeeLt]
    | infinity n => cases m <;> cases n <;> simp [ieeeLt, rank]
    | finite b => cases m <;> simp [ieeeLt, rank]
  | finite a =>
    cases b with
    | nan => simp [ieeeLt]
    | infinity n =>
      cases n with
      | true => simp [ieeeLt, rank]
      | false =>
        have htop : ((a.toRat : WithTop ℚ) : WithBot (WithTop ℚ)) < ((⊤ : WithTop ℚ) : WithBot _) :=
          WithBot.coe_lt_coe.mpr (WithTop.coe_lt_top _)
        exact iff_of_true rfl ⟨Double.noConfusion, Double.noConfusion, htop⟩
    | finite b => simp [ieeeLt, rank]

/-- **`==` is equality of the places.** -/
theorem ieeeEq_iff {a b : Double} : ieeeEq a b = true ↔ a ≠ nan ∧ b ≠ nan ∧ rank a = rank b := by
  cases a with
  | nan => cases b <;> simp [ieeeEq]
  | infinity m =>
    cases b with
    | nan => simp [ieeeEq]
    | infinity n => cases m <;> cases n <;> simp [ieeeEq, rank]
    | finite b => cases m <;> simp [ieeeEq, rank]
  | finite a =>
    cases b with
    | nan => simp [ieeeEq]
    | infinity n => cases n <;> simp [ieeeEq, rank]
    | finite b => simp [ieeeEq, rank]

/-- `<=` among numbers. -/
theorem ieeeLe_iff {a b : Double} : ieeeLe a b = true ↔ a ≠ nan ∧ b ≠ nan ∧ rank a ≤ rank b := by
  unfold ieeeLe
  rw [Bool.or_eq_true, ieeeLt_iff, ieeeEq_iff, le_iff_lt_or_eq]
  tauto

end Double

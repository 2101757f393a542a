import Mathlib

/-!
# Runs of a partial step function

A system that takes inputs one after the other is a step function
`step : σ → ι → Option σ`, where `none` is a step that goes wrong. `Always`
says of a whole run that no step goes wrong and that each satisfies a
relation between the state before, the input and the state after; `Guarded`
says that each step the run takes starts where it should.

The rule is the usual one: what one step gives from an invariant, every run
gives (`always_of_guarded`).
-/

namespace Run

variable {σ ι : Type*} (step : σ → ι → Option σ)

/-- **Every step of the run is taken and satisfies `R`.** -/
def Always (R : σ → ι → σ → Prop) : σ → List ι → Prop
  | _, [] => True
  | s, i :: l => ∃ s', step s i = some s' ∧ R s i s' ∧ Always R s' l

/-- Every step that the run takes is taken where `P` holds. -/
def Guarded (P : σ → ι → Prop) : σ → List ι → Prop
  | _, [] => True
  | s, i :: l => P s i ∧ ∀ s', step s i = some s' → Guarded P s' l

variable {step}

/-- A run can be checked for its guard by running it. -/
instance decidableGuarded {P : σ → ι → Prop} [∀ s i, Decidable (P s i)] :
    ∀ (s : σ) (l : List ι), Decidable (Guarded step P s l)
  | _, [] => isTrue trivial
  | s, i :: l =>
    match h : step s i with
    | none => decidable_of_iff (P s i) (by simp [Guarded, h])
    | some s' =>
      have := decidableGuarded (P := P) s' l
      decidable_of_iff (P s i ∧ Guarded step P s' l) (by simp [Guarded, h])

/-- **The invariant rule.** If from the invariant every guarded step is taken,
satisfies `R` and keeps the invariant, then every guarded run satisfies `R`
throughout. -/
theorem always_of_guarded {I : σ → Prop} {P : σ → ι → Prop} {R : σ → ι → σ → Prop}
    (hstep : ∀ s i, I s → P s i → ∃ s', step s i = some s' ∧ R s i s' ∧ I s')
    {s : σ} (hs : I s) {l : List ι} (hl : Guarded step P s l) : Always step R s l := by
  induction l generalizing s with
  | nil => exact trivial
  | cons i l ih =>
    obtain ⟨s', htake, hR, hI⟩ := hstep s i hs hl.1
    exact ⟨s', htake, hR, ih hI (hl.2 s' htake)⟩

/-- **The invariant rule without a guard.** -/
theorem always_of_step {I : σ → Prop} {R : σ → ι → σ → Prop}
    (hstep : ∀ s i, I s → ∃ s', step s i = some s' ∧ R s i s' ∧ I s')
    {s : σ} (hs : I s) (l : List ι) : Always step R s l := by
  induction l generalizing s with
  | nil => exact trivial
  | cons i l ih =>
    obtain ⟨s', htake, hR, hI⟩ := hstep s i hs
    exact ⟨s', htake, hR, ih hI⟩

/-- A run whose steps all satisfy `R` is guarded by what `R` implies. -/
theorem guarded_of_always {I : σ → Prop} {P : σ → ι → Prop} {R : σ → ι → σ → Prop}
    (hstep : ∀ s i s', I s → step s i = some s' → R s i s' → P s i ∧ I s')
    {s : σ} (hs : I s) {l : List ι} (hl : Always step R s l) : Guarded step P s l := by
  induction l generalizing s with
  | nil => exact trivial
  | cons i l ih =>
    obtain ⟨s', htake, hR, hrest⟩ := hl
    obtain ⟨hP, hI⟩ := hstep s i s' hs htake hR
    refine ⟨hP, fun t ht => ?_⟩
    obtain rfl := Option.some.inj (htake.symm.trans ht)
    exact ih hI hrest

/-- **Reachability.** An invariant that every step takes and keeps holds at the
end of every run, and every run reaches its end. -/
theorem exists_foldlM {I : σ → Prop}
    (hstep : ∀ s i, I s → ∃ s', step s i = some s' ∧ I s')
    {s : σ} (hs : I s) (l : List ι) : ∃ s', l.foldlM step s = some s' ∧ I s' := by
  induction l generalizing s with
  | nil => exact ⟨s, rfl, hs⟩
  | cons i l ih =>
    obtain ⟨t, htake, ht⟩ := hstep s i hs
    obtain ⟨s', hrest, hs'⟩ := ih ht
    refine ⟨s', ?_, hs'⟩
    rw [List.foldlM_cons, htake]
    exact hrest

end Run

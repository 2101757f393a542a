import Mathlib.Data.List.Forall2

/-!
# Systems that answer

A system that answers each input is a step function `step : σ → ι → σ × ο`, and
`run` feeds it one input after the other and collects the answers. The rule for two
runs is the one for a bisimulation: if related inputs in related states lead to
related states with related answers, then so do related sequences of inputs
(`run_related`).
-/

namespace Mealy

variable {σ ι ο : Type*} (step : σ → ι → σ × ο)

/-- The last state of a run, and its answers. -/
def run : σ → List ι → σ × List ο
  | s, [] => (s, [])
  | s, i :: l => ((run (step s i).1 l).1, (step s i).2 :: (run (step s i).1 l).2)

/-- A run after a run. -/
theorem run_append (s : σ) (l m : List ι) :
    run step s (l ++ m) = ((run step (run step s l).1 m).1,
      (run step s l).2 ++ (run step (run step s l).1 m).2) := by
  induction l generalizing s with
  | nil => rfl
  | cons i l ih =>
    rw [List.cons_append, run, ih]
    rfl

/-- The last state of a run with one input more. -/
theorem run_concat (s : σ) (l : List ι) (i : ι) :
    (run step s (l ++ [i])).1 = (step (run step s l).1 i).1 := by
  rw [run_append]
  rfl

variable {step}

/-- **Two runs.** Related inputs in related states give related answers. -/
theorem run_related {τ κ ρ : Type*} {step' : τ → κ → τ × ρ} {R : σ → τ → Prop} {A : ι → κ → Prop}
    {O : ο → ρ → Prop}
    (hstep : ∀ s t i k, R s t → A i k →
      R (step s i).1 (step' t k).1 ∧ O (step s i).2 (step' t k).2)
    {s : σ} {t : τ} (hs : R s t) {l : List ι} {m : List κ} (hl : List.Forall₂ A l m) :
    R (run step s l).1 (run step' t m).1 ∧ List.Forall₂ O (run step s l).2 (run step' t m).2 := by
  induction hl generalizing s t with
  | nil => exact ⟨hs, .nil⟩
  | cons hik _ ih =>
    obtain ⟨hnext, hanswer⟩ := hstep _ _ _ _ hs hik
    obtain ⟨hlast, hanswers⟩ := ih hnext
    exact ⟨hlast, .cons hanswer hanswers⟩

/-- **An invariant** that every step keeps holds at the end of every run. -/
theorem run_invariant {I : σ → Prop} (hstep : ∀ s i, I s → I (step s i).1) {s : σ} (hs : I s)
    (l : List ι) : I (run step s l).1 := by
  induction l generalizing s with
  | nil => exact hs
  | cons i l ih => exact ih (hstep s i hs)

end Mealy

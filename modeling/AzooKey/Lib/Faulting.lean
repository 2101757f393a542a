import Mathlib

/-!
# Programs that may fault

A program over a state that answers a value and the next state, or faults:
`StateT σ Option`. A fault stands for what a program must never do, such as
a read outside of its memory, and a program that reaches one has no result.

`Yields m s Q` says that `m` runs from `s` without a fault and that its answer
and its last state satisfy `Q`. It is a triple of total correctness with the
starting state written out, and has the usual rules: `Yields.pure`,
`Yields.bind`, `Yields.imp`, and a rule with an invariant for each of the two
loops, `List.foldlM` and `foldUntil`, the loop with an early exit. Of a loop over
the numbers of an interval `foldUntil_range'_eq_some` tells what it went through.
-/

/-- **A program over a state that may fault.** -/
abbrev Faulting (σ : Type) := StateT σ Option

namespace Faulting

variable {σ α β : Type}

/-- **The program runs without a fault, and its result satisfies `Q`.** -/
def Yields (m : Faulting σ α) (s : σ) (Q : α → σ → Prop) : Prop :=
  ∃ a s', m s = some (a, s') ∧ Q a s'

/-- One program after another. -/
theorem bind_apply (m : Faulting σ α) (f : α → Faulting σ β) (s : σ) :
    (m >>= f) s = (m s).bind (fun r => f r.1 r.2) := rfl

/-- A program after one that ran. -/
theorem bind_of_eq_some {m : Faulting σ α} {f : α → Faulting σ β} {s s' : σ} {a : α}
    (h : m s = some (a, s')) : (m >>= f) s = f a s' := by
  rw [bind_apply, h, Option.bind_some]

/-- **What a sequence ran through.** -/
theorem exists_of_bind {m : Faulting σ α} {f : α → Faulting σ β} {s : σ} {r : β × σ}
    (h : (m >>= f) s = some r) : ∃ a s', m s = some (a, s') ∧ f a s' = some r := by
  rw [bind_apply] at h
  obtain ⟨⟨a, s'⟩, hm, hf⟩ := Option.bind_eq_some_iff.mp h
  exact ⟨a, s', hm, hf⟩

section Yields

variable {m : Faulting σ α} {s : σ} {Q R : α → σ → Prop}

/-- An answer. -/
theorem Yields.pure {a : α} (h : Q a s) : Yields (Pure.pure a) s Q := ⟨a, s, rfl, h⟩

/-- A weaker condition. -/
theorem Yields.imp (h : Yields m s Q) (himp : ∀ a s', Q a s' → R a s') : Yields m s R := by
  obtain ⟨a, s', hm, hQ⟩ := h
  exact ⟨a, s', hm, himp a s' hQ⟩

/-- **One program after another.** -/
theorem Yields.bind {f : α → Faulting σ β} {R : β → σ → Prop} (h : Yields m s Q)
    (hf : ∀ a s', Q a s' → Yields (f a) s' R) : Yields (m >>= f) s R := by
  obtain ⟨a, s', hm, hQ⟩ := h
  obtain ⟨b, s'', hb, hR⟩ := hf a s' hQ
  exact ⟨b, s'', (bind_of_eq_some hm).trans hb, hR⟩

/-- A program after one that is known to answer. -/
theorem Yields.after {f : α → Faulting σ β} {R : β → σ → Prop} {a : α} {s' : σ}
    (hm : m s = some (a, s')) (hf : Yields (f a) s' R) : Yields (m >>= f) s R := by
  obtain ⟨b, s'', hb, hR⟩ := hf
  exact ⟨b, s'', (bind_of_eq_some hm).trans hb, hR⟩

end Yields

/-- **A loop that keeps an invariant.** -/
theorem Yields.foldlM {f : α → β → Faulting σ α} {P : α → σ → Prop} {xs : List β}
    (hstep : ∀ a, ∀ x ∈ xs, ∀ s, P a s → Yields (f a x) s P) {a : α} {s : σ} (h : P a s) :
    Yields (xs.foldlM f a) s P := by
  induction xs generalizing a s with
  | nil => exact .pure h
  | cons x xs ih =>
    rw [List.foldlM_cons]
    refine (hstep a x List.mem_cons_self s h).bind (fun a' s' h' => ?_)
    exact ih (fun b y hy => hstep b y (List.mem_cons_of_mem _ hy)) h'

/-- **A loop with an early exit**: a round that answers nothing ends it. -/
def foldUntil (f : α → β → Faulting σ (Option α)) : List β → α → Faulting σ (Option α)
  | [], a => pure (some a)
  | x :: xs, a => f a x >>= fun r => r.elim (pure none) (foldUntil f xs)

/-- A loop over two lists. -/
theorem foldUntil_append {f : α → β → Faulting σ (Option α)} {xs ys : List β} {a b : α} {s s' : σ}
    (h : foldUntil f xs a s = some (some b, s')) :
    foldUntil f (xs ++ ys) a s = foldUntil f ys b s' := by
  induction xs generalizing a s with
  | nil =>
    cases h
    rfl
  | cons x xs ih =>
    obtain ⟨r, s₁, hr, hrest⟩ := exists_of_bind h
    cases r with
    | none => cases hrest
    | some a' =>
      rw [List.cons_append, foldUntil, bind_of_eq_some hr]
      exact ih hrest

/-- **A loop with an early exit that keeps an invariant**, up to the exit. -/
theorem Yields.foldUntil {f : α → β → Faulting σ (Option α)} {P : α → σ → Prop} {E : σ → Prop}
    {xs : List β}
    (hstep : ∀ a, ∀ x ∈ xs, ∀ s, P a s →
      Yields (f a x) s (fun r s' => r.elim (E s') (fun a' => P a' s')))
    {a : α} {s : σ} (h : P a s) :
    Yields (foldUntil f xs a) s (fun r s' => r.elim (E s') (fun a' => P a' s')) := by
  induction xs generalizing a s with
  | nil => exact .pure h
  | cons x xs ih =>
    refine (hstep a x List.mem_cons_self s h).bind (fun r s' h' => ?_)
    cases r with
    | none => exact .pure h'
    | some a' => exact ih (fun b y hy => hstep b y (List.mem_cons_of_mem _ hy)) h'

/-- **What a loop that ran to its end went through**: an invariant over the
rounds that are done. -/
theorem foldUntil_eq_some {f : α → β → Faulting σ (Option α)} {P : List β → α → σ → Prop}
    {xs : List β}
    (hstep : ∀ done a x s a' s', x ∈ xs → P done a s → f a x s = some (some a', s') →
      P (done ++ [x]) a' s')
    {a b : α} {s s' : σ} (hP : P [] a s)
    (h : foldUntil f xs a s = some (some b, s')) : P xs b s' := by
  have hgo : ∀ (todo done : List β) (a : α) (s : σ), (∀ x ∈ todo, x ∈ xs) → P done a s →
      foldUntil f todo a s = some (some b, s') → P (done ++ todo) b s' := by
    intro todo
    induction todo with
    | nil =>
      intro done a s _ hP h
      cases h
      rwa [List.append_nil]
    | cons x todo ih =>
      intro done a s htodo hP h
      obtain ⟨r, s₁, hr, hrest⟩ := exists_of_bind h
      cases r with
      | none => cases hrest
      | some a' =>
        have hx := hstep done a x s a' s₁ (htodo x List.mem_cons_self) hP hr
        have hnext := ih (done ++ [x]) a' s₁ (fun y hy => htodo y (List.mem_cons_of_mem _ hy)) hx
          hrest
        rwa [List.append_assoc] at hnext
  exact hgo xs [] a s (fun _ hx => hx) hP h

/-! ## Counted loops -/

/-- **What a counted loop that ran to its end went through.** -/
theorem foldUntil_range'_eq_some {f : α → ℕ → Faulting σ (Option α)} {P : ℕ → α → σ → Prop}
    {start n : ℕ}
    (hstep : ∀ i a s a' s', start ≤ i → i < start + n → P i a s → f a i s = some (some a', s') →
      P (i + 1) a' s')
    {a b : α} {s s' : σ} (hP : P start a s)
    (h : foldUntil f (List.range' start n) a s = some (some b, s')) : P (start + n) b s' := by
  induction n generalizing start a s with
  | zero =>
    cases h
    exact hP
  | succ n ih =>
    rw [List.range'_succ] at h
    obtain ⟨r, s₁, hr, hrest⟩ := exists_of_bind h
    cases r with
    | none => cases hrest
    | some a' =>
      have hnext := hstep start a s a' s₁ le_rfl (by omega) hP hr
      have hend := ih (fun i a s a' s' hi hi' => hstep i a s a' s' (by omega) (by omega)) hnext hrest
      rwa [show start + 1 + n = start + (n + 1) by omega] at hend

/-- **A counted loop whose rounds are known** runs to its end. -/
theorem foldUntil_range'_apply {f : α → ℕ → Faulting σ (Option α)} {g : ℕ → α} {start n : ℕ}
    {s : σ}
    (hstep : ∀ i, start ≤ i → i < start + n → f (g i) i s = some (some (g (i + 1)), s)) :
    foldUntil f (List.range' start n) (g start) s = some (some (g (start + n)), s) := by
  induction n generalizing start with
  | zero => rfl
  | succ n ih =>
    rw [List.range'_succ, foldUntil, bind_of_eq_some (hstep start le_rfl (by omega))]
    show foldUntil f (List.range' (start + 1) n) (g (start + 1)) s = _
    rw [ih (fun i hi hi' => hstep i (by omega) (by omega)),
      show start + 1 + n = start + (n + 1) by omega]

end Faulting

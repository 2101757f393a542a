import Mathlib

/-!
# Programs that call an environment

A program that does its work through operations, each of which the environment
answers: a tree whose nodes are calls, with one branch for each answer. What
an operation does to the state is a relation `effect`, so that an environment
may fail an operation, or answer it in several ways.

`Runs` are the executions, with every state that they go through. An execution
may stop at any point, as a process does that is killed, and what it leaves
behind is the last state. `Safe I Q` is the condition on the tree under which
all states of all executions satisfy `I` and all results satisfy `Q`; its
rules are `Safe.bind` for sequences and `Safe.runs` for executions.
-/

/-- **A program that calls operations.** -/
inductive Interactive (Op : Type) (Answer : Op → Type) (α : Type)
  | done (a : α)
  | call (op : Op) (k : Answer op → Interactive Op Answer α)

namespace Interactive

variable {Op : Type} {Answer : Op → Type} {α β σ : Type}

/-- One program after another. -/
def bind : Interactive Op Answer α → (α → Interactive Op Answer β) → Interactive Op Answer β
  | done a, f => f a
  | call op k, f => call op (fun answer => (k answer).bind f)

instance : Monad (Interactive Op Answer) where
  pure := done
  bind := bind

/-- One operation. -/
def ask (op : Op) : Interactive Op Answer (Answer op) := call op done

/-- **The executions of a program**: the states that they go through, the first
one included, and the result unless they stop before. -/
inductive Runs (effect : (op : Op) → σ → Answer op → σ → Prop) :
    Interactive Op Answer α → σ → List σ → Option α → Prop
  | stop (p : Interactive Op Answer α) (s : σ) : Runs effect p s [s] none
  | done (a : α) (s : σ) : Runs effect (.done a) s [s] (some a)
  | call {op : Op} {k : Answer op → Interactive Op Answer α} {s s' : σ} {answer : Answer op}
      {trace : List σ} {r : Option α} :
      effect op s answer s' → Runs effect (k answer) s' trace r →
        Runs effect (.call op k) s (s :: trace) r

variable {effect : (op : Op) → σ → Answer op → σ → Prop}

/-- **All states on the way satisfy `I`, and all results satisfy `Q`.** -/
def Safe (effect : (op : Op) → σ → Answer op → σ → Prop) (I : σ → Prop) (Q : α → σ → Prop) :
    Interactive Op Answer α → σ → Prop
  | done a, s => I s ∧ Q a s
  | call op k, s => I s ∧ ∀ answer s', effect op s answer s' → Safe effect I Q (k answer) s'

section Safe

variable {I : σ → Prop} {Q : α → σ → Prop} {p : Interactive Op Answer α} {s : σ}

/-- The first state is one of them. -/
theorem Safe.here (h : Safe effect I Q p s) : I s := by
  cases p with
  | done a => exact h.1
  | call op k => exact h.1

/-- A result. -/
theorem Safe.pure {a : α} (hI : I s) (hQ : Q a s) :
    Safe effect I Q (Pure.pure a : Interactive Op Answer α) s := ⟨hI, hQ⟩

/-- **An operation.** -/
theorem Safe.ask {op : Op} {Q : Answer op → σ → Prop} (hI : I s)
    (h : ∀ answer s', effect op s answer s' → I s' ∧ Q answer s') :
    Safe effect I Q (ask op) s := ⟨hI, h⟩

/-- Weaker results. -/
theorem Safe.imp {R : α → σ → Prop} (h : Safe effect I Q p s)
    (himp : ∀ a s', I s' → Q a s' → R a s') : Safe effect I R p s := by
  induction p generalizing s with
  | done a => exact ⟨h.1, himp a s h.1 h.2⟩
  | call op k ih => exact ⟨h.1, fun answer s' heffect => ih answer (h.2 answer s' heffect)⟩

/-- A weaker condition on the way. -/
theorem Safe.mono {J : σ → Prop} (h : Safe effect I Q p s) (hIJ : ∀ s', I s' → J s') :
    Safe effect J Q p s := by
  induction p generalizing s with
  | done a => exact ⟨hIJ s h.1, h.2⟩
  | call op k ih =>
    exact ⟨hIJ s h.1, fun answer s' heffect => ih answer (h.2 answer s' heffect)⟩

/-- **One program after another.** -/
theorem Safe.bind {f : α → Interactive Op Answer β} {R : β → σ → Prop}
    (h : Safe effect I Q p s) (hf : ∀ a s', I s' → Q a s' → Safe effect I R (f a) s') :
    Safe effect I R (p >>= f) s := by
  induction p generalizing s with
  | done a => exact hf a s h.1 h.2
  | call op k ih => exact ⟨h.1, fun answer s' heffect => ih answer (h.2 answer s' heffect)⟩

/-- **What holds of the tree holds of its executions.** -/
theorem Safe.runs (h : Safe effect I Q p s) {trace : List σ} {r : Option α}
    (hruns : Runs effect p s trace r) :
    (∀ s' ∈ trace, I s') ∧ ∀ a ∈ r, ∃ last, trace.getLast? = some last ∧ Q a last := by
  induction hruns with
  | stop p s =>
    refine ⟨fun s' hs' => ?_, fun a ha => by cases ha⟩
    rw [List.mem_singleton.mp hs']
    exact h.here
  | done a s =>
    refine ⟨fun s' hs' => ?_, fun b hb => ?_⟩
    · rw [List.mem_singleton.mp hs']
      exact h.1
    · obtain rfl := Option.some.inj hb
      exact ⟨s, rfl, h.2⟩
  | @call op k s s' answer trace r heffect hrest ih =>
    obtain ⟨hall, hresult⟩ := ih (h.2 answer s' heffect)
    refine ⟨fun t ht => ?_, fun a ha => ?_⟩
    · rcases List.mem_cons.mp ht with rfl | ht
      · exact h.1
      · exact hall t ht
    · obtain ⟨last, hlast, hQ⟩ := hresult a ha
      refine ⟨last, ?_, hQ⟩
      rw [List.getLast?_cons, hlast]
      rfl

/-- An environment that does less is as safe. -/
theorem Safe.restrict {effect' : (op : Op) → σ → Answer op → σ → Prop}
    (heffect : ∀ op s answer s', effect' op s answer s' → effect op s answer s')
    (h : Safe effect I Q p s) : Safe effect' I Q p s := by
  induction p generalizing s with
  | done a => exact h
  | call op k ih =>
    exact ⟨h.1, fun answer s' hless => ih answer (h.2 answer s' (heffect op s answer s' hless))⟩

/-- Two conditions at once. -/
theorem Safe.and {R : α → σ → Prop} (h : Safe effect I Q p s) (h' : Safe effect I R p s) :
    Safe effect I (fun a s' => Q a s' ∧ R a s') p s := by
  induction p generalizing s with
  | done a => exact ⟨h.1, h.2, h'.2⟩
  | call op k ih =>
    exact ⟨h.1, fun answer s' heffect => ih answer (h.2 answer s' heffect) (h'.2 answer s' heffect)⟩

/-- A program returns whatever it returns. -/
theorem safe_true (p : Interactive Op Answer α) (s : σ) :
    Safe effect (fun _ => True) (fun _ _ => True) p s := by
  induction p generalizing s with
  | done a => exact ⟨trivial, trivial⟩
  | call op k ih => exact ⟨trivial, fun answer s' _ => ih answer s'⟩

/-- What a program that returned has left. -/
theorem Safe.succeeds {a : α} {P : σ → Prop} (h : Safe effect I (fun b s' => b = a → P s') p s)
    {trace : List σ} {r : Option α} (hruns : Runs effect p s trace r) (hr : r = some a) :
    ∀ s' ∈ trace.getLast?, P s' := by
  intro s' hs'
  obtain ⟨last, hlast, hP⟩ := (h.runs hruns).2 a hr
  rw [hlast] at hs'
  cases hs'
  exact hP rfl

end Safe

/-! ## Larger environments -/

section Lift

variable {Op' : Type} {Answer' : Op' → Type} {σ' : Type}
  {effect' : (op : Op') → σ' → Answer' op → σ' → Prop}

/-- A program in an environment that has its operations among others. -/
def lift (f : Op → Op') (g : ∀ op, Answer' (f op) → Answer op) :
    Interactive Op Answer α → Interactive Op' Answer' α
  | done a => done a
  | call op k => call (f op) (fun answer => lift f g (k (g op answer)))

/-- **The frame rule.** A program that sees a part of the state does to that part
what it does alone, and leaves the rest as it is. -/
theorem Safe.lift {f : Op → Op'} {g : ∀ op, Answer' (f op) → Answer op} (part : σ' → σ)
    (Rest : σ' → σ' → Prop) (hrefl : ∀ t, Rest t t)
    (htrans : ∀ t t₁ t₂, Rest t t₁ → Rest t₁ t₂ → Rest t t₂)
    (heffect : ∀ op t answer t', effect' (f op) t answer t' →
      effect op (part t) (g op answer) (part t') ∧ Rest t t')
    {I : σ → Prop} {Q : α → σ → Prop} {p : Interactive Op Answer α} {t : σ'}
    (h : Safe effect I Q p (part t)) :
    Safe effect' (fun _ => True) (fun a t' => Q a (part t') ∧ Rest t t') (p.lift f g) t := by
  have hfrom : ∀ (p : Interactive Op Answer α) (t₁ : σ'), Rest t t₁ →
      Safe effect I Q p (part t₁) →
        Safe effect' (fun _ => True) (fun a t' => Q a (part t') ∧ Rest t t') (p.lift f g) t₁ := by
    intro p
    induction p with
    | done a => exact fun t₁ hrest h => ⟨trivial, h.2, hrest⟩
    | call op k ih =>
      intro t₁ hrest h
      refine ⟨trivial, fun answer t₂ heff => ?_⟩
      obtain ⟨hpart, hstep⟩ := heffect op t₁ answer t₂ heff
      exact ih (g op answer) t₂ (htrans t t₁ t₂ hrest hstep) (h.2 _ _ hpart)
  exact hfrom p t (hrefl t) h

end Lift

/-- An execution is one of every environment that can answer the same. -/
theorem Runs.mono {effect' : (op : Op) → σ → Answer op → σ → Prop}
    (h : ∀ op s answer s', effect op s answer s' → effect' op s answer s')
    {p : Interactive Op Answer α} {s : σ} {trace : List σ} {r : Option α}
    (hruns : Runs effect p s trace r) : Runs effect' p s trace r := by
  induction hruns with
  | stop p s => exact .stop p s
  | done a s => exact .done a s
  | call heffect _ ih => exact .call (h _ _ _ _ heffect) ih

/-- **An environment that answers every call lets every program end.** -/
theorem exists_runs (htotal : ∀ op s, ∃ answer s', effect op s answer s')
    (p : Interactive Op Answer α) (s : σ) : ∃ trace a, Runs effect p s trace (some a) := by
  induction p generalizing s with
  | done a => exact ⟨[s], a, .done a s⟩
  | call op k ih =>
    obtain ⟨answer, s', heffect⟩ := htotal op s
    obtain ⟨trace, a, hruns⟩ := ih answer s'
    exact ⟨s :: trace, a, .call heffect hruns⟩

end Interactive

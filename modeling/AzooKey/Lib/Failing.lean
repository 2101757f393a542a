import AzooKey.Lib.Interactive

/-!
# Programs that may fail

A program over an environment that ends with a value or with an error. `SafeOr`
is `Safe` with one condition for the values and one for the errors; its rules
are those of sequences (`SafeOr.bind`), of errors and of programs that cannot
fail.
-/

namespace Interactive

variable {Op : Type} {Answer : Op → Type} {α β ε σ : Type}

/-- A program that may fail. -/
abbrev Failing (Op : Type) (Answer : Op → Type) (ε α : Type) := ExceptT ε (Interactive Op Answer) α

/-- One condition for the values and one for the errors. -/
def OnResult (Q : α → σ → Prop) (E : ε → σ → Prop) : Except ε α → σ → Prop
  | .ok a, s => Q a s
  | .error e, s => E e s

/-- **All states on the way satisfy `I`, all values `Q`, and all errors `E`.** -/
def SafeOr (effect : (op : Op) → σ → Answer op → σ → Prop) (I : σ → Prop) (Q : α → σ → Prop)
    (E : ε → σ → Prop) (p : Failing Op Answer ε α) (s : σ) : Prop :=
  Safe effect I (OnResult Q E) p.run s

variable {effect : (op : Op) → σ → Answer op → σ → Prop} {I : σ → Prop} {Q : α → σ → Prop}
  {E : ε → σ → Prop} {s : σ}

/-- A value. -/
theorem SafeOr.pure {a : α} (hI : I s) (hQ : Q a s) :
    SafeOr effect I Q E (Pure.pure a : Failing Op Answer ε α) s := ⟨hI, hQ⟩

/-- An error. -/
theorem SafeOr.throw {e : ε} (hI : I s) (hE : E e s) :
    SafeOr effect I Q E (MonadExcept.throw e : Failing Op Answer ε α) s := ⟨hI, hE⟩

/-- **One program after another.** -/
theorem SafeOr.bind {p : Failing Op Answer ε α} {f : α → Failing Op Answer ε β}
    {R : β → σ → Prop} (h : SafeOr effect I Q E p s)
    (hf : ∀ a s', I s' → Q a s' → SafeOr effect I R E (f a) s') :
    SafeOr effect I R E (p >>= f) s := by
  refine Safe.bind (show Safe effect I (OnResult Q E) p.run s from h) (fun r s' hI hr => ?_)
  cases r with
  | ok a => exact hf a s' hI hr
  | error e => exact ⟨hI, hr⟩

/-- Weaker conditions. -/
theorem SafeOr.imp {p : Failing Op Answer ε α} {R : α → σ → Prop} {E' : ε → σ → Prop}
    (h : SafeOr effect I Q E p s) (hQ : ∀ a s', I s' → Q a s' → R a s')
    (hE : ∀ e s', I s' → E e s' → E' e s') : SafeOr effect I R E' p s := by
  refine Safe.imp (show Safe effect I (OnResult Q E) p.run s from h) (fun r s' hI hr => ?_)
  cases r with
  | ok a => exact hQ a s' hI hr
  | error e => exact hE e s' hI hr

/-- A program that cannot fail. -/
theorem SafeOr.lift {p : Interactive Op Answer α} (h : Safe effect I Q p s) :
    SafeOr effect I Q E (ExceptT.lift p : Failing Op Answer ε α) s := by
  show Safe effect I (OnResult Q E) (Except.ok <$> p) s
  exact Safe.bind h (fun a s' hI hQ => .pure hI hQ)

/-- An operation that answers with a value or with an error. -/
theorem SafeOr.mk {p : Interactive Op Answer (Except ε α)} (h : Safe effect I (OnResult Q E) p s) :
    SafeOr effect I Q E (ExceptT.mk p) s := h

/-- A program whose error is told in other words. -/
theorem SafeOr.mapError {δ : Type} {tell : δ → ε} {p : Interactive Op Answer (Except δ α)}
    (h : Safe effect I (OnResult Q (fun e s' => E (tell e) s')) p s) :
    SafeOr effect I Q E (ExceptT.mk (Except.mapError tell <$> p)) s := by
  refine Safe.bind h (fun r s' hI hr => ?_)
  cases r with
  | ok a => exact .pure hI hr
  | error e => exact .pure hI hr

end Interactive

import Mathlib

/-!
# Scanners over a text

A scanner walks along a text by position. It answers a value, refuses the
text, or reads outside of the text, which is a fault and has no result; a loop
that would go on for ever is a fault as well.

A reader sees the same text as the list of what is left of it, which it cannot
read outside of. `Follows` says that a scanner does what a reader does: it
never faults, it refuses when the reader does, and otherwise it answers the
same and stops where the reader stops. The rules put scanners together from
their parts.
-/

/-- **A scanner**: from a position, a fault, or an answer or refusal and the
position it stops at. -/
def Scanner (α : Type) := ℕ → Option (Option α × ℕ)

namespace Scanner

variable {α β γ : Type}

/-- The scanner that answers at once. -/
def done (a : α) : Scanner α := fun pos => some (some a, pos)

/-- One scanner after another, unless the first one refuses. -/
def andThen (m : Scanner α) (f : α → Scanner β) : Scanner β := fun pos =>
  (m pos).bind fun r => r.1.elim (some (none, r.2)) (fun a => f a r.2)

instance : Monad Scanner where
  pure := done
  bind := andThen

/-- The text is refused. -/
def refuse : Scanner α := fun pos => some (none, pos)

/-- A fault. -/
def fault : Scanner α := fun _ => none

/-- The position. -/
def position : Scanner ℕ := fun pos => some (some pos, pos)

/-- Some positions further. -/
def advance (n : ℕ) : Scanner Unit := fun pos => some (some (), pos + n)

/-- Whether a number of symbols follows. -/
def has (text : List γ) (n : ℕ) : Scanner Bool := fun pos =>
  some (some (decide (pos + n ≤ text.length)), pos)

/-- The symbol some positions further, `text[pos + i]`. -/
def peekAt (text : List γ) (i : ℕ) : Scanner γ := fun pos =>
  text[pos + i]?.map (fun c => (some c, pos))

/-- The symbol at the position, `text[pos]`. -/
def peek (text : List γ) : Scanner γ := peekAt text 0

/-- Whether there is a symbol and it satisfies a condition. -/
def nextIs (text : List γ) (p : γ → Bool) : Scanner Bool := do
  if ← has text 1 then return p (← peek text) else return false

/-- The loop that skips the symbols that satisfy a condition. -/
def skipLoop (text : List γ) (p : γ → Bool) : ℕ → Scanner Unit
  | 0 => fault
  | n + 1 => do
    if ← nextIs text p then
      advance 1
      skipLoop text p n
    else return ()

/-- The symbols that satisfy a condition are skipped. -/
def skipWhile (text : List γ) (p : γ → Bool) : Scanner Unit := skipLoop text p (text.length + 1)

/-- The part of the text between two positions, `text.substr(start, stop - start)`. -/
def slice (text : List γ) (start stop : ℕ) : Scanner (List γ) :=
  if start ≤ text.length then return (text.drop start).take (stop - start) else fault

/-! ## Readers -/

/-- **A result of a scanner that is the result of a reader.** -/
def Agrees (text : List γ) (result : Option (Option α × ℕ)) (read : Option (α × List γ)) : Prop :=
  (∃ pos, result = some (none, pos) ∧ read = none)
    ∨ ∃ a pos, pos ≤ text.length ∧ result = some (some a, pos) ∧ read = some (a, text.drop pos)

/-- **A scanner that does what a reader does.** -/
def Follows (text : List γ) (m : Scanner α) (r : List γ → Option (α × List γ)) : Prop :=
  ∀ pos ≤ text.length, Agrees text (m pos) (r (text.drop pos))

section Rules

variable {text : List γ} {pos : ℕ}

/-- An answer. -/
theorem Agrees.done (hpos : pos ≤ text.length) (a : α) :
    Agrees text ((pure a : Scanner α) pos) (some (a, text.drop pos)) :=
  Or.inr ⟨a, pos, hpos, rfl, rfl⟩

/-- A refusal. -/
theorem Agrees.refuse : Agrees text ((Scanner.refuse : Scanner α) pos) none :=
  Or.inl ⟨pos, rfl, rfl⟩

/-- A scanner after one that answered. -/
theorem bind_of_eq {m : Scanner α} {f : α → Scanner β} {a : α} {pos' : ℕ}
    (h : m pos = some (some a, pos')) : (m >>= f) pos = f a pos' := by
  show (m pos).bind _ = _
  rw [h]
  rfl

/-- A scanner after one that refused. -/
theorem bind_of_refused {m : Scanner α} {f : α → Scanner β} {pos' : ℕ}
    (h : m pos = some (none, pos')) : (m >>= f) pos = some (none, pos') := by
  show (m pos).bind _ = _
  rw [h]
  rfl

/-- **One scanner after another**: the second one follows what is left of the
result. -/
theorem Agrees.next {m : Scanner α} {f : α → Scanner β} {read : Option (α × List γ)}
    {result : Option (β × List γ)} (h : Agrees text (m pos) read)
    (hnone : read = none → result = none)
    (hsome : ∀ a pos', pos' ≤ text.length → read = some (a, text.drop pos') →
      Agrees text (f a pos') result) :
    Agrees text ((m >>= f) pos) result := by
  rcases h with ⟨pos', hm, hread⟩ | ⟨a, pos', hpos', hm, hread⟩
  · exact Or.inl ⟨pos', bind_of_refused hm, hnone hread⟩
  · rw [bind_of_eq hm]
    exact hsome a pos' hpos' hread

/-- A scanner whose answer is changed. -/
theorem Agrees.map {m : Scanner α} {g : α → β} {read : Option (α × List γ)}
    (h : Agrees text (m pos) read) :
    Agrees text ((m >>= fun a => pure (g a)) pos) (read.map (fun r => (g r.1, r.2))) := by
  refine h.next (fun hread => ?_) (fun a pos' hpos' hread => ?_)
  · rw [hread]
    rfl
  · rw [hread]
    exact Agrees.done hpos' (g a)

/-- Before the end there is a symbol. -/
theorem exists_symbol (h : pos + 1 ≤ text.length) :
    ∃ c, text.drop pos = c :: text.drop (pos + 1) ∧ text[pos]? = some c :=
  ⟨text[pos], List.drop_eq_getElem_cons h, List.getElem?_eq_getElem h⟩

/-- **At every position there is a symbol, or the text ends.** -/
theorem cursor_cases (hpos : pos ≤ text.length) :
    (text.drop pos = [] ∧ pos = text.length)
      ∨ ∃ c, text.drop pos = c :: text.drop (pos + 1) ∧ pos + 1 ≤ text.length
        ∧ text[pos]? = some c := by
  rcases hpos.lt_or_eq with hlt | heq
  · obtain ⟨c, hcons, hc⟩ := exists_symbol hlt
    exact Or.inr ⟨c, hcons, hlt, hc⟩
  · exact Or.inl ⟨List.drop_eq_nil_of_le heq.ge, heq⟩

/-- Whether a number of symbols follows. -/
theorem bind_has {n : ℕ} {f : Bool → Scanner β} :
    (has text n >>= f) pos = f (decide (pos + n ≤ text.length)) pos := bind_of_eq rfl

/-- The symbol that is there. -/
theorem bind_peek {c : γ} (h : text[pos]? = some c) {f : γ → Scanner β} :
    (peek text >>= f) pos = f c pos := by
  refine bind_of_eq ?_
  show Option.map _ text[pos]? = _
  rw [h]
  rfl

/-- Some positions further. -/
theorem bind_advance {n : ℕ} {f : Unit → Scanner β} :
    (advance n >>= f) pos = f () (pos + n) := bind_of_eq rfl

/-- The position. -/
theorem bind_position {f : ℕ → Scanner β} : (position >>= f) pos = f pos pos := bind_of_eq rfl

/-- **Whether the next symbol satisfies a condition.** -/
theorem nextIs_apply (p : γ → Bool) (hpos : pos ≤ text.length) :
    nextIs text p pos = some (some ((text.drop pos).head?.any p), pos) := by
  unfold nextIs
  rw [bind_has]
  rcases cursor_cases hpos with ⟨hnil, hend⟩ | ⟨c, hcons, hlt, hc⟩
  · rw [hnil, decide_eq_false (by omega)]
    rfl
  · rw [hcons, decide_eq_true hlt, if_pos rfl, bind_peek hc]
    rfl

/-- A scanner that looks at the next symbol. -/
theorem bind_nextIs (p : γ → Bool) (hpos : pos ≤ text.length) {f : Bool → Scanner β} :
    (nextIs text p >>= f) pos = f ((text.drop pos).head?.any p) pos :=
  bind_of_eq (nextIs_apply p hpos)

/-- **Skipping is dropping**: the loop ends when it has a round for every symbol
that is left, and one more. -/
theorem exists_skipLoop (p : γ → Bool) {n : ℕ} (hpos : pos ≤ text.length)
    (hn : text.length < pos + n) :
    ∃ pos' ≤ text.length, skipLoop text p n pos = some (some (), pos')
      ∧ text.drop pos' = (text.drop pos).dropWhile p := by
  induction n generalizing pos with
  | zero => omega
  | succ n ih =>
    rw [skipLoop, bind_nextIs p hpos]
    rcases cursor_cases hpos with ⟨hnil, -⟩ | ⟨c, hcons, hlt, -⟩
    · rw [hnil]
      exact ⟨pos, hpos, rfl, hnil⟩
    · rw [hcons, List.head?_cons, Option.any_some]
      cases hp : p c with
      | false =>
        refine ⟨pos, hpos, rfl, ?_⟩
        rw [hcons, List.dropWhile_cons_of_neg (by rw [hp]; exact Bool.false_ne_true)]
      | true =>
        rw [if_pos rfl, bind_advance, List.dropWhile_cons_of_pos hp]
        exact ih hlt (by omega)

/-- **The symbols that satisfy a condition are skipped.** -/
theorem bind_skipWhile (p : γ → Bool) (hpos : pos ≤ text.length) {f : Unit → Scanner β} :
    ∃ pos' ≤ text.length, (skipWhile text p >>= f) pos = f () pos'
      ∧ text.drop pos' = (text.drop pos).dropWhile p := by
  obtain ⟨pos', hpos', hskip, hdrop⟩ := exists_skipLoop p hpos (n := text.length + 1) (by omega)
  exact ⟨pos', hpos', bind_of_eq hskip, hdrop⟩

/-- A part of the text. -/
theorem bind_slice {start stop : ℕ} (hstart : start ≤ text.length) {f : List γ → Scanner β} :
    (slice text start stop >>= f) pos = f ((text.drop start).take (stop - start)) pos := by
  refine bind_of_eq ?_
  rw [slice, if_pos hstart]
  rfl

/-- The part of the text that was read. -/
theorem take_drop_sub {start stop : ℕ} (hstop : stop ≤ text.length) :
    (text.drop start).take ((text.drop start).length - (text.drop stop).length)
      = (text.drop start).take (stop - start) := by
  rw [List.length_drop, List.length_drop]
  congr 1
  omega

end Rules

end Scanner

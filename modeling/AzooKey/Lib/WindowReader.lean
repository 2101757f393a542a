import AzooKey.Lib.Faulting
import AzooKey.Lib.LittleEndian

/-!
# Readers of a window of bytes

A reader stands somewhere in a window of memory and reads what comes next, or gives up
when the window ends too early. Its steps are those of machine code: an index outside
of the window, a difference below zero and a sum or a product that does not fit 64 bits
are faults. `Reads m E` says what is expected of a reader `m`: it never faults and stays
inside the window; what it has read is a text that `E` allows for its answer; and its
answer does not change when the window goes on. Readers are put together by
`Reads.bind`.
-/

namespace WindowReader

/-- A window: the size of a piece of memory fits 64 bits. -/
structure Window where
  bytes : Bytes
  length_lt : bytes.length < 2 ^ 64

/-- The beginning of a window. -/
def Window.take (window : Window) (n : ℕ) : Window where
  bytes := window.bytes.take n
  length_lt := lt_of_le_of_lt (List.length_take_le' _ _) window.length_lt

/-- The window behind its first bytes. -/
def Window.drop (window : Window) (n : ℕ) : Window where
  bytes := window.bytes.drop n
  length_lt := lt_of_le_of_lt (by rw [List.length_drop]; omega) window.length_lt

/-- **A reader** over its position in the window. It answers nothing when the window
ends too early. -/
abbrev Reader (α : Type) := OptionT (Faulting ℕ) α

variable {α β : Type}

/-! ## Steps -/

/-- The number of bytes that are left. -/
def available (data : Bytes) : Faulting ℕ ℕ := fun pos =>
  if pos ≤ data.length then some (data.length - pos, pos) else none

/-- Go on by some bytes. -/
def advance (n : ℕ) : Faulting ℕ Unit := fun pos =>
  if pos + n < 2 ^ 64 then some ((), pos + n) else none

/-- A byte from here on. -/
def byteAt (data : Bytes) (i : ℕ) : Faulting ℕ UInt8 := fun pos =>
  data[pos + i]?.map (fun byte => (byte, pos))

/-- Some bytes from here on. -/
def bytesAt (data : Bytes) (n : ℕ) : Faulting ℕ Bytes := fun pos =>
  if pos + n ≤ data.length then some ((data.drop pos).take n, pos) else none

/-- A product of 64 bits. -/
def checkedMul (a b : ℕ) : Faulting ℕ ℕ := fun pos =>
  if a * b < 2 ^ 64 then some (a * b, pos) else none

/-- The number in some bytes from here on, the lowest first. -/
def numberAt (width : ℕ) (data : Bytes) : Faulting ℕ ℕ :=
  (List.range width).foldlM
    (fun value i => do return value ||| ((← byteAt data i).toNat <<< (8 * i))) 0

/-- A number of some bytes. -/
def readLe (width : ℕ) (data : Bytes) : Reader ℕ := do
  if (← available data) < width then failure
  let value ← numberAt width data
  advance width
  return value

/-- A text of a known size. -/
def readBytes (n : ℕ) (data : Bytes) : Reader Bytes := do
  if (← available data) < n then failure
  let text ← bytesAt data n
  advance n
  return text

/-- Pass over some bytes. -/
def skip (n : ℕ) (data : Bytes) : Reader Unit := do
  if (← available data) < n then failure
  advance n

/-! ## What is expected of a reader -/

/-- **What a reader does.** -/
structure Reads (m : Bytes → Reader α) (E : α → Bytes → Prop) : Prop where
  /-- It runs without a fault and stays inside. -/
  runs : ∀ data : Bytes, data.length < 2 ^ 64 → ∀ pos ≤ data.length,
    ∃ r pos', (m data).run pos = some (r, pos') ∧ pos' ≤ data.length
  /-- An answer is read from a text. -/
  consumes : ∀ data pos a pos', pos ≤ data.length → (m data).run pos = some (some a, pos') →
    pos' ≤ data.length ∧ ∃ text, data.drop pos = text ++ data.drop pos' ∧ E a text
  /-- An answer is the same in a longer window. -/
  stable : ∀ data more pos a pos', (m data).run pos = some (some a, pos') →
    (m (data ++ more)).run pos = some (some a, pos')

/-- A step in front of a reader. -/
theorem run_lift_bind (p : Faulting ℕ α) (f : α → Reader β) (pos : ℕ) :
    (liftM p >>= f : Reader β).run pos = (p pos).bind (fun r => (f r.1).run r.2) := by
  show (OptionT.lift p >>= f).run pos = _
  rw [OptionT.run_bind_lift]
  rfl

/-- A reader in front of a reader. -/
theorem run_bind_eq (m : Reader α) (f : α → Reader β) (pos : ℕ) :
    (m >>= f).run pos
      = (m.run pos).bind (fun r => r.1.elim (some (none, r.2)) (fun a => (f a).run r.2)) := by
  rw [OptionT.run_bind]
  show (m.run pos).bind _ = _
  congr 1
  funext r
  obtain ⟨a, pos'⟩ := r
  cases a <;> rfl

/-- An answer without reading. -/
theorem Reads.pure (a : α) : Reads (fun _ => pure a) (fun b text => b = a ∧ text = []) where
  runs _ _ pos hpos := ⟨some a, pos, rfl, hpos⟩
  consumes data pos b pos' hpos h := by
    cases h
    exact ⟨hpos, [], rfl, rfl, rfl⟩
  stable _ _ _ _ _ h := h

/-- Giving up. -/
theorem Reads.fail (E : α → Bytes → Prop) : Reads (fun _ => failure) E where
  runs _ _ pos hpos := ⟨none, pos, rfl, hpos⟩
  consumes data pos b pos' _ h := by cases h
  stable _ _ _ _ _ h := by cases h

/-- What is read may be told less exactly. -/
theorem Reads.imp {m : Bytes → Reader α} {E F : α → Bytes → Prop} (hm : Reads m E)
    (h : ∀ a text, E a text → F a text) : Reads m F where
  runs := hm.runs
  consumes data pos a pos' hpos hrun := by
    obtain ⟨hpos', text, hdrop, hE⟩ := hm.consumes data pos a pos' hpos hrun
    exact ⟨hpos', text, hdrop, h a text hE⟩
  stable := hm.stable

/-- **One reader after another.** -/
theorem Reads.bind {m : Bytes → Reader α} {f : α → Bytes → Reader β} {E : α → Bytes → Prop}
    {F : α → β → Bytes → Prop} (hm : Reads m E) (hf : ∀ a, Reads (f a) (F a)) :
    Reads (fun data => m data >>= fun a => f a data)
      (fun b text => ∃ a first second, text = first ++ second ∧ E a first ∧ F a b second) where
  runs data hdata pos hpos := by
    obtain ⟨r, pos', hrun, hpos'⟩ := hm.runs data hdata pos hpos
    cases r with
    | none => exact ⟨none, pos', by rw [run_bind_eq, hrun]; rfl, hpos'⟩
    | some a =>
      obtain ⟨r', pos'', hrun', hpos''⟩ := (hf a).runs data hdata pos' hpos'
      exact ⟨r', pos'', by rw [run_bind_eq, hrun]; exact hrun', hpos''⟩
  consumes data pos b pos' hpos h := by
    rw [run_bind_eq] at h
    obtain ⟨⟨r, pos₁⟩, hrun, hrest⟩ := Option.bind_eq_some_iff.mp h
    cases r with
    | none => cases hrest
    | some a =>
      obtain ⟨hpos₁, first, hfirst, hE⟩ := hm.consumes data pos a pos₁ hpos hrun
      obtain ⟨hpos', second, hsecond, hF⟩ := (hf a).consumes data pos₁ b pos' hpos₁ hrest
      exact ⟨hpos', first ++ second, by rw [hfirst, hsecond, List.append_assoc],
        a, first, second, rfl, hE, hF⟩
  stable data more pos b pos' h := by
    rw [run_bind_eq] at h ⊢
    obtain ⟨⟨r, pos₁⟩, hrun, hrest⟩ := Option.bind_eq_some_iff.mp h
    cases r with
    | none => cases hrest
    | some a =>
      rw [hm.stable data more pos a pos₁ hrun]
      exact (hf a).stable data more pos₁ b pos' hrest

/-- A product that fits. -/
theorem Reads.checkedMul {a b : ℕ} (h : a * b < 2 ^ 64) {m : ℕ → Bytes → Reader α}
    {E : α → Bytes → Prop} (hm : Reads (m (a * b)) E) :
    Reads (fun data => do let n ← checkedMul a b; m n data) E := by
  have hrun : (fun data => do let n ← WindowReader.checkedMul a b; m n data) = m (a * b) := by
    funext data
    refine OptionT.ext (funext (fun pos => ?_))
    rw [run_lift_bind, WindowReader.checkedMul, if_pos h]
    rfl
  rw [hrun]
  exact hm

/-! ## The readers -/

/-- A reader of a text of a known size, and of what it answers. -/
def runFixed (n : ℕ) (get : Bytes → α) (data : Bytes) (pos : ℕ) : Option (Option α × ℕ) :=
  if pos ≤ data.length then
    if pos + n ≤ data.length then
      if pos + n < 2 ^ 64 then some (some (get ((data.drop pos).take n)), pos + n) else none
    else some (none, pos)
  else none

/-- **Reading a text of a known size.** -/
theorem Reads.of_run {m : Bytes → Reader α} {n : ℕ} {get : Bytes → α}
    (h : ∀ data pos, (m data).run pos = runFixed n get data pos) :
    Reads m (fun a text => text.length = n ∧ a = get text) where
  runs data hdata pos hpos := by
    rw [h, runFixed, if_pos hpos]
    by_cases hfit : pos + n ≤ data.length
    · rw [if_pos hfit, if_pos (by omega)]
      exact ⟨_, _, rfl, hfit⟩
    · rw [if_neg hfit]
      exact ⟨_, _, rfl, hpos⟩
  consumes data pos a pos' hpos hrun := by
    rw [h, runFixed, if_pos hpos] at hrun
    split at hrun
    · next hfit =>
      split at hrun
      · cases hrun
        refine ⟨hfit, (data.drop pos).take n, ?_, ?_, rfl⟩
        · rw [← List.drop_drop, List.take_append_drop]
        · rw [List.length_take, List.length_drop]
          omega
      · cases hrun
    · cases hrun
  stable data more pos a pos' hrun := by
    rw [h, runFixed] at hrun ⊢
    split at hrun
    · next hpos =>
      split at hrun
      · next hfit =>
        split at hrun
        · next hsum =>
          cases hrun
          rw [if_pos (by rw [List.length_append]; omega),
            if_pos (by rw [List.length_append]; omega), if_pos hsum,
            List.drop_append_of_le_length hpos, List.take_append_of_le_length]
          exact by rw [List.length_drop]; omega
        · cases hrun
      · cases hrun
    · cases hrun

/-- What a reader does that gives up unless some bytes are left. -/
theorem run_guarded {n : ℕ} {get : Bytes → α} {m : Reader α} {data : Bytes} {pos : ℕ}
    (h : pos + n ≤ data.length → m.run pos
      = if pos + n < 2 ^ 64 then some (some (get ((data.drop pos).take n)), pos + n) else none) :
    (do if (← available data) < n then failure
        m : Reader α).run pos = runFixed n get data pos := by
  rw [run_lift_bind, available, runFixed]
  by_cases hpos : pos ≤ data.length
  · rw [if_pos hpos, if_pos hpos, Option.bind_some]
    by_cases hfit : pos + n ≤ data.length
    · rw [if_neg (by omega), if_pos hfit, ← h hfit]
    · rw [if_pos (by omega), if_neg hfit]
      rfl
  · rw [if_neg hpos, if_neg hpos]
    rfl

/-- Going on, in front of an answer. -/
theorem run_advance (n : ℕ) (a : α) (pos : ℕ) :
    (do advance n
        return a : Reader α).run pos = if pos + n < 2 ^ 64 then some (some a, pos + n) else none := by
  rw [run_lift_bind, advance]
  split <;> rfl

/-- **Passing over bytes.** -/
theorem reads_skip (n : ℕ) : Reads (skip n) (fun _ text => text.length = n) := by
  have hrun : ∀ data pos, (skip n data).run pos = runFixed n (fun _ => ()) data pos := by
    refine fun data pos => run_guarded (fun _ => ?_)
    rw [← run_advance n () pos, bind_pure_unit]
  exact (Reads.of_run hrun).imp (fun _ _ h => h.1)

/-- **A text of a known size.** -/
theorem reads_readBytes (n : ℕ) :
    Reads (readBytes n) (fun a text => text = a ∧ text.length = n) := by
  have hrun : ∀ data pos, (readBytes n data).run pos = runFixed n id data pos := by
    refine fun data pos => run_guarded (fun hfit => ?_)
    rw [run_lift_bind, bytesAt, if_pos hfit]
    exact run_advance n _ pos
  exact (Reads.of_run hrun).imp (fun _ _ h => ⟨h.2.symm, h.1⟩)

/-- The highest byte. -/
theorem decode_concat (bytes : Bytes) (b : UInt8) : LittleEndian.decode (bytes ++ [b])
    = LittleEndian.decode bytes + 256 ^ bytes.length * b.toNat := by
  induction bytes with
  | nil => show b.toNat + 256 * 0 = 0 + 1 * b.toNat; omega
  | cons x bytes ih =>
    rw [List.cons_append, LittleEndian.decode, ih, LittleEndian.decode, List.length_cons, pow_succ]
    ring

/-- The bytes of a number, put together. -/
theorem numberAt_eq_some {data : Bytes} {pos width : ℕ} (hfit : pos + width ≤ data.length) :
    numberAt width data pos = some (LittleEndian.decode ((data.drop pos).take width), pos) := by
  induction width with
  | zero => rfl
  | succ width ih =>
    have hlt : pos + width < data.length := by omega
    have hlength : ((data.drop pos).take width).length = width := by
      rw [List.length_take, List.length_drop]
      omega
    have hbyte : (data.drop pos)[width]? = some data[pos + width] := by
      rw [List.getElem?_drop, List.getElem?_eq_getElem hlt]
    have hdecode := LittleEndian.decode_lt ((data.drop pos).take width)
    rw [hlength, show 256 = 2 ^ 8 from rfl, ← pow_mul] at hdecode
    have hor : LittleEndian.decode ((data.drop pos).take width)
        ||| (data[pos + width].toNat <<< (8 * width))
        = LittleEndian.decode ((data.drop pos).take (width + 1)) := by
      rw [List.take_add_one, hbyte, Option.toList_some, decode_concat, hlength, Nat.or_comm,
        ← Nat.shiftLeft_add_eq_or_of_lt hdecode, Nat.shiftLeft_eq, pow_mul]
      ring
    have hsome : byteAt data width pos = some (data[pos + width], pos) := by
      rw [byteAt, List.getElem?_eq_getElem hlt]
      rfl
    unfold numberAt at ih ⊢
    rw [List.range_succ, List.foldlM_append, Faulting.bind_of_eq_some (ih (by omega)),
      List.foldlM_cons, Faulting.bind_apply, Faulting.bind_of_eq_some hsome, ← hor]
    rfl

/-- What reading a number does. -/
theorem run_readLe (width : ℕ) (data : Bytes) (pos : ℕ) :
    (readLe width data).run pos = runFixed width LittleEndian.decode data pos := by
  refine run_guarded (fun hfit => ?_)
  rw [run_lift_bind, numberAt_eq_some hfit]
  exact run_advance width _ pos

/-- **A number.** -/
theorem reads_readLe (width : ℕ) : Reads (readLe width)
    (fun a text => text.length = width ∧ a = LittleEndian.decode text) :=
  Reads.of_run (run_readLe width)

/-- A number that is there is read. -/
theorem run_readLe_of_le {width pos : ℕ} {data : Bytes} (hdata : data.length < 2 ^ 64)
    (hfit : pos + width ≤ data.length) : ∃ n, (readLe width data).run pos
      = some (some n, pos + width) := by
  rw [run_readLe, runFixed, if_pos (by omega), if_pos hfit, if_pos (by omega)]
  exact ⟨_, rfl⟩

end WindowReader

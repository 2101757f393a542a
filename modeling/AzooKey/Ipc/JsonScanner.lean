import AzooKey.Ipc.Json
import AzooKey.Lib.Scanner

/-!
# The JSON reader by position

`class Parser` of `ipc/src/Json.cpp` as it is written: a text and a position in
it, `text_[pos_]` wherever the source reads it, and its loops with as many
rounds as the text has octets, and one more. A read outside of the text is a
fault.

`Json.lean` has the same functions over what is left of the text. Each
scanner here is shown to follow the reader there, so that none of them reads
outside of the text.
-/

namespace AzooKey.Ipc.Json

open Scanner

variable (text : Bytes)

/-! ## Strings -/

/-- `ReadHexCodepoint`, its loop. -/
def scanHexDigits : ℕ → ℕ → Scanner ℕ
  | 0, codepoint => return codepoint
  | n + 1, codepoint => do
    let h ← peek text
    advance 1
    match hexValue h with
    | none => refuse
    | some digit => scanHexDigits n (codepoint <<< 4 ||| digit)

/-- `ReadHexCodepoint`. -/
def scanHexCodepoint : Scanner ℕ := do
  if ← has text 4 then scanHexDigits text 4 0 else refuse

/-- What follows a high surrogate. -/
def scanLowSurrogate : Scanner ℕ := do
  if ← has text 6 then
    if (← peek text) ≠ 0x5c then refuse
    else if (← peekAt text 1) ≠ 0x75 then refuse
    else
      advance 2
      let low ← scanHexCodepoint text
      if low < 0xDC00 || 0xDFFF < low then refuse else return low
  else refuse

/-- `AppendUtf8` of a codepoint, or nothing. -/
def scanAppend (codepoint : ℕ) : Scanner Bytes :=
  match appendUtf8 codepoint with
  | none => refuse
  | some bytes => return bytes

/-- The escape of a codepoint, after its `u`. -/
def scanUnicodeEscape : Scanner Bytes := do
  let codepoint ← scanHexCodepoint text
  if 0xD800 ≤ codepoint && codepoint ≤ 0xDBFF then
    let low ← scanLowSurrogate text
    let codepoint := 0x10000 + (((codepoint - 0xD800) <<< 10) ||| (low - 0xDC00))
    if 0xDC00 ≤ codepoint && codepoint ≤ 0xDFFF then refuse else scanAppend codepoint
  else if 0xDC00 ≤ codepoint && codepoint ≤ 0xDFFF then refuse
  else scanAppend codepoint

/-- An escape, after its backslash. -/
def scanEscape : Scanner Bytes := do
  if ← has text 1 then
    let esc ← peek text
    advance 1
    if esc = 0x75 then scanUnicodeEscape text
    else
      match letterEscape esc with
      | none => refuse
      | some c => return [c]
  else refuse

/-- The test of the octets after the lead of a sequence: `i` of them are
tested. -/
def scanTrailing : ℕ → ℕ → Scanner Unit
  | 0, _ => return ()
  | n + 1, i => do
    let next ← peekAt text i
    if next &&& 0xC0 ≠ 0x80 then refuse else scanTrailing n (i + 1)

/-- The octets after the lead of a sequence are taken over. -/
def scanCopy : ℕ → Scanner Bytes
  | 0 => return []
  | n + 1 => do
    let c ← peek text
    advance 1
    let rest ← scanCopy n
    return c :: rest

/-- The test of the second octet, of a sequence of three or four. -/
def scanSecond (first : UInt8) (length : ℕ) : Scanner Unit := do
  if length = 3 || length = 4 then
    if secondOutside first length (← peek text) then refuse else return ()
  else return ()

/-- A raw character of a string, after its first octet. -/
def scanCharacter (first : UInt8) : Scanner Bytes :=
  if first < 0x20 then refuse
  else
    match utf8SequenceLength first with
    | none => refuse
    | some length => do
      if ← has text (length - 1) then
        scanTrailing text (length - 1) 0
        scanSecond text first length
        let rest ← scanCopy text (length - 1)
        return first :: rest
      else refuse

/-- A character of a string, after its first octet. -/
def scanUnit (c : UInt8) : Scanner Bytes :=
  if c = 0x5c then scanEscape text else scanCharacter text c

/-- The loop of `ParseString`. -/
def scanStringLoop : ℕ → Scanner Bytes
  | 0 => fault
  | n + 1 => do
    if ← has text 1 then
      let c ← peek text
      advance 1
      if c = 0x22 then return []
      else
        let character ← scanUnit text c
        let rest ← scanStringLoop n
        return character ++ rest
    else refuse

/-- `ParseString`. -/
def scanString : Scanner Bytes := do
  if ← nextIs text (· = 0x22) then
    advance 1
    scanStringLoop text (text.length + 1)
  else refuse

/-! ## Numbers and literals -/

/-- A run of digits, of which there must be one. -/
def scanDigits : Scanner Unit := do
  if ← nextIs text isDigitByte then skipWhile text isDigitByte else refuse

/-- The sign of a number. -/
def scanMinus : Scanner Unit := do
  if (← peek text) = 0x2d then advance 1 else return ()

/-- The whole part of a number. -/
def scanWhole : Scanner Unit := do
  if ← has text 1 then
    let c ← peek text
    if c = 0x30 then
      advance 1
      if ← nextIs text isDigitByte then refuse else return ()
    else if 0x31 ≤ c && c ≤ 0x39 then skipWhile text isDigitByte
    else refuse
  else refuse

/-- The fraction of a number. -/
def scanFraction : Scanner Unit := do
  if ← nextIs text (· = 0x2e) then
    advance 1
    scanDigits text
  else return ()

/-- The exponent of a number. -/
def scanExponent : Scanner Unit := do
  if ← nextIs text (fun c => c = 0x65 || c = 0x45) then
    advance 1
    if ← nextIs text (fun c => c = 0x2b || c = 0x2d) then advance 1
    scanDigits text
  else return ()

/-- `ParseFiniteDouble`, which reads the first octet of its token. -/
def scanFiniteDouble (token : Bytes) : Scanner Binary64 :=
  match token with
  | [] => fault
  | _ =>
    match parseFiniteDouble token with
    | none => refuse
    | some value => return value

/-- `ParseNumber`. -/
def scanNumber : Scanner Number := do
  let start ← position
  scanMinus text
  scanWhole text
  scanFraction text
  scanExponent text
  let stop ← position
  if stop = start then refuse
  else
    let token ← slice text start stop
    let value ← scanFiniteDouble token
    return ⟨.finite value, token⟩

/-- `text_.compare(pos_, n, literal) == 0`, which throws behind the end. -/
def compare (literal : Bytes) : Scanner Bool := do
  let start ← position
  let part ← slice text start (start + literal.length)
  return part == literal

/-- The first of some literals that is there. -/
def scanLiteral : List (Bytes × Value) → Scanner Value
  | [] => refuse
  | l :: ls => do
    if ← compare text l.1 then
      advance l.1.length
      return l.2
    else scanLiteral ls

/-- `ParseBool`. -/
def scanBool : Scanner Value :=
  scanLiteral text [(utf8 "true", .bool true), (utf8 "false", .bool false)]

/-- `ParseNull`. -/
def scanNull : Scanner Value := scanLiteral text [(utf8 "null", .null)]

/-! ## Values -/

/-- `SkipWhitespace`. -/
def scanWhitespace : Scanner Unit := skipWhile text isWhitespace

/-- The loop of `ParseArray` and of `ParseObject`. -/
def scanItems {α : Type} (item : Scanner α) (closing : UInt8) : ℕ → Scanner (List α)
  | 0 => fault
  | n + 1 => do
    let a ← item
    scanWhitespace text
    if ← has text 1 then
      let c ← peek text
      if c = 0x2c then
        advance 1
        let rest ← scanItems item closing n
        return a :: rest
      else if c = closing then
        advance 1
        return [a]
      else refuse
    else refuse

/-- `ParseArray` and `ParseObject`, after the test of the depth. -/
def scanBracketed {α : Type} (opening closing : UInt8) (item : Scanner α) : Scanner (List α) := do
  if (← peek text) ≠ opening then refuse
  else
    advance 1
    scanWhitespace text
    if ← nextIs text (· = closing) then
      advance 1
      return []
    else scanItems text item closing (text.length + 1)

/-- A round of the loop of `ParseObject`, up to the value. -/
def scanMember (inner : Scanner Value) : Scanner Member := do
  scanWhitespace text
  let key ← scanString text
  scanWhitespace text
  if ← nextIs text (· = 0x3a) then
    advance 1
    scanWhitespace text
    let start ← position
    let value ← inner
    let stop ← position
    let raw ← slice text start stop
    return ⟨key, raw, value⟩
  else refuse

/-- `ParseValue`, over the scanner of the values one level deeper, unless the
limit is reached. -/
def scanValueOver (inner : Option (Scanner Value)) : Scanner Value := do
  scanWhitespace text
  if ← has text 1 then
    let c ← peek text
    if c = 0x7b then
      match inner with
      | none => refuse
      | some inner =>
        let members ← scanBracketed text 0x7b 0x7d (scanMember text inner)
        return .object (toObject members)
    else if c = 0x5b then
      match inner with
      | none => refuse
      | some inner =>
        let elements ← scanBracketed text 0x5b 0x5d inner
        return .array elements
    else if c = 0x22 then
      let s ← scanString text
      return .string s
    else if c = 0x74 || c = 0x66 then scanBool text
    else if c = 0x6e then scanNull text
    else if c = 0x2d || (0x30 ≤ c && c ≤ 0x39) then
      let number ← scanNumber text
      return .number number
    else refuse
  else refuse

/-- **`ParseValue`**, where arrays and objects may nest `room` levels deep. -/
def scanValue : ℕ → Scanner Value
  | 0 => scanValueOver text none
  | room + 1 => scanValueOver text (some (scanValue room))

/-- **`ParseDocument`.** -/
def scanDocument : Scanner Value :=
  if maxJsonInputBytes < text.length then refuse
  else do
    scanWhitespace text
    let value ← scanValue text maxJsonNestDepth
    scanWhitespace text
    if (← position) ≠ text.length then refuse else return value

/-! ## The scanners follow the readers -/

variable {text} {pos : ℕ}

/-- A hexadecimal digit is below sixteen. -/
theorem hexValue_lt {h : UInt8} {digit : ℕ} (hdigit : hexValue h = some digit) : digit < 16 := by
  unfold hexValue at hdigit
  simp only [Bool.and_eq_true, decide_eq_true_eq, UInt8.le_iff_toNat_le, UInt8.reduceToNat] at hdigit
  split_ifs at hdigit <;> cases hdigit <;> omega

/-- A digit more. -/
theorem shift_or_digit {h : UInt8} {digit : ℕ} (hdigit : hexValue h = some digit) (codepoint : ℕ) :
    codepoint <<< 4 ||| digit = codepoint * 16 + digit := by
  rw [← Nat.shiftLeft_add_eq_or_of_lt (hexValue_lt hdigit), Nat.shiftLeft_eq]

/-- A round of `ReadHexCodepoint`. -/
theorem scanHexDigits_succ {c : UInt8} (hc : text[pos]? = some c) (n codepoint : ℕ) :
    scanHexDigits text (n + 1) codepoint pos = (hexValue c).elim (some (none, pos + 1))
      (fun digit => scanHexDigits text n (codepoint * 16 + digit) (pos + 1)) := by
  rw [scanHexDigits, bind_peek hc, bind_advance]
  cases hdigit : hexValue c with
  | none => rfl
  | some digit =>
    dsimp only
    rw [shift_or_digit hdigit]
    rfl

/-- **`ReadHexCodepoint`.** -/
theorem follows_scanHexCodepoint : Follows text (scanHexCodepoint text) readHexCodepoint := by
  intro pos hpos
  rw [scanHexCodepoint, bind_has]
  by_cases hfour : pos + 4 ≤ text.length
  · rw [decide_eq_true hfour, if_pos rfl]
    obtain ⟨a, ha, ha'⟩ := exists_symbol (show pos + 1 ≤ text.length by omega)
    obtain ⟨b, hb, hb'⟩ := exists_symbol (show pos + 1 + 1 ≤ text.length by omega)
    obtain ⟨c, hc, hc'⟩ := exists_symbol (show pos + 2 + 1 ≤ text.length by omega)
    obtain ⟨d, hd, hd'⟩ := exists_symbol (show pos + 3 + 1 ≤ text.length by omega)
    rw [ha, hb, hc, hd, scanHexDigits_succ ha', readHexCodepoint]
    cases hexValue a with
    | none => exact Or.inl ⟨_, rfl, rfl⟩
    | some va =>
      rw [Option.elim_some, scanHexDigits_succ hb']
      cases hexValue b with
      | none => exact Or.inl ⟨_, rfl, rfl⟩
      | some vb =>
        rw [Option.elim_some, scanHexDigits_succ hc']
        cases hexValue c with
        | none => exact Or.inl ⟨_, rfl, rfl⟩
        | some vc =>
          rw [Option.elim_some, scanHexDigits_succ hd']
          cases hexValue d with
          | none => exact Or.inl ⟨_, rfl, rfl⟩
          | some vd =>
            refine Or.inr ⟨_, _, hfour, rfl, ?_⟩
            rw [Nat.zero_mul, Nat.zero_add]
  · rw [decide_eq_false hfour, if_neg Bool.false_ne_true]
    have hshort : (text.drop pos).length < 4 := by rw [List.length_drop]; omega
    have hnone : readHexCodepoint (text.drop pos) = none := by
      unfold readHexCodepoint
      split
      · rename_i heq
        rw [heq] at hshort
        simp only [List.length_cons] at hshort
        omega
      · rfl
    rw [hnone]
    exact .refuse

/-- **What follows a high surrogate.** -/
theorem follows_scanLowSurrogate : Follows text (scanLowSurrogate text) readLowSurrogate := by
  intro pos hpos
  rw [scanLowSurrogate, bind_has]
  by_cases hsix : pos + 6 ≤ text.length
  · rw [decide_eq_true hsix, if_pos rfl]
    have hpos₂ : pos + 2 ≤ text.length := by omega
    obtain ⟨a, ha, ha'⟩ := exists_symbol (show pos + 1 ≤ text.length by omega)
    obtain ⟨b, hb, hb'⟩ := exists_symbol (show pos + 1 + 1 ≤ text.length from hpos₂)
    have hb'' : peekAt text 1 pos = some (some b, pos) := by rw [peekAt, hb']; rfl
    rw [ha, hb, bind_peek ha', readLowSurrogate]
    by_cases hslash : a = 0x5c
    · rw [if_neg (not_not.mpr hslash), bind_of_eq hb'']
      by_cases hu : b = 0x75
      · rw [if_neg (not_not.mpr hu), bind_advance, hslash, hu]
        simp only [decide_true, Bool.and_self, if_true]
        refine (follows_scanHexCodepoint (pos + 2) hpos₂).next (fun hread => ?_)
          (fun low pos' hpos' hread => ?_)
        · rw [show text.drop (pos + 1 + 1) = text.drop (pos + 2) from rfl, hread]
        · rw [show text.drop (pos + 1 + 1) = text.drop (pos + 2) from rfl, hread]
          dsimp only
          split_ifs
          · exact .refuse
          · exact .done hpos' low
      · rw [if_pos hu, if_neg (by simp [hu])]
        exact .refuse
    · rw [if_pos hslash, if_neg (by simp [hslash])]
      exact .refuse
  · rw [decide_eq_false hsix, if_neg Bool.false_ne_true]
    have hnone : readLowSurrogate (text.drop pos) = none := by
      cases hread : readLowSurrogate (text.drop pos) with
      | none => rfl
      | some r =>
        -- a surrogate that is read takes six octets
        unfold readLowSurrogate at hread
        split at hread
        · rename_i a b rest hdrop
          have hlen := congrArg List.length hdrop
          rw [List.length_drop, List.length_cons, List.length_cons] at hlen
          split at hread
          · split at hread
            · cases hread
            · rename_i hhex
              unfold readHexCodepoint at hhex
              split at hhex
              · simp only [List.length_cons] at hlen
                omega
              · cases hhex
          · cases hread
        · cases hread
    rw [hnone]
    exact .refuse

/-- `AppendUtf8`. -/
theorem agrees_scanAppend (hpos : pos ≤ text.length) (codepoint : ℕ) :
    Agrees text (scanAppend codepoint pos) ((appendUtf8 codepoint).map (·, text.drop pos)) := by
  unfold scanAppend
  cases appendUtf8 codepoint with
  | none => exact .refuse
  | some bytes => exact .done hpos bytes

/-- The codepoint of a surrogate pair is no surrogate. -/
theorem pair_not_low (high low : ℕ) :
    ¬ (0xDC00 ≤ 0x10000 + ((high <<< 10) ||| low)
      ∧ 0x10000 + ((high <<< 10) ||| low) ≤ 0xDFFF) := by omega

/-- **The escape of a codepoint.** -/
theorem follows_scanUnicodeEscape : Follows text (scanUnicodeEscape text) readUnicodeEscape := by
  intro pos hpos
  unfold scanUnicodeEscape readUnicodeEscape
  refine (follows_scanHexCodepoint pos hpos).next (fun hread => ?_)
    (fun codepoint pos₁ hpos₁ hread => ?_)
  · rw [hread]
  · rw [hread]
    dsimp only
    split_ifs with hhigh hlow
    · refine (follows_scanLowSurrogate pos₁ hpos₁).next (fun hread => ?_)
        (fun low pos₂ hpos₂ hread => ?_)
      · rw [hread]
      · rw [hread]
        dsimp only
        rw [if_neg (by simpa using pair_not_low _ _)]
        exact agrees_scanAppend hpos₂ _
    · exact .refuse
    · exact agrees_scanAppend hpos₁ codepoint

/-- **An escape.** -/
theorem follows_scanEscape : Follows text (scanEscape text) readEscape := by
  intro pos hpos
  rw [scanEscape, bind_has]
  rcases cursor_cases hpos with ⟨hnil, hend⟩ | ⟨esc, hcons, hpos₁, hesc⟩
  · rw [decide_eq_false (by omega), hnil]
    exact .refuse
  · rw [decide_eq_true hpos₁, if_pos rfl, bind_peek hesc, bind_advance, hcons, readEscape]
    by_cases hu : esc = 0x75
    · rw [if_pos hu, if_pos hu]
      exact follows_scanUnicodeEscape (pos + 1) hpos₁
    · rw [if_neg hu, if_neg hu]
      cases letterEscape esc with
      | none => exact .refuse
      | some c => exact .done hpos₁ [c]

/-- **The octets after the lead are tested.** -/
theorem scanTrailing_apply {n i : ℕ} (h : pos + i + n ≤ text.length) :
    scanTrailing text n i pos = some (if ((text.drop (pos + i)).take n).any
      (fun next => next &&& 0xC0 ≠ 0x80) then none else some (), pos) := by
  induction n generalizing i with
  | zero => rfl
  | succ n ih =>
    obtain ⟨c, hcons, hc⟩ := exists_symbol (show pos + i + 1 ≤ text.length by omega)
    have hpeek : peekAt text i pos = some (some c, pos) := by rw [peekAt, hc]; rfl
    rw [scanTrailing, bind_of_eq hpeek, hcons, List.take_succ_cons, List.any_cons]
    by_cases hbits : c &&& 0xC0 = 0x80
    · rw [if_neg (not_not.mpr hbits), ih (by omega), hbits]
      rfl
    · rw [if_pos hbits, if_pos (by simp [hbits])]
      rfl

/-- The octets after the lead are taken over. -/
theorem scanCopy_apply {n : ℕ} (h : pos + n ≤ text.length) :
    scanCopy text n pos = some (some ((text.drop pos).take n), pos + n) := by
  induction n generalizing pos with
  | zero => rfl
  | succ n ih =>
    obtain ⟨c, hcons, hc⟩ := exists_symbol (show pos + 1 ≤ text.length by omega)
    rw [scanCopy, bind_peek hc, bind_advance, bind_of_eq (ih (by omega)), hcons,
      List.take_succ_cons, Nat.add_assoc, Nat.add_comm 1 n]
    rfl

/-- The second octet is tested. -/
theorem scanSecond_apply (first : UInt8) {length : ℕ}
    (h : pos + (length - 1) ≤ text.length) :
    scanSecond text first length pos
      = some (if (text.drop pos).head?.any (secondOutside first length) then none else some (), pos) := by
  unfold scanSecond
  by_cases hlong : length = 3 ∨ length = 4
  · obtain ⟨c, hcons, hc⟩ := exists_symbol (show pos + 1 ≤ text.length by omega)
    rw [if_pos (by simpa using hlong), bind_peek hc, hcons, List.head?_cons, Option.any_some]
    split_ifs <;> rfl
  · rw [if_neg (by simpa using hlong)]
    have hfalse : ∀ second, secondOutside first length second = false := by
      intro second
      rw [not_or] at hlong
      simp [secondOutside, hlong.1, hlong.2]
    have hany : (text.drop pos).head?.any (secondOutside first length) = false := by
      cases (text.drop pos).head? with
      | none => rfl
      | some second => exact hfalse second
    rw [hany]
    rfl

/-- **A raw character.** -/
theorem agrees_scanCharacter (first : UInt8) (hpos : pos ≤ text.length) :
    Agrees text (scanCharacter text first pos) (readCharacter first (text.drop pos)) := by
  unfold scanCharacter readCharacter
  by_cases hcontrol : first < 0x20
  · rw [if_pos hcontrol, if_pos hcontrol]
    exact .refuse
  · rw [if_neg hcontrol, if_neg hcontrol]
    cases hlength : utf8SequenceLength first with
    | none => exact .refuse
    | some length =>
      dsimp only
      rw [bind_has, List.length_drop]
      by_cases hshort : pos + (length - 1) ≤ text.length
      · rw [decide_eq_true hshort, if_pos rfl, if_neg (by omega)]
        have htrailing := scanTrailing_apply (show pos + 0 + (length - 1) ≤ text.length from hshort)
        rw [Nat.add_zero] at htrailing
        by_cases hany : ((text.drop pos).take (length - 1)).any (fun next => next &&& 0xC0 ≠ 0x80) = true
        · rw [if_pos hany] at htrailing ⊢
          exact Or.inl ⟨pos, bind_of_refused htrailing, rfl⟩
        · rw [if_neg hany] at htrailing ⊢
          rw [bind_of_eq htrailing]
          have hsecond := scanSecond_apply first hshort
          by_cases houtside : (text.drop pos).head?.any (secondOutside first length) = true
          · rw [if_pos houtside] at hsecond ⊢
            exact Or.inl ⟨pos, bind_of_refused hsecond, rfl⟩
          · rw [if_neg houtside] at hsecond ⊢
            rw [bind_of_eq hsecond, bind_of_eq (scanCopy_apply hshort), List.drop_drop]
            exact .done hshort _
      · rw [decide_eq_false hshort, if_neg Bool.false_ne_true, if_pos (by omega)]
        exact .refuse

/-- One character of a string, raw or escaped. -/
theorem agrees_scanUnit (c : UInt8) (hpos : pos ≤ text.length) :
    Agrees text (scanUnit text c pos) (readUnit c (text.drop pos)) := by
  unfold scanUnit readUnit
  by_cases hslash : c = 0x5c
  · rw [if_pos hslash, if_pos hslash]
    exact follows_scanEscape pos hpos
  · rw [if_neg hslash, if_neg hslash]
    exact agrees_scanCharacter c hpos

/-- **The characters of a string**: a round for every octet that is left, and
one more. -/
theorem agrees_scanStringLoop {n : ℕ} (hpos : pos ≤ text.length) (hn : text.length < pos + n) :
    Agrees text (scanStringLoop text n pos) (readStringBody (text.drop pos)) := by
  induction n generalizing pos with
  | zero => omega
  | succ n ih =>
    rw [scanStringLoop, bind_has]
    rcases cursor_cases hpos with ⟨hnil, hend⟩ | ⟨c, hcons, hpos₁, hc⟩
    · rw [decide_eq_false (by omega), hnil, readStringBody]
      exact .refuse
    · rw [decide_eq_true hpos₁, if_pos rfl, bind_peek hc, bind_advance, hcons, readStringBody]
      by_cases hquote : c = 0x22
      · rw [if_pos hquote, if_pos hquote]
        exact .done hpos₁ []
      · rw [if_neg hquote, if_neg hquote]
        refine (agrees_scanUnit c hpos₁).next (fun hread => ?_)
          (fun character pos₂ hpos₂ hread => ?_)
        · split
          · rfl
          · rename_i hsome
            rw [hread] at hsome
            cases hsome
        · have hlt := (consumes_readUnit hread).length_lt
          rw [List.length_cons, List.length_drop, List.length_drop] at hlt
          split
          · rename_i hnone
            rw [hread] at hnone
            cases hnone
          · rename_i hsome
            rw [hread] at hsome
            cases hsome
            exact (ih hpos₂ (by omega)).map

/-- **`ParseString`.** -/
theorem follows_scanString : Follows text (scanString text) parseString := by
  intro pos hpos
  rw [scanString, bind_nextIs _ hpos]
  rcases cursor_cases hpos with ⟨hnil, -⟩ | ⟨c, hcons, hpos₁, -⟩
  · rw [hnil]
    exact .refuse
  · rw [hcons, List.head?_cons, Option.any_some, parseString]
    by_cases hquote : c = 0x22
    · rw [decide_eq_true hquote, if_pos rfl, if_pos hquote, bind_advance]
      exact agrees_scanStringLoop hpos₁ (by omega)
    · rw [decide_eq_false hquote, if_neg Bool.false_ne_true, if_neg hquote]
      exact .refuse

/-! ## Numbers and literals -/

/-- A run of symbols that is skipped. -/
theorem agrees_skipWhile (p : UInt8 → Bool) (hpos : pos ≤ text.length) :
    Agrees text (skipWhile text p pos) (some ((), (text.drop pos).dropWhile p)) := by
  obtain ⟨pos', hpos', hskip, hdrop⟩ := exists_skipLoop p hpos (n := text.length + 1) (by omega)
  exact Or.inr ⟨(), pos', hpos', hskip, by rw [hdrop]⟩

/-- A run of digits. -/
theorem agrees_scanDigits (hpos : pos ≤ text.length) :
    Agrees text (scanDigits text pos) ((skipDigits (text.drop pos)).map ((), ·)) := by
  rw [scanDigits, bind_nextIs _ hpos]
  unfold skipDigits
  by_cases hdigit : (text.drop pos).head?.any isDigitByte = true
  · rw [hdigit, if_pos rfl]
    exact agrees_skipWhile _ hpos
  · rw [if_neg hdigit, if_neg hdigit]
    exact .refuse

/-- The whole part of a number. -/
theorem agrees_scanWhole (hpos : pos ≤ text.length) :
    Agrees text (scanWhole text pos) ((skipWhole (text.drop pos)).map ((), ·)) := by
  rw [scanWhole, bind_has]
  rcases cursor_cases hpos with ⟨hnil, hend⟩ | ⟨c, hcons, hpos₁, hc⟩
  · rw [decide_eq_false (by omega), hnil]
    exact .refuse
  · rw [decide_eq_true hpos₁, if_pos rfl, bind_peek hc, hcons, skipWhole]
    by_cases hzero : c = 0x30
    · rw [if_pos hzero, if_pos hzero, bind_advance, bind_nextIs _ hpos₁]
      by_cases hdigit : (text.drop (pos + 1)).head?.any isDigitByte = true
      · rw [if_pos hdigit, hdigit]
        exact .refuse
      · rw [if_neg hdigit, if_neg hdigit]
        exact .done hpos₁ ()
    · rw [if_neg hzero, if_neg hzero]
      by_cases hrange : (decide (0x31 ≤ c) && decide (c ≤ 0x39)) = true
      · rw [if_pos hrange, if_pos hrange, ← hcons]
        exact agrees_skipWhile _ hpos
      · rw [if_neg hrange, if_neg hrange]
        exact .refuse

/-- The fraction of a number. -/
theorem agrees_scanFraction (hpos : pos ≤ text.length) :
    Agrees text (scanFraction text pos) ((skipFraction (text.drop pos)).map ((), ·)) := by
  rw [scanFraction, bind_nextIs _ hpos]
  unfold skipFraction
  rcases cursor_cases hpos with ⟨hnil, -⟩ | ⟨c, hcons, hpos₁, -⟩
  · rw [hnil]
    have := Agrees.done hpos ()
    rw [hnil] at this
    exact this
  · by_cases hpoint : c = 0x2e
    · rw [hcons, hpoint]
      simp only [List.head?_cons, Option.any_some, decide_true, if_true, List.tail_cons]
      rw [bind_advance]
      exact agrees_scanDigits hpos₁
    · rw [if_neg (by simpa [hcons] using hpoint), if_neg (by simpa [hcons] using hpoint)]
      exact .done hpos ()

/-- The exponent of a number. -/
theorem agrees_scanExponent (hpos : pos ≤ text.length) :
    Agrees text (scanExponent text pos) ((skipExponent (text.drop pos)).map ((), ·)) := by
  rw [scanExponent, bind_nextIs _ hpos]
  unfold skipExponent
  rcases cursor_cases hpos with ⟨hnil, -⟩ | ⟨c, hcons, hpos₁, -⟩
  · rw [hnil]
    have := Agrees.done hpos ()
    rw [hnil] at this
    exact this
  · by_cases hletter : c = 0x65 ∨ c = 0x45
    · rw [if_pos (by simpa [hcons] using hletter), if_pos (by simpa [hcons] using hletter),
        bind_advance, bind_nextIs _ hpos₁, hcons, List.tail_cons]
      unfold skipSign
      rcases cursor_cases hpos₁ with ⟨hnil, -⟩ | ⟨d, hcons', hpos₂, -⟩
      · rw [hnil]
        have := agrees_scanDigits hpos₁
        rw [hnil] at this
        exact this
      · by_cases hsign : d = 0x2b ∨ d = 0x2d
        · rw [if_pos (by simpa [hcons'] using hsign), if_pos (by simpa [hcons'] using hsign),
            hcons', List.tail_cons]
          exact agrees_scanDigits hpos₂
        · rw [if_neg (by simpa [hcons'] using hsign), if_neg (by simpa [hcons'] using hsign)]
          exact agrees_scanDigits hpos₁
    · rw [if_neg (by simpa [hcons] using hletter), if_neg (by simpa [hcons] using hletter)]
      exact .done hpos ()

/-- The sign of a number is skipped. -/
theorem agrees_scanMinus {c : UInt8} (hcons : text.drop pos = c :: text.drop (pos + 1))
    (hpos : pos + 1 ≤ text.length) (hc : text[pos]? = some c) :
    Agrees text (scanMinus text pos) (some ((), skipMinus (text.drop pos))) := by
  rw [scanMinus, bind_peek hc, hcons]
  unfold skipMinus
  rw [List.head?_cons, List.tail_cons]
  by_cases hminus : c = 0x2d
  · rw [if_pos hminus, if_pos (by rw [hminus])]
    exact Or.inr ⟨(), pos + 1, hpos, rfl, rfl⟩
  · rw [if_neg hminus, if_neg (by simpa using hminus), ← hcons]
    exact .done (by omega) ()

/-- The value of a token, which is not empty. -/
theorem scanFiniteDouble_apply {token : Bytes} (hne : token ≠ []) :
    scanFiniteDouble token pos = some (parseFiniteDouble token, pos) := by
  cases token with
  | nil => exact absurd rfl hne
  | cons c token =>
    unfold scanFiniteDouble
    dsimp only
    cases parseFiniteDouble (c :: token) <;> rfl

/-- A number without its token is refused, one with a token is what it spells. -/
theorem agrees_token {stop : ℕ} (hstop : stop ≤ text.length)
    (hskip : skipNumber (text.drop pos) = some (text.drop stop)) (hpos : pos ≤ text.length) :
    Agrees text ((do
        let stop ← position
        if stop = pos then refuse
        else
          let token ← slice text pos stop
          let value ← scanFiniteDouble token
          return ⟨.finite value, token⟩ : Scanner Number) stop)
      (parseNumber (text.drop pos)) := by
  obtain ⟨n, hn⟩ := skipNumber_eq_some hskip
  have htoken : (text.drop pos).take (stop - pos) = n.text := by
    rw [← take_drop_sub hstop, hn, List.length_append, Nat.add_sub_cancel, List.take_left]
  have hne : stop ≠ pos := by
    rintro rfl
    rw [Nat.sub_self, List.take_zero] at htoken
    exact n.text_ne_nil htoken.symm
  unfold parseNumber
  rw [bind_position, if_neg hne, bind_slice hpos, hskip]
  dsimp only
  rw [take_drop_sub hstop, htoken]
  have hvalue := @scanFiniteDouble_apply stop _ n.text_ne_nil
  cases hread : parseFiniteDouble n.text with
  | none =>
    rw [hread] at hvalue
    exact Or.inl ⟨stop, bind_of_refused hvalue, rfl⟩
  | some value =>
    rw [hread] at hvalue
    rw [bind_of_eq hvalue]
    exact .done hstop _

/-- **`ParseNumber`**, where there is an octet. -/
theorem agrees_scanNumber {c : UInt8} (hcons : text.drop pos = c :: text.drop (pos + 1))
    (hpos : pos + 1 ≤ text.length) (hc : text[pos]? = some c) :
    Agrees text (scanNumber text pos) (parseNumber (text.drop pos)) := by
  -- a part that is refused, refuses the number
  have hrefused : skipNumber (text.drop pos) = none → parseNumber (text.drop pos) = none := by
    intro hnone
    rw [parseNumber, hnone]
  rw [scanNumber, bind_position]
  refine (agrees_scanMinus hcons hpos hc).next (fun hread => by cases hread)
    (fun _ pos₁ hpos₁ hread => ?_)
  have hminus := (Prod.mk.inj (Option.some.inj hread)).2
  refine (agrees_scanWhole hpos₁).next (fun hread => hrefused ?_) (fun _ pos₂ hpos₂ hread => ?_)
  · rw [skipNumber, hminus, Option.map_eq_none_iff.mp hread]
  obtain ⟨rest, hwhole, hrest⟩ := Option.map_eq_some_iff.mp hread
  rw [(Prod.mk.inj hrest).2] at hwhole
  refine (agrees_scanFraction hpos₂).next (fun hread => hrefused ?_) (fun _ pos₃ hpos₃ hread => ?_)
  · rw [skipNumber, hminus, hwhole]
    dsimp only
    rw [Option.map_eq_none_iff.mp hread]
  obtain ⟨rest, hfraction, hrest⟩ := Option.map_eq_some_iff.mp hread
  rw [(Prod.mk.inj hrest).2] at hfraction
  refine (agrees_scanExponent hpos₃).next (fun hread => hrefused ?_) (fun _ pos₄ hpos₄ hread => ?_)
  · rw [skipNumber, hminus, hwhole]
    dsimp only
    rw [hfraction]
    exact Option.map_eq_none_iff.mp hread
  obtain ⟨rest, hexponent, hrest⟩ := Option.map_eq_some_iff.mp hread
  rw [(Prod.mk.inj hrest).2] at hexponent
  refine agrees_token hpos₄ ?_ (by omega)
  rw [skipNumber, hminus, hwhole]
  dsimp only
  rw [hfraction]
  exact hexponent

/-- The comparison with a literal. -/
theorem compare_apply (literal : Bytes) (hpos : pos ≤ text.length) :
    compare text literal pos = some (some (literal.isPrefixOf (text.drop pos)), pos) := by
  have heq : ((text.drop pos).take literal.length == literal) = literal.isPrefixOf (text.drop pos) := by
    rw [Bool.eq_iff_iff, beq_iff_eq, List.isPrefixOf_iff_prefix, List.prefix_iff_eq_take]
    exact eq_comm
  rw [compare, bind_position, bind_slice hpos, Nat.add_sub_cancel_left, heq]
  rfl

/-- **The first literal that is there.** -/
theorem agrees_scanLiteral (ls : List (Bytes × Value)) (hpos : pos ≤ text.length) :
    Agrees text (scanLiteral text ls pos)
      ((ls.find? (fun l => l.1.isPrefixOf (text.drop pos))).map
        (fun l => (l.2, (text.drop pos).drop l.1.length))) := by
  induction ls with
  | nil => exact .refuse
  | cons l ls ih =>
    rw [scanLiteral, bind_of_eq (compare_apply l.1 hpos), List.find?_cons]
    cases hprefix : l.1.isPrefixOf (text.drop pos) with
    | false => exact ih
    | true =>
      have hlen : pos + l.1.length ≤ text.length := by
        have hle := (List.isPrefixOf_iff_prefix.mp hprefix).length_le
        rw [List.length_drop] at hle
        omega
      rw [if_pos rfl, bind_advance, Option.map_some, List.drop_drop]
      exact .done hlen l.2

/-- The literals that an octet can open. -/
theorem parseLiteral_cons {c : UInt8} {rest : Bytes} :
    (c = 0x74 ∨ c = 0x66 → parseLiteral (c :: rest)
      = ([(utf8 "true", Value.bool true), (utf8 "false", .bool false)].find?
          (fun l => l.1.isPrefixOf (c :: rest))).map (fun l => (l.2, (c :: rest).drop l.1.length)))
      ∧ (c = 0x6e → parseLiteral (c :: rest)
        = ([(utf8 "null", Value.null)].find? (fun l => l.1.isPrefixOf (c :: rest))).map
          (fun l => (l.2, (c :: rest).drop l.1.length))) := by
  unfold parseLiteral literals
  refine ⟨fun h => ?_, fun h => ?_⟩
  · have hnull : (utf8 "null").isPrefixOf (c :: rest) = false := by
      rcases h with rfl | rfl <;> rfl
    simp only [List.find?_cons, List.find?_nil, hnull]
  · subst h
    have htrue : (utf8 "true").isPrefixOf (0x6e :: rest) = false := rfl
    have hfalse : (utf8 "false").isPrefixOf (0x6e :: rest) = false := rfl
    simp only [List.find?_cons, htrue, hfalse]

/-! ## Values -/

/-- **Whitespace is skipped.** -/
theorem bind_scanWhitespace {β : Type} (hpos : pos ≤ text.length) {f : Unit → Scanner β} :
    ∃ pos' ≤ text.length, (scanWhitespace text >>= f) pos = f () pos'
      ∧ text.drop pos' = skipWhitespace (text.drop pos) :=
  bind_skipWhile isWhitespace hpos

section Items

variable {α : Type} {item : Scanner α} {r : Reader α} {closing : UInt8}

/-- An item that is refused. -/
theorem parseItems_refused {rest : Bytes} (hread : r.read rest = none) :
    parseItems r closing rest = none := by
  rw [parseItems]
  split
  · rfl
  · rename_i hsome
    rw [hread] at hsome
    cases hsome

/-- An item that nothing follows. -/
theorem parseItems_unseparated {rest rest' : Bytes} {a : α} (hread : r.read rest = some (a, rest'))
    (hsep : separator closing rest' = none) : parseItems r closing rest = none := by
  rw [Option.eq_none_iff_forall_ne_some]
  intro s hs
  obtain ⟨a', rest'', rest₂, hread', hcases⟩ := parseItems_eq_some hs
  rw [hread] at hread'
  cases hread'
  rcases hcases with ⟨hsome, -⟩ | ⟨hsome, -⟩
  · rw [hsep] at hsome
    cases hsome
  · rw [hsep] at hsome
    cases hsome

/-- **The loop of `ParseArray` and of `ParseObject`**: a round for every octet
that is left, and one more. -/
theorem agrees_scanItems (h : Follows text item r.read) {n : ℕ} (hpos : pos ≤ text.length)
    (hn : text.length < pos + n) :
    Agrees text (scanItems text item closing n pos) (parseItems r closing (text.drop pos)) := by
  induction n generalizing pos with
  | zero => omega
  | succ n ih =>
    rw [scanItems]
    refine (h pos hpos).next parseItems_refused (fun a pos₁ hpos₁ hread => ?_)
    obtain ⟨pos₂, hpos₂, hskip, hdrop⟩ := bind_scanWhitespace (β := List α) hpos₁
    have hlt := (r.consumes hread).length_lt
    have hle : (text.drop pos₂).length ≤ (text.drop pos₁).length := by
      rw [hdrop]
      exact List.length_dropWhile_le _ _
    rw [List.length_drop, List.length_drop] at hlt hle
    rw [hskip, bind_has]
    rcases cursor_cases hpos₂ with ⟨hnil, hend⟩ | ⟨c, hcons, hpos₃, hc⟩
    · have hsep : separator closing (text.drop pos₁) = none := by
        rw [separator, ← hdrop, hnil]
      rw [decide_eq_false (by omega), parseItems_unseparated hread hsep]
      exact .refuse
    · rw [decide_eq_true hpos₃, if_pos rfl, bind_peek hc]
      have hsep : separator closing (text.drop pos₁)
          = if c = 0x2c then some (true, text.drop (pos₂ + 1))
            else if c = closing then some (false, text.drop (pos₂ + 1)) else none := by
        rw [separator, ← hdrop, hcons]
      split_ifs at hsep ⊢
      · rw [bind_advance, parseItems_more hread hsep]
        exact (ih hpos₃ (by omega)).map
      · rw [bind_advance, parseItems_last hread hsep]
        exact .done hpos₃ [a]
      · rw [parseItems_unseparated hread hsep]
        exact .refuse

/-- **`ParseArray` and `ParseObject`**, where there is an opening bracket. -/
theorem agrees_scanBracketed (h : Follows text item r.read) {opening : UInt8}
    (hpos : pos + 1 ≤ text.length) (hc : text[pos]? = some opening) :
    Agrees text (scanBracketed text opening closing item pos)
      (parseBracketed r closing (text.drop (pos + 1))) := by
  rw [scanBracketed, bind_peek hc, if_neg (not_not.mpr rfl), bind_advance]
  obtain ⟨pos₁, hpos₁, hskip, hdrop⟩ := bind_scanWhitespace (β := List α) hpos
  rw [hskip, bind_nextIs _ hpos₁]
  unfold parseBracketed
  rw [← hdrop]
  dsimp only
  rcases cursor_cases hpos₁ with ⟨hnil, -⟩ | ⟨c, hcons, hpos₂, -⟩
  · rw [if_neg (by simp [hnil]), if_neg (by simp [hnil])]
    exact agrees_scanItems h hpos₁ (by omega)
  · by_cases hclosing : c = closing
    · rw [if_pos (by simp [hcons, hclosing]), if_pos (by simp [hcons, hclosing]), bind_advance,
        hcons, List.tail_cons]
      exact .done hpos₂ []
    · rw [if_neg (by simpa [hcons] using hclosing), if_neg (by simpa [hcons] using hclosing)]
      exact agrees_scanItems h hpos₁ (by omega)

end Items

/-- **A member of an object.** -/
theorem follows_scanMember {inner : Scanner Value} {r : Reader Value} (h : Follows text inner r.read) :
    Follows text (scanMember text inner) (memberReader r).read := by
  intro pos hpos
  show Agrees text _ (readMember r (text.drop pos))
  unfold scanMember readMember
  obtain ⟨pos₁, hpos₁, hskip, hdrop⟩ := bind_scanWhitespace (β := Member) hpos
  rw [hskip, ← hdrop]
  refine (follows_scanString pos₁ hpos₁).next (fun hread => ?_) (fun key pos₂ hpos₂ hread => ?_)
  · rw [hread]
  rw [hread]
  dsimp only
  obtain ⟨pos₃, hpos₃, hskip, hdrop⟩ := bind_scanWhitespace (β := Member) hpos₂
  rw [hskip, bind_nextIs _ hpos₃, ← hdrop]
  rcases cursor_cases hpos₃ with ⟨hnil, -⟩ | ⟨c, hcons, hpos₄, -⟩
  · rw [hnil]
    exact .refuse
  · rw [hcons, List.head?_cons, Option.any_some]
    dsimp only
    by_cases hcolon : c = 0x3a
    · rw [decide_eq_true hcolon, if_pos rfl, if_pos hcolon, bind_advance]
      obtain ⟨pos₅, hpos₅, hskip, hdrop⟩ := bind_scanWhitespace (β := Member) hpos₄
      rw [hskip, bind_position, ← hdrop]
      refine (h pos₅ hpos₅).next (fun hread => ?_) (fun value pos₆ hpos₆ hread => ?_)
      · rw [hread]
        rfl
      · rw [hread, bind_position, bind_slice hpos₅, Option.map_some, take_drop_sub hpos₆]
        exact .done hpos₆ _
    · rw [decide_eq_false hcolon, if_neg Bool.false_ne_true, if_neg hcolon]
      exact .refuse

/-- A scanner of the values one level deeper, if there is one, follows the
reader. -/
def FollowsInner (text : Bytes) (inner : Option (Scanner Value)) (r : Option (Reader Value)) :
    Prop :=
  inner = none ∧ r = none ∨ ∃ m r', inner = some m ∧ r = some r' ∧ Follows text m r'.read

/-- **`ParseValue`**, over the values one level deeper. -/
theorem follows_scanValueOver {inner : Option (Scanner Value)} {r : Option (Reader Value)}
    (h : FollowsInner text inner r) :
    Follows text (scanValueOver text inner) (readValue r) := by
  intro pos hpos
  unfold scanValueOver readValue
  obtain ⟨pos₁, hpos₁, hskip, hdrop⟩ := bind_scanWhitespace (β := Value) hpos
  rw [hskip, bind_has, ← hdrop]
  rcases cursor_cases hpos₁ with ⟨hnil, hend⟩ | ⟨c, hcons, hpos₂, hc⟩
  · rw [decide_eq_false (by omega), hnil]
    exact .refuse
  · rw [decide_eq_true hpos₂, if_pos rfl, bind_peek hc, hcons]
    dsimp only
    unfold readValueAt
    by_cases hbrace : c = 0x7b
    · rw [if_pos hbrace, if_pos hbrace]
      rcases h with ⟨rfl, rfl⟩ | ⟨m, r', rfl, rfl, hm⟩
      · exact .refuse
      · rw [hbrace] at hc
        exact (agrees_scanBracketed (follows_scanMember hm) hpos₂ hc).map
    rw [if_neg hbrace, if_neg hbrace]
    by_cases hbracket : c = 0x5b
    · rw [if_pos hbracket, if_pos hbracket]
      rcases h with ⟨rfl, rfl⟩ | ⟨m, r', rfl, rfl, hm⟩
      · exact .refuse
      · rw [hbracket] at hc
        exact (agrees_scanBracketed hm hpos₂ hc).map
    rw [if_neg hbracket, if_neg hbracket]
    by_cases hquote : c = 0x22
    · rw [if_pos hquote, if_pos hquote, ← hcons]
      exact (follows_scanString pos₁ hpos₁).map
    rw [if_neg hquote, if_neg hquote]
    by_cases hbool : c = 0x74 ∨ c = 0x66
    · rw [if_pos (by simpa using hbool), if_pos (by simpa using Or.inl hbool),
        parseLiteral_cons.1 hbool, ← hcons]
      exact agrees_scanLiteral _ hpos₁
    rw [if_neg (by simpa using hbool)]
    by_cases hnull : c = 0x6e
    · rw [if_pos hnull, if_pos (by simp [hnull]), parseLiteral_cons.2 hnull, ← hcons]
      exact agrees_scanLiteral _ hpos₁
    have hliteral : ¬ (decide (c = 0x74) || decide (c = 0x66) || decide (c = 0x6e)) = true := by
      simp only [Bool.or_eq_true, decide_eq_true_eq]
      exact not_or.mpr ⟨hbool, hnull⟩
    rw [if_neg hnull, if_neg hliteral]
    by_cases hnumber : (decide (c = 0x2d) || (decide (0x30 ≤ c) && decide (c ≤ 0x39))) = true
    · rw [if_pos hnumber, if_pos hnumber, ← hcons]
      exact (agrees_scanNumber hcons hpos₂ hc).map
    · rw [if_neg hnumber, if_neg hnumber]
      exact .refuse

/-- **`ParseValue` follows the reader.** -/
theorem follows_scanValue (room : ℕ) : Follows text (scanValue text room) (parseValue room).read := by
  induction room with
  | zero => exact follows_scanValueOver (Or.inl ⟨rfl, rfl⟩)
  | succ room ih => exact follows_scanValueOver (Or.inr ⟨_, _, rfl, rfl, ih⟩)

/-- **`Parse` reads no octet outside of its text**, and what it answers is what
the reader answers. -/
theorem exists_scanDocument (text : Bytes) :
    ∃ pos, scanDocument text 0 = some (parse text, pos) := by
  unfold scanDocument parse parseDocument
  by_cases hlen : maxJsonInputBytes < text.length
  · rw [if_pos hlen, if_pos hlen]
    exact ⟨0, rfl⟩
  · rw [if_neg hlen, if_neg hlen]
    obtain ⟨pos₁, hpos₁, hskip, hdrop⟩ := bind_scanWhitespace (β := Value) (Nat.zero_le text.length)
    rw [hskip]
    rw [List.drop_zero] at hdrop
    rw [← hdrop]
    rcases follows_scanValue maxJsonNestDepth pos₁ hpos₁ with
      ⟨pos₂, hscan, hread⟩ | ⟨value, pos₂, hpos₂, hscan, hread⟩
    · exact ⟨pos₂, by rw [hread, bind_of_refused hscan]⟩
    · obtain ⟨pos₃, hpos₃, hskip, hdrop⟩ := bind_scanWhitespace (β := Value) hpos₂
      rw [bind_of_eq hscan, hskip, bind_position, hread]
      dsimp only
      rw [← hdrop]
      refine ⟨pos₃, ?_⟩
      by_cases hend : pos₃ = text.length
      · rw [if_neg (not_not.mpr hend), if_pos (List.drop_eq_nil_of_le hend.ge)]
        rfl
      · rw [if_pos hend, if_neg (fun hnil => hend ?_)]
        · rfl
        · have := List.drop_eq_nil_iff.mp hnil
          omega

end AzooKey.Ipc.Json

import AzooKey.Lib.Charconv
import AzooKey.Lib.OrderedMap

/-!
# The JSON reader and writer

`ipc/src/Json.cpp`. A position in the text is the list of the bytes from
there on, and a reader answers what it read and the bytes that follow; a
reader that fails answers nothing. Every reader of the source moves forward
when it succeeds, and `Reader` carries that as a field: the loops over the
members of an object and the elements of an array end because of it.

The depth that the source counts up to `kMaxJsonNestDepth` is counted down
here: `parseValue room` reads a value that may nest `room` levels deep.
-/

namespace AzooKey.Ipc.Json

/-- `kMaxJsonInputBytes`. -/
def maxJsonInputBytes : ℕ := 1024 * 1024

/-- `kMaxJsonNestDepth`. -/
def maxJsonNestDepth : ℕ := 64

/-- `Number`: a value and the spelling it was read from, empty when the number
was made from the value. -/
structure Number where
  value : Double
  token : Bytes := []

/-- `Value`. An object is the entries of a `std::map`, in the order of their
keys. -/
inductive Value
  | null
  | bool (value : Bool)
  | number (number : Number)
  | string (text : Bytes)
  | array (elements : List Value)
  | object (members : List (Bytes × Value))

/-! ## Characters -/

/-- `AppendUtf8`: the bytes of a scalar. -/
def appendUtf8 (codepoint : ℕ) : Option Bytes :=
  if 0x10FFFF < codepoint || (0xD800 ≤ codepoint && codepoint ≤ 0xDFFF) then none
  else if codepoint < 0x80 then some [UInt8.ofNat codepoint]
  else if codepoint < 0x800 then
    some [UInt8.ofNat (0xC0 ||| (codepoint >>> 6)), UInt8.ofNat (0x80 ||| (codepoint &&& 0x3F))]
  else if codepoint < 0x10000 then
    some [UInt8.ofNat (0xE0 ||| (codepoint >>> 12)),
      UInt8.ofNat (0x80 ||| ((codepoint >>> 6) &&& 0x3F)),
      UInt8.ofNat (0x80 ||| (codepoint &&& 0x3F))]
  else
    some [UInt8.ofNat (0xF0 ||| (codepoint >>> 18)),
      UInt8.ofNat (0x80 ||| ((codepoint >>> 12) &&& 0x3F)),
      UInt8.ofNat (0x80 ||| ((codepoint >>> 6) &&& 0x3F)),
      UInt8.ofNat (0x80 ||| (codepoint &&& 0x3F))]

/-- The value of a hexadecimal digit. -/
def hexValue (h : UInt8) : Option ℕ :=
  if 0x30 ≤ h && h ≤ 0x39 then some (h.toNat - 0x30)
  else if 0x61 ≤ h && h ≤ 0x66 then some (h.toNat - 0x61 + 10)
  else if 0x41 ≤ h && h ≤ 0x46 then some (h.toNat - 0x41 + 10)
  else none

/-- `ReadHexCodepoint`: four hexadecimal digits. -/
def readHexCodepoint : Bytes → Option (ℕ × Bytes)
  | a :: b :: c :: d :: rest =>
    match hexValue a, hexValue b, hexValue c, hexValue d with
    | some a, some b, some c, some d => some (((a * 16 + b) * 16 + c) * 16 + d, rest)
    | _, _, _, _ => none
  | _ => none

/-- `Utf8SequenceLength`. -/
def utf8SequenceLength (first : UInt8) : Option ℕ :=
  if first < 0x80 then some 1
  else if 0xC2 ≤ first && first ≤ 0xDF then some 2
  else if 0xE0 ≤ first && first ≤ 0xEF then some 3
  else if 0xF0 ≤ first && first ≤ 0xF4 then some 4
  else none

/-- The second bytes that a lead byte of three or four excludes. -/
def secondOutside (first : UInt8) (length : ℕ) (second : UInt8) : Bool :=
  (length == 3 && ((first = 0xE0 && second < 0xA0) || (first = 0xED && 0xA0 ≤ second)))
    || (length == 4 && ((first = 0xF0 && second < 0x90) || (first = 0xF4 && 0x8F < second)))

/-- The raw character of a string that a byte opens: the bytes of the
character, and what follows it. -/
def readCharacter (first : UInt8) (rest : Bytes) : Option (Bytes × Bytes) :=
  if first < 0x20 then none
  else
    match utf8SequenceLength first with
    | none => none
    | some length =>
      if rest.length < length - 1 then none
      else if (rest.take (length - 1)).any (fun next => next &&& 0xC0 ≠ 0x80) then none
      else if rest.head?.any (secondOutside first length) then none
      else some (first :: rest.take (length - 1), rest.drop (length - 1))

/-- The escapes of one letter. -/
def letterEscape (esc : UInt8) : Option UInt8 :=
  if esc = 0x22 then some 0x22
  else if esc = 0x5c then some 0x5c
  else if esc = 0x2f then some 0x2f
  else if esc = 0x62 then some 0x08
  else if esc = 0x66 then some 0x0c
  else if esc = 0x6e then some 0x0a
  else if esc = 0x72 then some 0x0d
  else if esc = 0x74 then some 0x09
  else none

/-- What follows a high surrogate: the escape of a low one. -/
def readLowSurrogate : Bytes → Option (ℕ × Bytes)
  | a :: b :: rest =>
    if a = 0x5c && b = 0x75 then
      match readHexCodepoint rest with
      | none => none
      | some (low, rest) => if low < 0xDC00 || 0xDFFF < low then none else some (low, rest)
    else none
  | _ => none

/-- The escape of a codepoint, after its `u`. -/
def readUnicodeEscape (text : Bytes) : Option (Bytes × Bytes) :=
  match readHexCodepoint text with
  | none => none
  | some (codepoint, rest) =>
    if 0xD800 ≤ codepoint && codepoint ≤ 0xDBFF then
      match readLowSurrogate rest with
      | none => none
      | some (low, rest) =>
        (appendUtf8 (0x10000 + (((codepoint - 0xD800) <<< 10) ||| (low - 0xDC00)))).map (·, rest)
    else if 0xDC00 ≤ codepoint && codepoint ≤ 0xDFFF then none
    else (appendUtf8 codepoint).map (·, rest)

/-- An escape, after its backslash. -/
def readEscape : Bytes → Option (Bytes × Bytes)
  | [] => none
  | esc :: rest =>
    if esc = 0x75 then readUnicodeEscape rest
    else (letterEscape esc).map (fun c => ([c], rest))

/-- What is read of a text, and what is left of it. -/
def Consumes {α : Type} (text : Bytes) (r : α × Bytes) : Prop :=
  ∃ consumed, consumed ≠ [] ∧ text = consumed ++ r.2

/-- What is left is shorter. -/
theorem Consumes.length_lt {α : Type} {text : Bytes} {r : α × Bytes} (h : Consumes text r) :
    r.2.length < text.length := by
  obtain ⟨consumed, hne, rfl⟩ := h
  rw [List.length_append]
  have := List.length_pos_iff.mpr hne
  omega

/-- More was consumed before. -/
theorem Consumes.append_left {α : Type} {text before : Bytes} {r : α × Bytes}
    (h : Consumes text r) : Consumes (before ++ text) r := by
  obtain ⟨consumed, hne, rfl⟩ := h
  exact ⟨before ++ consumed, by simp [hne], by rw [List.append_assoc]⟩

/-- One byte was consumed before. -/
theorem Consumes.cons {α : Type} {text : Bytes} {c : UInt8} {r : α × Bytes}
    (h : Consumes text r) : Consumes (c :: text) r := by
  show Consumes ([c] ++ text) r
  exact h.append_left

/-- What was read is something else. -/
theorem Consumes.change {α β : Type} {text : Bytes} {r : α × Bytes} (h : Consumes text r)
    {s : β × Bytes} (hs : s.2 = r.2) : Consumes text s := by
  obtain ⟨consumed, hne, heq⟩ := h
  exact ⟨consumed, hne, by rw [hs]; exact heq⟩

/-- A raw character moves forward. -/
theorem consumes_readCharacter {first : UInt8} {rest : Bytes} {r : Bytes × Bytes}
    (h : readCharacter first rest = some r) : Consumes (first :: rest) r := by
  unfold readCharacter at h
  repeat' split at h
  all_goals cases h
  exact ⟨first :: rest.take _, by simp, by rw [List.cons_append, List.take_append_drop]⟩

/-- Four digits move forward. -/
theorem consumes_readHexCodepoint {text : Bytes} {r : ℕ × Bytes}
    (h : readHexCodepoint text = some r) : Consumes text r := by
  unfold readHexCodepoint at h
  split at h
  · split at h
    · obtain rfl := Option.some.inj h
      exact ⟨[_, _, _, _], by simp, rfl⟩
    · exact absurd h (by simp)
  · exact absurd h (by simp)

/-- The escape of a low surrogate moves forward. -/
theorem consumes_readLowSurrogate {text : Bytes} {r : ℕ × Bytes}
    (h : readLowSurrogate text = some r) : Consumes text r := by
  unfold readLowSurrogate at h
  repeat' split at h
  all_goals cases h
  rename_i hread _
  exact (consumes_readHexCodepoint hread).cons.cons

/-- The escape of a codepoint moves forward. -/
theorem consumes_readUnicodeEscape {text : Bytes} {r : Bytes × Bytes}
    (h : readUnicodeEscape text = some r) : Consumes text r := by
  unfold readUnicodeEscape at h
  cases hread : readHexCodepoint text with
  | none => rw [hread] at h; cases h
  | some p =>
    rw [hread] at h
    have hconsumes := consumes_readHexCodepoint hread
    dsimp only at h
    split at h
    · cases hlow : readLowSurrogate p.2 with
      | none => rw [hlow] at h; cases h
      | some q =>
        rw [hlow] at h
        obtain ⟨bytes, -, rfl⟩ := Option.map_eq_some_iff.mp h
        obtain ⟨before, -, heq⟩ := hconsumes
        rw [heq]
        exact (consumes_readLowSurrogate hlow).append_left.change rfl
    · split at h
      · cases h
      · obtain ⟨bytes, -, rfl⟩ := Option.map_eq_some_iff.mp h
        exact hconsumes.change rfl

/-- An escape moves forward. -/
theorem consumes_readEscape {text : Bytes} {r : Bytes × Bytes}
    (h : readEscape text = some r) : Consumes text r := by
  cases text with
  | nil => cases h
  | cons esc rest =>
    simp only [readEscape] at h
    split at h
    · exact (consumes_readUnicodeEscape h).cons
    · obtain ⟨c, -, rfl⟩ := Option.map_eq_some_iff.mp h
      exact ⟨[esc], by simp, rfl⟩

/-- One character of a string, raw or escaped. -/
def readUnit (c : UInt8) (rest : Bytes) : Option (Bytes × Bytes) :=
  if c = 0x5c then readEscape rest else readCharacter c rest

/-- A character moves forward. -/
theorem consumes_readUnit {c : UInt8} {rest : Bytes} {r : Bytes × Bytes}
    (h : readUnit c rest = some r) : Consumes (c :: rest) r := by
  unfold readUnit at h
  split at h
  · exact (consumes_readEscape h).cons
  · exact consumes_readCharacter h

/-- The rest of a string: its characters up to the closing quote. -/
def readStringBody (text : Bytes) : Option (Bytes × Bytes) :=
  match text with
  | [] => none
  | c :: rest =>
    if c = 0x22 then some ([], rest)
    else
      match _h : readUnit c rest with
      | none => none
      | some (character, rest) =>
        (readStringBody rest).map (fun r => (character ++ r.1, r.2))
termination_by text.length
decreasing_by exact (consumes_readUnit _h).length_lt

/-- `ParseString`. -/
def parseString : Bytes → Option (Bytes × Bytes)
  | [] => none
  | c :: rest => if c = 0x22 then readStringBody rest else none

/-- The characters of a string move forward. -/
theorem consumes_readStringBody {text : Bytes} {r : Bytes × Bytes}
    (h : readStringBody text = some r) : Consumes text r := by
  induction text using readStringBody.induct generalizing r with
  | case1 => rw [readStringBody] at h; cases h
  | case2 rest =>
    rw [readStringBody, if_pos rfl] at h
    cases h
    exact ⟨[0x22], by simp, rfl⟩
  | case3 c rest hc hnone => rw [readStringBody, if_neg hc, hnone] at h; cases h
  | case4 c rest hc character rest' hsome ih =>
    rw [readStringBody, if_neg hc, hsome] at h
    obtain ⟨s, hs, rfl⟩ := Option.map_eq_some_iff.mp h
    obtain ⟨consumed, -, heq⟩ := consumes_readUnit hsome
    rw [heq]
    exact (ih hs).append_left.change rfl

/-- A string moves forward. -/
theorem consumes_parseString {text : Bytes} {r : Bytes × Bytes}
    (h : parseString text = some r) : Consumes text r := by
  cases text with
  | nil => cases h
  | cons c rest =>
    simp only [parseString] at h
    split at h
    · exact (consumes_readStringBody h).cons
    · cases h

/-! ## Numbers -/

/-- `AdjustedDecimalExponent`: the decimal exponent of the first digit that is
not zero. The explicit exponent saturates. -/
def adjustedDecimalExponent (token : Bytes) : Option ℤ :=
  let isLetter := fun c : UInt8 => c = 0x65 || c = 0x45
  let significand := token.takeWhile (fun c => !isLetter c)
  let exponent := (token.dropWhile (fun c => !isLetter c)).drop 1
  let signed := exponent.head?.any (fun c => c = 0x2b || c = 0x2d)
  let value : ℕ := (if signed then exponent.tail else exponent).foldl
    (fun value c => min (value * 10 + (c.toNat - 0x30)) 10000) 0
  let explicit : ℤ := if exponent.head? = some 0x2d then -value else value
  let digits := if significand.head? = some 0x2d then significand.tail else significand
  let beforePoint : ℕ := (digits.takeWhile (· ≠ 0x2e)).length
  ((digits.filter (· ≠ 0x2e)).findIdx? (· ≠ 0x30)).map
    (fun first => explicit + beforePoint - first - 1)

/-- `UnderflowsToZero`. -/
def underflowsToZero (token : Bytes) : Bool := (adjustedDecimalExponent token).any (· < -324)

/-- `ParseFiniteDouble`. -/
def parseFiniteDouble (token : Bytes) : Option Binary64 :=
  match fromChars token with
  | some value => some value
  | none =>
    if underflowsToZero token then some (.zero (token.head? = some 0x2d)) else none

/-- What follows a minus sign, if there is one. -/
def skipMinus (text : Bytes) : Bytes := if text.head? = some 0x2d then text.tail else text

/-- What follows a sign, if there is one. -/
def skipSign (text : Bytes) : Bytes :=
  if text.head? = some 0x2b || text.head? = some 0x2d then text.tail else text

/-- What follows a run of digits, of which there must be one. -/
def skipDigits (text : Bytes) : Option Bytes :=
  if text.head?.any isDigitByte then some (text.dropWhile isDigitByte) else none

/-- What follows the whole part of a number. -/
def skipWhole : Bytes → Option Bytes
  | [] => none
  | c :: rest =>
    if c = 0x30 then if rest.head?.any isDigitByte then none else some rest
    else if 0x31 ≤ c && c ≤ 0x39 then some ((c :: rest).dropWhile isDigitByte)
    else none

/-- What follows the fraction of a number, if there is one. -/
def skipFraction (text : Bytes) : Option Bytes :=
  if text.head? = some 0x2e then skipDigits text.tail else some text

/-- What follows the exponent of a number, if there is one. -/
def skipExponent (text : Bytes) : Option Bytes :=
  if text.head? = some 0x65 || text.head? = some 0x45 then skipDigits (skipSign text.tail)
  else some text

/-- What follows a number. -/
def skipNumber (text : Bytes) : Option Bytes :=
  match skipWhole (skipMinus text) with
  | none => none
  | some rest =>
    match skipFraction rest with
    | none => none
    | some rest => skipExponent rest

/-- `ParseNumber`. -/
def parseNumber (text : Bytes) : Option (Number × Bytes) :=
  match skipNumber text with
  | none => none
  | some rest =>
    let token := text.take (text.length - rest.length)
    (parseFiniteDouble token).map (fun value => (⟨.finite value, token⟩, rest))

/-- A run of digits is skipped whole. -/
theorem skipDigits_eq_some {text rest : Bytes} (h : skipDigits text = some rest) :
    ∃ digits, digits ≠ [] ∧ (∀ c ∈ digits, isDigitByte c = true) ∧ text = digits ++ rest := by
  unfold skipDigits at h
  split at h
  · rename_i hhead
    cases h
    refine ⟨text.takeWhile isDigitByte, ?_, fun _ => List.mem_takeWhile_imp,
      (List.takeWhile_append_dropWhile).symm⟩
    cases text with
    | nil => simp at hhead
    | cons c text =>
      have hc : isDigitByte c = true := by simpa using hhead
      simp [hc]
  · cases h

/-- The whole part of a number has its form. -/
theorem skipWhole_eq_some {text rest : Bytes} (h : skipWhole text = some rest) :
    ∃ whole, (whole = [0x30] ∨ ∃ c t, whole = c :: t ∧ c ≠ 0x30)
      ∧ (∀ c ∈ whole, isDigitByte c = true) ∧ text = whole ++ rest := by
  cases text with
  | nil => cases h
  | cons c text =>
    simp only [skipWhole] at h
    split at h
    · rename_i hc
      split at h
      · cases h
      · cases h
        exact ⟨[0x30], Or.inl rfl, by simp [isDigitByte], by rw [hc]; rfl⟩
    · split at h
      · rename_i hne hrange
        cases h
        have hc : isDigitByte c = true := by
          simp only [Bool.and_eq_true, decide_eq_true_eq, UInt8.le_iff_toNat_le] at hrange
          simp only [isDigitByte, Bool.and_eq_true, decide_eq_true_eq, UInt8.le_iff_toNat_le]
          exact ⟨le_trans (by decide) hrange.1, hrange.2⟩
        refine ⟨(c :: text).takeWhile isDigitByte, Or.inr ?_, fun _ => List.mem_takeWhile_imp,
          (List.takeWhile_append_dropWhile).symm⟩
        exact ⟨c, text.takeWhile isDigitByte, by simp [hc], hne⟩
      · cases h

/-- **What is skipped as a number is a numeral.** -/
theorem skipNumber_eq_some {text rest : Bytes} (h : skipNumber text = some rest) :
    ∃ n : Numeral, text = n.text ++ rest := by
  obtain ⟨negative, hsign⟩ : ∃ negative : Bool,
      text = (if negative then [0x2d] else []) ++ skipMinus text := by
    unfold skipMinus
    cases text with
    | nil => exact ⟨false, rfl⟩
    | cons c text =>
      by_cases hc : c = 0x2d
      · exact ⟨true, by simp [hc]⟩
      · exact ⟨false, by simp [hc]⟩
  unfold skipNumber at h
  split at h
  · cases h
  · rename_i afterWhole hwhole
    obtain ⟨whole, hform, hdigits, htext⟩ := skipWhole_eq_some hwhole
    split at h
    · cases h
    · rename_i afterFraction hfraction
      obtain ⟨fraction, hfdigits, hftext⟩ : ∃ fraction : Bytes,
          (∀ c ∈ fraction, isDigitByte c = true)
            ∧ afterWhole = (if fraction = [] then [] else 0x2e :: fraction) ++ afterFraction := by
        unfold skipFraction at hfraction
        split at hfraction
        · rename_i hpoint
          obtain ⟨digits, hne, hall, heq⟩ := skipDigits_eq_some hfraction
          refine ⟨digits, hall, ?_⟩
          rw [if_neg hne, List.cons_append, ← heq]
          exact List.eq_cons_of_mem_head? hpoint
        · cases hfraction
          exact ⟨[], by simp, rfl⟩
      obtain ⟨exponent, hetext⟩ : ∃ exponent : Option Numeral.Exponent,
          afterFraction = (exponent.map Numeral.Exponent.text).getD [] ++ rest := by
        unfold skipExponent at h
        split at h
        · rename_i hletter
          obtain ⟨digits, hne, hall, heq⟩ := skipDigits_eq_some h
          obtain ⟨letter, tail, rfl⟩ : ∃ letter tail, afterFraction = letter :: tail := by
            cases afterFraction with
            | nil => simp at hletter
            | cons letter tail => exact ⟨letter, tail, rfl⟩
          obtain ⟨sign, hsform, hstext⟩ : ∃ sign : Bytes,
              (sign = [] ∨ sign = [0x2b] ∨ sign = [0x2d]) ∧ tail = sign ++ skipSign tail := by
            unfold skipSign
            cases tail with
            | nil => exact ⟨[], Or.inl rfl, rfl⟩
            | cons c tail =>
              by_cases hplus : c = 0x2b
              · exact ⟨[0x2b], by simp, by simp [hplus]⟩
              · by_cases hminus : c = 0x2d
                · exact ⟨[0x2d], by simp, by simp [hminus]⟩
                · exact ⟨[], by simp, by simp [hplus, hminus]⟩
          refine ⟨some ⟨letter, sign, digits, by simpa using hletter, hsform, hne, hall⟩, ?_⟩
          simp only [List.tail_cons] at heq
          simp only [Option.map_some, Option.getD_some, Numeral.Exponent.text, List.cons_append,
            List.append_assoc]
          rw [← heq, ← hstext]
        · cases h
          exact ⟨none, rfl⟩
      refine ⟨⟨negative, whole, fraction, exponent, hform, hdigits, hfdigits⟩, ?_⟩
      unfold Numeral.text Numeral.signText Numeral.fractionText Numeral.exponentText
      simp only [List.append_assoc]
      rw [← hetext, ← hftext, ← htext, ← hsign]

/-- A number moves forward. -/
theorem consumes_parseNumber {text : Bytes} {r : Number × Bytes}
    (h : parseNumber text = some r) : Consumes text r := by
  unfold parseNumber at h
  split at h
  · cases h
  · rename_i rest hskip
    obtain ⟨value, -, rfl⟩ := Option.map_eq_some_iff.mp h
    obtain ⟨n, hn⟩ := skipNumber_eq_some hskip
    exact ⟨n.text, n.text_ne_nil, hn⟩

/-! ## Values -/

/-- The whitespace of JSON. -/
def isWhitespace (c : UInt8) : Bool := c = 0x20 || c = 0x09 || c = 0x0a || c = 0x0d

/-- `SkipWhitespace`. -/
def skipWhitespace (text : Bytes) : Bytes := text.dropWhile isWhitespace

/-- A member of an object: its key, the spelling of its value, and the
value. -/
structure Member where
  key : Bytes
  raw : Bytes
  value : Value

/-- The object of members in the order of the text: the first of duplicate keys
wins. -/
def toObject (members : List Member) : List (Bytes × Value) :=
  members.foldl (fun object m => AssocList.emplace m.key m.value object) []

/-- The literals. -/
def literals : List (Bytes × Value) :=
  [(utf8 "true", .bool true), (utf8 "false", .bool false), (utf8 "null", .null)]

/-- `ParseBool` and `ParseNull`. -/
def parseLiteral (text : Bytes) : Option (Value × Bytes) :=
  (literals.find? (fun l => l.1.isPrefixOf text)).map (fun l => (l.2, text.drop l.1.length))

/-- **A reader that moves forward.** -/
structure Reader (α : Type) where
  read : Bytes → Option (α × Bytes)
  consumes : ∀ {text r}, read text = some r → Consumes text r

/-- A text is whitespace and what is left of it. -/
theorem exists_skipWhitespace (text : Bytes) :
    ∃ space, (∀ c ∈ space, isWhitespace c = true) ∧ text = space ++ skipWhitespace text :=
  ⟨text.takeWhile isWhitespace, fun _ => List.mem_takeWhile_imp,
    (List.takeWhile_append_dropWhile).symm⟩

/-- What follows an item of a list: whether another one does, and the text
after the comma or the closing bracket. -/
def separator (closing : UInt8) (text : Bytes) : Option (Bool × Bytes) :=
  match skipWhitespace text with
  | [] => none
  | c :: rest =>
    if c = 0x2c then some (true, rest) else if c = closing then some (false, rest) else none

/-- What a separator is made of. -/
theorem separator_eq_some {closing : UInt8} {text : Bytes} {more : Bool} {rest : Bytes}
    (h : separator closing text = some (more, rest)) :
    skipWhitespace text = (if more then 0x2c else closing) :: rest := by
  unfold separator at h
  split at h
  · cases h
  · rename_i c tail htext
    rw [htext]
    split at h
    · rename_i hc
      cases h
      rw [hc, if_pos rfl]
    · split at h
      · rename_i hc
        cases h
        rw [hc]
        rfl
      · cases h

/-- A separator moves forward. -/
theorem consumes_separator {closing : UInt8} {text : Bytes} {r : Bool × Bytes}
    (h : separator closing text = some r) : Consumes text r := by
  obtain ⟨space, -, hspace⟩ := exists_skipWhitespace text
  rw [separator_eq_some h] at hspace
  exact ⟨space ++ [if r.1 then 0x2c else closing], by simp, by rw [hspace]; simp⟩

/-- **The loop of `ParseArray` and of `ParseObject`**: items separated by
commas, up to the closing bracket. -/
def parseItems {α : Type} (item : Reader α) (closing : UInt8) (text : Bytes) :
    Option (List α × Bytes) :=
  match _h : item.read text with
  | none => none
  | some (a, rest) =>
    match _h' : separator closing rest with
    | none => none
    | some (more, rest') =>
      if more then (parseItems item closing rest').map (fun r => (a :: r.1, r.2))
      else some ([a], rest')
termination_by text.length
decreasing_by
  exact (consumes_separator _h').length_lt.trans (item.consumes _h).length_lt

section Items

variable {α : Type} {item : Reader α} {closing : UInt8}

/-- The last item. -/
theorem parseItems_last {text rest rest' : Bytes} {a : α} (hread : item.read text = some (a, rest))
    (hsep : separator closing rest = some (false, rest')) :
    parseItems item closing text = some ([a], rest') := by
  unfold parseItems
  split
  · rename_i h
    rw [hread] at h
    cases h
  · rename_i h
    rw [hread] at h
    cases h
    split
    · rename_i h
      rw [hsep] at h
      cases h
    · rename_i h
      rw [hsep] at h
      cases h
      rfl

/-- An item that another follows. -/
theorem parseItems_more {text rest rest' : Bytes} {a : α} (hread : item.read text = some (a, rest))
    (hsep : separator closing rest = some (true, rest')) :
    parseItems item closing text
      = (parseItems item closing rest').map (fun r => (a :: r.1, r.2)) := by
  rw [parseItems]
  split
  · rename_i h
    rw [hread] at h
    cases h
  · rename_i h
    rw [hread] at h
    cases h
    split
    · rename_i h
      rw [hsep] at h
      cases h
    · rename_i h
      rw [hsep] at h
      cases h
      rfl

/-- **What a list of items was read from.** -/
theorem parseItems_eq_some {text : Bytes} {r : List α × Bytes}
    (h : parseItems item closing text = some r) :
    ∃ a rest rest', item.read text = some (a, rest)
      ∧ ((separator closing rest = some (false, rest') ∧ r = ([a], rest'))
        ∨ separator closing rest = some (true, rest')
          ∧ ∃ s, parseItems item closing rest' = some s ∧ r = (a :: s.1, s.2)) := by
  rw [parseItems] at h
  split at h
  · cases h
  · rename_i a rest hread
    split at h
    · cases h
    · rename_i more rest' hsep
      refine ⟨a, rest, rest', hread, ?_⟩
      cases more with
      | false =>
        cases h
        exact Or.inl ⟨hsep, rfl⟩
      | true =>
        obtain ⟨s, hs, rfl⟩ := Option.map_eq_some_iff.mp h
        exact Or.inr ⟨hsep, s, hs, rfl⟩

/-- Items move forward. -/
theorem consumes_parseItems {text : Bytes} {r : List α × Bytes}
    (h : parseItems item closing text = some r) : Consumes text r := by
  induction hlen : text.length using Nat.strong_induction_on generalizing text r with
  | _ n ih =>
    obtain ⟨a, rest, rest', hread, hcases⟩ := parseItems_eq_some h
    obtain ⟨consumed, -, rfl⟩ := item.consumes hread
    rcases hcases with ⟨hsep, rfl⟩ | ⟨hsep, s, hs, rfl⟩
    · exact ((consumes_separator hsep).append_left).change rfl
    · have hlt := (consumes_separator hsep).length_lt.trans (item.consumes hread).length_lt
      obtain ⟨between, -, rfl⟩ := consumes_separator hsep
      exact ((ih _ (hlen ▸ hlt) hs rfl).append_left.append_left).change rfl

end Items

/-- `ParseArray` and `ParseObject`, after the opening bracket. -/
def parseBracketed {α : Type} (item : Reader α) (closing : UInt8) (text : Bytes) :
    Option (List α × Bytes) :=
  let text := skipWhitespace text
  if text.head? = some closing then some ([], text.tail) else parseItems item closing text

/-- A bracketed list moves forward. -/
theorem consumes_parseBracketed {α : Type} {item : Reader α} {closing : UInt8} {text : Bytes}
    {r : List α × Bytes} (h : parseBracketed item closing text = some r) : Consumes text r := by
  obtain ⟨space, -, hspace⟩ := exists_skipWhitespace text
  unfold parseBracketed at h
  dsimp only at h
  rw [hspace]
  split at h
  · rename_i hhead
    cases h
    exact Consumes.append_left ⟨[closing], by simp, List.eq_cons_of_mem_head? hhead⟩
  · exact (consumes_parseItems h).append_left

/-- A round of the loop of `ParseObject`: a key, a colon and a value. -/
def readMember (inner : Reader Value) (text : Bytes) : Option (Member × Bytes) :=
  match parseString (skipWhitespace text) with
  | none => none
  | some (key, rest) =>
    match skipWhitespace rest with
    | [] => none
    | c :: rest =>
      if c = 0x3a then
        let start := skipWhitespace rest
        (inner.read start).map
          (fun r => (⟨key, start.take (start.length - r.2.length), r.1⟩, r.2))
      else none

/-- The reader of a member. -/
def memberReader (inner : Reader Value) : Reader Member where
  read := readMember inner
  consumes := by
    intro text r h
    unfold readMember at h
    split at h
    · cases h
    · rename_i key rest hkey
      split at h
      · cases h
      · rename_i c rest' hrest
        split at h
        · obtain ⟨s, hs, rfl⟩ := Option.map_eq_some_iff.mp h
          obtain ⟨space, -, htext⟩ := exists_skipWhitespace text
          obtain ⟨keyText, -, hkeyText⟩ := consumes_parseString hkey
          obtain ⟨space', -, hrest'⟩ := exists_skipWhitespace rest
          obtain ⟨space'', -, hstart⟩ := exists_skipWhitespace rest'
          simp only at hkeyText
          rw [htext, hkeyText, hrest', hrest, hstart]
          exact (inner.consumes hs).append_left.cons.append_left.append_left.append_left.change rfl
        · cases h

/-- `ParseArray`, after the bracket. -/
def parseArray (inner : Reader Value) (text : Bytes) : Option (List Value × Bytes) :=
  parseBracketed inner 0x5d text

/-- `ParseObject`, after the brace. -/
def parseObject (inner : Reader Value) (text : Bytes) : Option (List Member × Bytes) :=
  parseBracketed (memberReader inner) 0x7d text

/-- The choice of `ParseValue` at its first byte. `inner` reads the values one
level deeper, unless the limit is reached. -/
def readValueAt (inner : Option (Reader Value)) (c : UInt8) (rest : Bytes) :
    Option (Value × Bytes) :=
  if c = 0x7b then
    inner.bind fun inner =>
      (parseObject inner rest).map (fun r => (.object (toObject r.1), r.2))
  else if c = 0x5b then
    inner.bind fun inner => (parseArray inner rest).map (fun r => (.array r.1, r.2))
  else if c = 0x22 then (parseString (c :: rest)).map (fun r => (.string r.1, r.2))
  else if c = 0x74 || c = 0x66 || c = 0x6e then parseLiteral (c :: rest)
  else if c = 0x2d || (0x30 ≤ c && c ≤ 0x39) then
    (parseNumber (c :: rest)).map (fun r => (.number r.1, r.2))
  else none

/-- `ParseValue`, over a reader of the values one level deeper. -/
def readValue (inner : Option (Reader Value)) (text : Bytes) : Option (Value × Bytes) :=
  match skipWhitespace text with
  | [] => none
  | c :: rest => readValueAt inner c rest

/-- A literal moves forward. -/
theorem consumes_parseLiteral {text : Bytes} {r : Value × Bytes}
    (h : parseLiteral text = some r) : Consumes text r := by
  unfold parseLiteral at h
  obtain ⟨l, hl, rfl⟩ := Option.map_eq_some_iff.mp h
  have hne : l.1 ≠ [] := by
    have hmem := List.mem_of_find?_eq_some hl
    have hall : ∀ l ∈ literals, l.1 ≠ [] := by
      intro l hl
      simp only [literals, List.mem_cons, List.not_mem_nil, or_false] at hl
      rcases hl with rfl | rfl | rfl <;> decide
    exact hall l hmem
  have hpre : l.1 <+: text := List.isPrefixOf_iff_prefix.mp (by simpa using List.find?_some hl)
  obtain ⟨tail, rfl⟩ := hpre
  exact ⟨l.1, hne, by rw [List.drop_left]⟩

/-- A value moves forward. -/
theorem consumes_readValue {inner : Option (Reader Value)} {text : Bytes} {r : Value × Bytes}
    (h : readValue inner text = some r) : Consumes text r := by
  obtain ⟨space, -, hspace⟩ := exists_skipWhitespace text
  unfold readValue at h
  rw [hspace]
  refine Consumes.append_left ?_
  split at h
  · cases h
  · rename_i c rest htext
    rw [htext]
    unfold readValueAt at h
    split_ifs at h
    · obtain ⟨inner', -, h⟩ := Option.bind_eq_some_iff.mp h
      obtain ⟨s, hs, rfl⟩ := Option.map_eq_some_iff.mp h
      exact (consumes_parseBracketed hs).cons.change rfl
    · obtain ⟨inner', -, h⟩ := Option.bind_eq_some_iff.mp h
      obtain ⟨s, hs, rfl⟩ := Option.map_eq_some_iff.mp h
      exact (consumes_parseBracketed hs).cons.change rfl
    · obtain ⟨s, hs, rfl⟩ := Option.map_eq_some_iff.mp h
      exact (consumes_parseString hs).change rfl
    · exact consumes_parseLiteral h
    · obtain ⟨s, hs, rfl⟩ := Option.map_eq_some_iff.mp h
      exact (consumes_parseNumber hs).change rfl

/-- **`ParseValue`**, where arrays and objects may nest `room` levels deep. -/
def parseValue : ℕ → Reader Value
  | 0 => ⟨readValue none, consumes_readValue⟩
  | room + 1 => ⟨readValue (some (parseValue room)), consumes_readValue⟩

/-- `ParseDocument`, over the reader of its value. -/
def parseDocument {α : Type} (top : Bytes → Option (α × Bytes)) (text : Bytes) : Option α :=
  if maxJsonInputBytes < text.length then none
  else
    match top (skipWhitespace text) with
    | none => none
    | some (value, rest) => if skipWhitespace rest = [] then some value else none

/-- **`Parse`.** -/
def parse (text : Bytes) : Option Value := parseDocument (parseValue maxJsonNestDepth).read text

/-- The spelling of the first member with a key. -/
def rawMember (member : Bytes) (members : List Member) : Bytes :=
  ((members.find? (fun m => m.key = member)).map Member.raw).getD []

/-- `ParseValue` at the top of a document, which captures a member when the
value is an object. -/
def readTop (member : Bytes) (text : Bytes) : Option (Value × Bytes × Bytes) :=
  match skipWhitespace text with
  | [] => none
  | c :: rest =>
    if c = 0x7b then
      (parseObject (parseValue (maxJsonNestDepth - 1)) rest).map
        (fun r => (.object (toObject r.1), rawMember member r.1, r.2))
    else ((parseValue maxJsonNestDepth).read text).map (fun r => (r.1, [], r.2))

/-- **`ParseWithRawMember`**: the value, and the captured spelling. -/
def parseWithRawMember (text member : Bytes) : Option (Value × Bytes) :=
  parseDocument (fun text => (readTop member text).map (fun r => ((r.1, r.2.1), r.2.2))) text

/-! ## Access -/

/-- `Find`. -/
def Value.find : Value → Bytes → Option Value
  | .object members, key => AssocList.find? members key
  | _, _ => none

/-- A member of an object. -/
theorem Value.find_object (members : List (Bytes × Value)) (key : Bytes) :
    (Value.object members).find key = AssocList.find? members key := rfl

/-- `GetString`. -/
def Value.getString (v : Value) (key : Bytes) : Option Bytes :=
  match v.find key with
  | some (.string text) => some text
  | _ => none

/-- `GetNumber`. -/
def Value.getNumber (v : Value) (key : Bytes) : Option Double :=
  match v.find key with
  | some (.number n) => some n.value
  | _ => none

/-- `GetArray`. -/
def Value.getArray (v : Value) (key : Bytes) : Option (List Value) :=
  match v.find key with
  | some (.array elements) => some elements
  | _ => none

/-- `GetBool`. -/
def Value.getBool (v : Value) (key : Bytes) : Option Bool :=
  match v.find key with
  | some (.bool value) => some value
  | _ => none

/-- `FindObject`. -/
def Value.findObject (v : Value) (key : Bytes) : Option Value :=
  match v.find key with
  | some (.object members) => some (.object members)
  | _ => none

/-- `IsObject`. -/
def Value.isObject : Value → Bool
  | .object _ => true
  | _ => false

/-- `IsPlainIntegerToken`. -/
def isPlainIntegerToken (token : Bytes) : Bool :=
  skipMinus token != [] && (skipMinus token).all isDigitByte

/-- The integer that a plain token names. -/
def plainInteger (token : Bytes) : ℤ :=
  if token.head? = some 0x2d then -(digitsValue token.tail : ℤ) else digitsValue token

/-- A double that is an integer, cast to one. -/
def doubleToInt? : Double → Option ℤ
  | .finite b => if b.magnitude.den = 1 then some b.toRat.num else none
  | _ => none

/-- The integer of a number: by its token when that is plain, otherwise by its
value, within the range. -/
def Number.toIntIn (n : Number) (plain : Bool) (low high : ℤ) : Option ℤ :=
  if plain then
    if low ≤ plainInteger n.token ∧ plainInteger n.token < high then some (plainInteger n.token)
    else none
  else (doubleToInt? n.value).filter (fun i => low ≤ i ∧ i < high)

/-- `GetInt`. -/
def Value.getInt (v : Value) (key : Bytes) : Option ℤ :=
  match v.find key with
  | some (.number n) => n.toIntIn (isPlainIntegerToken n.token) (-2 ^ 63) (2 ^ 63)
  | _ => none

/-- `GetUInt`. -/
def Value.getUInt (v : Value) (key : Bytes) : Option ℕ :=
  match v.find key with
  | some (.number n) =>
    (n.toIntIn (isPlainIntegerToken n.token && n.token.head? != some 0x2d) 0 (2 ^ 64)).map Int.toNat
  | _ => none

/-! ## Writing -/

/-- Two lower-case hexadecimal digits, `%04x` of a byte. -/
def hexDigits (c : UInt8) : Bytes :=
  let digit := fun d : ℕ => UInt8.ofNat (if d < 10 then 0x30 + d else 0x61 + (d - 10))
  [0x30, 0x30, digit (c.toNat / 16), digit (c.toNat % 16)]

/-- A byte of a string, escaped where it has to be. -/
def escapeByte (c : UInt8) : Bytes :=
  if c = 0x22 then [0x5c, 0x22]
  else if c = 0x5c then [0x5c, 0x5c]
  else if c = 0x08 then [0x5c, 0x62]
  else if c = 0x0c then [0x5c, 0x66]
  else if c = 0x0a then [0x5c, 0x6e]
  else if c = 0x0d then [0x5c, 0x72]
  else if c = 0x09 then [0x5c, 0x74]
  else if c < 0x20 then [0x5c, 0x75] ++ hexDigits c
  else [c]

/-- `EscapeString`. -/
def escapeString (text : Bytes) : Bytes := text.flatMap escapeByte

/-- `FormatInteger` and `std::to_string`. -/
def formatInteger (n : ℤ) : Bytes :=
  if n < 0 then 0x2d :: decimalDigits n.natAbs else decimalDigits n.natAbs

/-- `StringifyNumber`. -/
def stringifyNumber (number : Number) : Bytes :=
  if number.token ≠ [] then number.token
  else
    match number.value with
    | .finite b =>
      if b.magnitude.den = 1 ∧ -2 ^ 63 ≤ b.toRat ∧ b.toRat < 2 ^ 64 then formatInteger b.toRat.num
      else (toChars b).text
    | _ => utf8 "null"

/-- Texts with commas between them. -/
def joinCommas : List Bytes → Bytes
  | [] => []
  | [text] => text
  | text :: texts => text ++ 0x2c :: joinCommas texts

/-- **`Stringify`.** -/
def stringify : Value → Bytes
  | .null => utf8 "null"
  | .bool value => if value then utf8 "true" else utf8 "false"
  | .number number => stringifyNumber number
  | .string text => 0x22 :: (escapeString text ++ [0x22])
  | .array elements => 0x5b :: (joinCommas (stringifyElements elements) ++ [0x5d])
  | .object members => 0x7b :: (joinCommas (stringifyMembers members) ++ [0x7d])
where
  /-- The texts of the elements. -/
  stringifyElements : List Value → List Bytes
    | [] => []
    | v :: vs => stringify v :: stringifyElements vs
  /-- The texts of the members. -/
  stringifyMembers : List (Bytes × Value) → List Bytes
    | [] => []
    | (key, v) :: ms =>
      (0x22 :: (escapeString key ++ 0x22 :: 0x3a :: stringify v)) :: stringifyMembers ms

end AzooKey.Ipc.Json

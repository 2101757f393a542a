import AzooKey.Lib.ParseNumber

/-!
# Words and numbers of a stream

`std::istream::operator>>` in the classic locale: white space is passed over, then a
word or a number is taken and what follows it is left. A number may have a sign, also
one that is unsigned; one that does not fit fails. What `std::ostream::operator<<`
writes is read back (`extractUnsigned_decimalDigits`, `extractInt64_printInt`).
-/

namespace Bytes

/-- `std::isspace` in the classic locale. -/
def isSpace (c : UInt8) : Bool := c = 0x20 || (0x09 ≤ c && c ≤ 0x0D)

/-- `std::ws`. -/
def skipSpace (text : Bytes) : Bytes := text.dropWhile isSpace

/-- A word, and what follows it. -/
def extractWord (text : Bytes) : Option (Bytes × Bytes) :=
  let text := skipSpace text
  if text = [] then none
  else some (text.takeWhile (fun c => !isSpace c), text.dropWhile (fun c => !isSpace c))

/-- A sign, and what follows it. -/
def takeSign : Bytes → Bool × Bytes
  | [] => (false, [])
  | c :: text => if c = 0x2d then (true, text) else if c = 0x2b then (false, text)
    else (false, c :: text)

/-- The sign and the digits of a number, and what follows them. -/
def extractNumeral (text : Bytes) : Option ((Bool × ℕ) × Bytes) :=
  let signed := takeSign (skipSpace text)
  let digits := spanDigits signed.2
  if digits.1 = [] then none else some ((signed.1, digitsValue digits.1), digits.2)

/-- A number below a bound. One with a minus sign is taken from the bound. -/
def extractUnsigned (bound : ℕ) (text : Bytes) : Option (ℕ × Bytes) :=
  (extractNumeral text).bind (fun ((negative, value), rest) =>
    if value < bound then some (if negative then (bound - value) % bound else value, rest) else none)

/-- A number of 64 bits with a sign. -/
def extractInt64 (text : Bytes) : Option (Int64 × Bytes) :=
  (extractNumeral text).bind (fun ((negative, value), rest) =>
    let n : ℤ := if negative then -value else value
    if -2 ^ 63 ≤ n ∧ n < 2 ^ 63 then some (Int64.ofInt n, rest) else none)

/-- How a number with a sign is written. -/
def printInt (n : ℤ) : Bytes := if n < 0 then 0x2d :: decimalDigits n.natAbs else decimalDigits n.natAbs

/-! ## What is written is read back -/

/-- A word that is followed by white space. -/
theorem extractWord_append {word : Bytes} (hne : word ≠ []) (hword : ∀ c ∈ word, isSpace c = false)
    (rest : Bytes) : extractWord (word ++ 0x20 :: rest) = some (word, 0x20 :: rest) := by
  obtain ⟨b, t, rfl⟩ := List.exists_cons_of_ne_nil hne
  have hskip : skipSpace (b :: t ++ 0x20 :: rest) = b :: t ++ 0x20 :: rest := by
    rw [skipSpace, List.cons_append, List.dropWhile_cons_of_neg]
    rw [hword b List.mem_cons_self]
    decide
  have hnot : ∀ c ∈ b :: t, (!isSpace c) = true := fun c hc => by rw [hword c hc]; rfl
  have hspace : (!isSpace 0x20) = false := by decide
  rw [extractWord, hskip, if_neg (by simp), List.takeWhile_append_of_pos hnot,
    List.dropWhile_append_of_pos hnot, List.takeWhile_cons_of_neg (by rw [hspace]; decide),
    List.dropWhile_cons_of_neg (by rw [hspace]; decide), List.append_nil]

/-- A digit is no white space. -/
theorem isSpace_of_isDigitByte {c : UInt8} (h : isDigitByte c = true) : isSpace c = false := by
  simp only [isDigitByte, Bool.and_eq_true, decide_eq_true_eq, UInt8.le_iff_toNat_le] at h
  simp only [isSpace, Bool.or_eq_false_iff, Bool.and_eq_false_iff, decide_eq_false_iff_not,
    UInt8.le_iff_toNat_le, ← UInt8.toNat_inj]
  have hlow : (0x30 : UInt8).toNat = 48 := rfl
  have hend : (0x0D : UInt8).toNat = 13 := rfl
  have hspace : (0x20 : UInt8).toNat = 32 := rfl
  omega

/-- The digits of a number are taken, with the sign in front of them. -/
theorem extractNumeral_decimalDigits (n : ℕ) {rest : Bytes} (hrest : NoDigit rest) :
    extractNumeral (decimalDigits n ++ rest) = some ((false, n), rest)
      ∧ extractNumeral (0x2d :: (decimalDigits n ++ rest)) = some ((true, n), rest) := by
  have hdigits : ∀ c ∈ decimalDigits n, isDigitByte c = true :=
    fun c hc => isDigitByte_of_mem_decimalDigits hc
  have hspan := spanDigits_append hdigits hrest
  have hne := decimalDigits_ne_nil n
  obtain ⟨c, t, heq⟩ := List.exists_cons_of_ne_nil hne
  have hc : isDigitByte c = true := hdigits c (heq ▸ List.mem_cons_self)
  have hskip : skipSpace (decimalDigits n ++ rest) = decimalDigits n ++ rest := by
    rw [skipSpace, heq, List.cons_append, List.dropWhile_cons_of_neg]
    rw [isSpace_of_isDigitByte hc]
    decide
  have hsign : takeSign (decimalDigits n ++ rest) = (false, decimalDigits n ++ rest) := by
    rw [heq, List.cons_append, takeSign, if_neg, if_neg]
    · rintro rfl
      exact absurd hc (by decide)
    · rintro rfl
      exact absurd hc (by decide)
  constructor
  · rw [extractNumeral, hskip, hsign]
    dsimp only
    rw [hspan, if_neg hne, digitsValue_decimalDigits]
  · have hskip' : skipSpace (0x2d :: (decimalDigits n ++ rest)) = 0x2d :: (decimalDigits n ++ rest) :=
      List.dropWhile_cons_of_neg (by decide)
    rw [extractNumeral, hskip', takeSign, if_pos rfl]
    dsimp only
    rw [hspan, if_neg hne, digitsValue_decimalDigits]

/-- White space in front of a number. -/
theorem extractNumeral_space (text : Bytes) :
    extractNumeral (0x20 :: text) = extractNumeral text := by
  have hskip : skipSpace (0x20 :: text) = skipSpace text := List.dropWhile_cons_of_pos (by decide)
  rw [extractNumeral, hskip]
  rfl

/-- **A number below the bound is read back.** -/
theorem extractUnsigned_decimalDigits {bound n : ℕ} (hn : n < bound) {rest : Bytes}
    (hrest : NoDigit rest) : extractUnsigned bound (0x20 :: (decimalDigits n ++ rest)) = some (n, rest) := by
  rw [extractUnsigned, extractNumeral_space, (extractNumeral_decimalDigits n hrest).1, Option.bind_some]
  dsimp only
  rw [if_pos hn]
  rfl

/-- **A number with a sign is read back.** -/
theorem extractInt64_printInt (n : Int64) : extractInt64 (printInt n.toInt) = some (n, []) := by
  have hrange : -2 ^ 63 ≤ n.toInt ∧ n.toInt < 2 ^ 63 := ⟨n.le_toInt, n.toInt_lt⟩
  have hnumeral : extractNumeral (printInt n.toInt)
      = some ((decide (n.toInt < 0), n.toInt.natAbs), []) := by
    have hboth := @extractNumeral_decimalDigits n.toInt.natAbs [] (fun c hc => by cases hc)
    rw [List.append_nil] at hboth
    unfold printInt
    by_cases hneg : n.toInt < 0
    · rw [if_pos hneg, decide_eq_true hneg]
      exact hboth.2
    · rw [if_neg hneg, decide_eq_false hneg]
      exact hboth.1
  have hvalue : (if decide (n.toInt < 0) = true then -(n.toInt.natAbs : ℤ) else n.toInt.natAbs)
      = n.toInt := by
    split
    · next h => rw [decide_eq_true_eq] at h; omega
    · next h => rw [decide_eq_true_eq] at h; omega
  rw [extractInt64, hnumeral, Option.bind_some]
  dsimp only
  rw [hvalue, if_pos hrange, Int64.ofInt_toInt]

end Bytes

import AzooKey.Lib.Charconv

/-!
# Numbers that take up a whole text

`std::from_chars` reads a number from the front of a text and says where it
stopped. A reader that insists on the whole text accepts a run of digits for
an unsigned integer (`parseUnsigned`), and for a floating-point number an
optional minus sign, digits with an optional point among them, and an
optional exponent (`parseFinite`; the spellings of infinity and NaN are not
finite, so a reader of finite numbers refuses them).

What `to_chars` writes is read back: `parseUnsigned_decimalDigits`,
`parseFinite_toChars`.
-/

/-- **`from_chars` of an unsigned integer** below a bound, from a text that it
has to take up as a whole. -/
def parseUnsigned (bound : ℕ) (token : Bytes) : Option ℕ :=
  if token ≠ [] ∧ token.all isDigitByte ∧ digitsValue token < bound then some (digitsValue token)
  else none

/-- A number has at least one digit. -/
theorem decimalDigits_ne_nil (n : ℕ) : decimalDigits n ≠ [] := by
  rcases decimalDigits_form n with h | ⟨c, t, h, -⟩ <;> simp [h]

/-- **A number below the bound reads back from its digits.** -/
theorem parseUnsigned_decimalDigits {bound n : ℕ} (h : n < bound) :
    parseUnsigned bound (decimalDigits n) = some n := by
  have hdigits : (decimalDigits n).all isDigitByte = true :=
    List.all_eq_true.mpr (fun c hc => isDigitByte_of_mem_decimalDigits hc)
  unfold parseUnsigned
  rw [digitsValue_decimalDigits, if_pos ⟨decimalDigits_ne_nil n, hdigits, h⟩]

/-- A `uint32_t`. -/
def parseUInt32 (token : Bytes) : Option UInt32 :=
  (parseUnsigned (2 ^ 32) token).map UInt32.ofNat

/-- A `uint64_t`. -/
def parseUInt64 (token : Bytes) : Option UInt64 :=
  (parseUnsigned (2 ^ 64) token).map UInt64.ofNat

/-- A `uint32_t` reads back. -/
theorem parseUInt32_decimalDigits (n : UInt32) : parseUInt32 (decimalDigits n.toNat) = some n := by
  unfold parseUInt32
  rw [parseUnsigned_decimalDigits n.toNat_lt, Option.map_some, UInt32.ofNat_toNat]

/-- A `uint64_t` reads back. -/
theorem parseUInt64_decimalDigits (n : UInt64) : parseUInt64 (decimalDigits n.toNat) = some n := by
  unfold parseUInt64
  rw [parseUnsigned_decimalDigits n.toNat_lt, Option.map_some, UInt64.ofNat_toNat]

/-! ## Finite numbers -/

/-- The digits of an exponent after its optional sign. -/
def exponentDigits : Bytes → Bytes
  | [] => []
  | c :: t => if c = 0x2d ∨ c = 0x2b then t else c :: t

/-- A text is an exponent, or there is none. -/
def isExponentText : Bytes → Bool
  | [] => true
  | c :: t => (c = 0x65 || c = 0x45) && exponentDigits t ≠ [] && (exponentDigits t).all isDigitByte

/-- `from_chars` takes up the whole text. -/
def isFloatText (token : Bytes) : Bool :=
  let whole := spanDigits (if token.head? = some 0x2d then token.tail else token)
  let fraction := readFraction whole.2
  whole.1 ++ fraction.1 ≠ [] && isExponentText fraction.2

/-- **`from_chars` of a finite number**, from a text that it has to take up as a
whole. -/
def parseFinite (token : Bytes) : Option Binary64 :=
  if isFloatText token then fromChars token else none

/-- The exponent of a numeral is one. -/
theorem isExponentText_exponentText (n : Numeral) : isExponentText n.exponentText = true := by
  unfold Numeral.exponentText
  cases n.exponent with
  | none => rfl
  | some e =>
    have hdigits : exponentDigits (e.sign ++ e.digits) = e.digits := by
      rcases e.sign_form with h | h | h
      · obtain ⟨c, t, heq⟩ := List.exists_cons_of_ne_nil e.digits_ne
        have hc := e.isDigit c (by rw [heq]; exact List.mem_cons_self)
        rw [h, List.nil_append, heq, exponentDigits, if_neg]
        rintro (rfl | rfl) <;> exact absurd hc (by decide)
      · rw [h, List.singleton_append, exponentDigits, if_pos (Or.inr rfl)]
      · rw [h, List.singleton_append, exponentDigits, if_pos (Or.inl rfl)]
    show isExponentText (e.letter :: (e.sign ++ e.digits)) = true
    rw [isExponentText, hdigits]
    simp only [Bool.and_eq_true, Bool.or_eq_true, decide_eq_true_eq]
    exact ⟨⟨e.letter_form, e.digits_ne⟩, List.all_eq_true.mpr e.isDigit⟩

/-- **A numeral is taken up as a whole.** -/
theorem isFloatText_text (n : Numeral) : isFloatText n.text = true := by
  have hsign : (if n.text.head? = some 0x2d then n.text.tail else n.text) = n.unsignedText := by
    rw [← n.text_sign.2, ← n.text_sign.1]
    simp only [decide_eq_true_eq]
  unfold isFloatText
  simp only [hsign, n.spanDigits_text, n.readFraction_text, isExponentText_exponentText,
    Bool.and_true, decide_eq_true_eq]
  exact fun h => n.whole_ne_nil (List.append_eq_nil_iff.mp h).1

/-- **A finite number reads back.** -/
theorem parseFinite_toChars (b : Binary64) : parseFinite (toChars b).text = some b := by
  rw [parseFinite, if_pos (isFloatText_text _), fromChars_toChars]

/-- The octets of a numeral are digits, signs, the point and the letters of an
exponent. -/
theorem mem_text {n : Numeral} {c : UInt8} (h : c ∈ n.text) :
    isDigitByte c = true ∨ c ∈ [0x2d, 0x2b, 0x2e, 0x65, 0x45] := by
  unfold Numeral.text at h
  rcases List.mem_append.mp h with h | h
  · unfold Numeral.signText at h
    split_ifs at h
    · rw [List.mem_singleton.mp h]
      exact Or.inr (by decide)
    · exact absurd h List.not_mem_nil
  rcases List.mem_append.mp h with h | h
  · exact Or.inl (n.whole_isDigit c h)
  rcases List.mem_append.mp h with h | h
  · unfold Numeral.fractionText at h
    split_ifs at h
    · exact absurd h List.not_mem_nil
    · rcases List.mem_cons.mp h with rfl | h
      · exact Or.inr (by decide)
      · exact Or.inl (n.fraction_isDigit c h)
  · unfold Numeral.exponentText at h
    cases he : n.exponent with
    | none =>
      rw [he] at h
      exact absurd h List.not_mem_nil
    | some e =>
      rw [he] at h
      rcases List.mem_cons.mp h with rfl | h
      · rcases e.letter_form with h | h <;> rw [h] <;> exact Or.inr (by decide)
      rcases List.mem_append.mp h with h | h
      · rcases e.sign_form with hs | hs | hs <;> rw [hs] at h
        · exact absurd h List.not_mem_nil
        · rw [List.mem_singleton.mp h]
          exact Or.inr (by decide)
        · rw [List.mem_singleton.mp h]
          exact Or.inr (by decide)
      · exact Or.inl (e.isDigit c h)

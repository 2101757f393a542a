import AzooKey.Lib.Bytes
import AzooKey.Lib.Binary64

/-!
# Numbers as text

`std::to_chars` and `std::from_chars` for natural numbers and for finite
double-precision values. A spelling is a `Numeral`: a sign, a whole part
without needless zeros, a fraction and an exponent – which is also what the
JSON grammar calls a number, so that the reader of that grammar and the
conversions share it. `Numeral.text` and `Numeral.magnitude` are its two
readings, and `fromChars_text` says that `from_chars` goes from the one to
the other.

`toChars` follows the definition of the shortest representation: the fewest
digits that read back as the value, nearest to it among those, in fixed or
in scientific notation, whichever is shorter. Every value reads back
(`fromChars_toChars`): what the search returns was tested to, and what it
falls back on is exact.
-/

/-- `isdigit`. -/
def isDigitByte (c : UInt8) : Bool := 0x30 ≤ c && c ≤ 0x39

/-- The digit of a number below ten. -/
def digitByte (d : ℕ) : UInt8 := UInt8.ofNat (0x30 + d)

/-- **The decimal digits of a number**, `std::to_string` of it. -/
def decimalDigits (n : ℕ) : Bytes :=
  if n < 10 then [digitByte n] else decimalDigits (n / 10) ++ [digitByte (n % 10)]

/-- The last digits of a number, as many as asked for. -/
def lastDigits : ℕ → ℕ → Bytes
  | 0, _ => []
  | width + 1, n => lastDigits width (n / 10) ++ [digitByte (n % 10)]

/-- The number that digits name. -/
def digitsValue (digits : Bytes) : ℕ := digits.foldl (fun value c => value * 10 + (c.toNat - 0x30)) 0

/-- A digit is one. -/
theorem isDigitByte_digitByte : ∀ {d : ℕ}, d < 10 → isDigitByte (digitByte d) = true := by
  decide

/-- A digit names its number. -/
theorem toNat_digitByte : ∀ {d : ℕ}, d < 10 → (digitByte d).toNat - 0x30 = d := by
  decide

/-- A digit other than zero is not `0`. -/
theorem digitByte_ne_zero : ∀ {d : ℕ}, d < 10 → 0 < d → digitByte d ≠ 0x30 := by
  decide

/-- Digits put after digits. -/
theorem digitsValue_append (s t : Bytes) :
    digitsValue (s ++ t) = digitsValue s * 10 ^ t.length + digitsValue t := by
  have hfold : ∀ (t : Bytes) (v : ℕ),
      t.foldl (fun value c => value * 10 + (c.toNat - 0x30)) v
        = v * 10 ^ t.length + digitsValue t := by
    intro t
    induction t with
    | nil => simp [digitsValue]
    | cons c t ih =>
      intro v
      rw [digitsValue, List.foldl_cons, List.foldl_cons, ih, ih, List.length_cons, pow_succ]
      ring
  rw [digitsValue, List.foldl_append, hfold]
  rfl

/-- One more digit. -/
theorem digitsValue_concat (s : Bytes) {d : ℕ} (hd : d < 10) :
    digitsValue (s ++ [digitByte d]) = digitsValue s * 10 + d := by
  rw [digitsValue_append]
  simp [digitsValue, toNat_digitByte hd]

/-- **The digits of a number name it.** -/
theorem digitsValue_decimalDigits (n : ℕ) : digitsValue (decimalDigits n) = n := by
  induction n using Nat.strong_induction_on with
  | _ n ih =>
    unfold decimalDigits
    split
    · rename_i hn
      exact (digitsValue_concat [] hn).trans (by simp [digitsValue])
    · rename_i hn
      rw [digitsValue_concat _ (Nat.mod_lt _ (by norm_num)), ih _ (by omega)]
      omega

/-- The last digits of a number name its remainder. -/
theorem digitsValue_lastDigits (width n : ℕ) : digitsValue (lastDigits width n) = n % 10 ^ width := by
  induction width generalizing n with
  | zero => simp [lastDigits, digitsValue, Nat.mod_one]
  | succ width ih =>
    rw [lastDigits, digitsValue_concat _ (Nat.mod_lt _ (by norm_num)), ih, pow_succ']
    rw [Nat.mod_mul]
    ring

/-- As many digits as asked for. -/
@[simp] theorem length_lastDigits (width n : ℕ) : (lastDigits width n).length = width := by
  induction width generalizing n with
  | zero => rfl
  | succ width ih => simp [lastDigits, ih]

/-- The number of digits. -/
theorem length_decimalDigits (n : ℕ) : (decimalDigits n).length = Nat.log 10 n + 1 := by
  induction n using Nat.strong_induction_on with
  | _ n ih =>
    unfold decimalDigits
    split
    · rename_i hn
      rw [Nat.log_of_lt hn]
      rfl
    · rename_i hn
      rw [List.length_append, ih (n / 10) (by omega),
        Nat.log_of_one_lt_of_le (by norm_num) (not_lt.mp hn)]
      rfl

/-- The digits of a number are digits. -/
theorem isDigitByte_of_mem_decimalDigits {n : ℕ} {c : UInt8} (h : c ∈ decimalDigits n) :
    isDigitByte c = true := by
  induction n using Nat.strong_induction_on with
  | _ n ih =>
    unfold decimalDigits at h
    split at h
    · rename_i hn
      rw [List.mem_singleton.mp h]
      exact isDigitByte_digitByte hn
    · rcases List.mem_append.mp h with h | h
      · exact ih _ (by omega) h
      · rw [List.mem_singleton.mp h]
        exact isDigitByte_digitByte (Nat.mod_lt _ (by norm_num))

/-- The last digits of a number are digits. -/
theorem isDigitByte_of_mem_lastDigits {width n : ℕ} {c : UInt8} (h : c ∈ lastDigits width n) :
    isDigitByte c = true := by
  induction width generalizing n with
  | zero => exact absurd h (by simp [lastDigits])
  | succ width ih =>
    rcases List.mem_append.mp h with h | h
    · exact ih h
    · rw [List.mem_singleton.mp h]
      exact isDigitByte_digitByte (Nat.mod_lt _ (by norm_num))

/-- The digits of a number do not start with a needless zero. -/
theorem decimalDigits_form (n : ℕ) :
    decimalDigits n = [0x30] ∨ ∃ c t, decimalDigits n = c :: t ∧ c ≠ 0x30 := by
  have hpos : ∀ n, 0 < n → ∃ c t, decimalDigits n = c :: t ∧ c ≠ 0x30 := by
    intro n
    induction n using Nat.strong_induction_on with
    | _ n ih =>
      intro hn
      unfold decimalDigits
      split
      · rename_i hlt
        exact ⟨_, _, rfl, digitByte_ne_zero hlt hn⟩
      · obtain ⟨c, t, heq, hc⟩ := ih (n / 10) (by omega) (by omega)
        exact ⟨c, t ++ [digitByte (n % 10)], by rw [heq, List.cons_append], hc⟩
  rcases Nat.eq_zero_or_pos n with rfl | hn
  · left
    unfold decimalDigits
    decide
  · exact Or.inr (hpos n hn)

/-! ## Numerals -/

/-- No digits are digits. -/
theorem isDigitByte_of_mem_nil : ∀ c ∈ ([] : Bytes), isDigitByte c = true := by simp

/-- The exponent of a numeral. -/
structure Numeral.Exponent where
  letter : UInt8
  sign : Bytes
  digits : Bytes
  letter_form : letter = 0x65 ∨ letter = 0x45
  sign_form : sign = [] ∨ sign = [0x2b] ∨ sign = [0x2d]
  digits_ne : digits ≠ []
  isDigit : ∀ c ∈ digits, isDigitByte c = true

/-- **A spelling of a number.** An empty fraction is one that is not
written. -/
structure Numeral where
  negative : Bool := false
  whole : Bytes
  fraction : Bytes := []
  exponent : Option Numeral.Exponent := none
  whole_form : whole = [0x30] ∨ ∃ c t, whole = c :: t ∧ c ≠ 0x30
  whole_isDigit : ∀ c ∈ whole, isDigitByte c = true
  fraction_isDigit : ∀ c ∈ fraction, isDigitByte c = true := by simp

namespace Numeral

/-- The text of an exponent. -/
def Exponent.text (e : Exponent) : Bytes := e.letter :: (e.sign ++ e.digits)

/-- The number an exponent names. -/
def Exponent.value (e : Exponent) : ℤ :=
  if e.sign = [0x2d] then -(digitsValue e.digits : ℤ) else digitsValue e.digits

/-- The text of the fraction. -/
def fractionText (n : Numeral) : Bytes := if n.fraction = [] then [] else 0x2e :: n.fraction

/-- The text of the exponent. -/
def exponentText (n : Numeral) : Bytes := (n.exponent.map Exponent.text).getD []

/-- The text of the sign. -/
def signText (n : Numeral) : Bytes := if n.negative then [0x2d] else []

/-- **The text of a numeral.** -/
def text (n : Numeral) : Bytes := n.signText ++ (n.whole ++ (n.fractionText ++ n.exponentText))

/-- **The magnitude a numeral names.** -/
def magnitude (n : Numeral) : ℚ :=
  digitsValue (n.whole ++ n.fraction)
    * 10 ^ ((n.exponent.map Exponent.value).getD 0 - n.fraction.length)

/-- The whole part is not empty. -/
theorem whole_ne_nil (n : Numeral) : n.whole ≠ [] := by
  rcases n.whole_form with h | ⟨c, t, h, -⟩ <;> simp [h]

/-- A numeral is not empty. -/
theorem text_ne_nil (n : Numeral) : n.text ≠ [] := by
  unfold text
  intro h
  have h := (List.append_eq_nil_iff.mp h).2
  exact n.whole_ne_nil (List.append_eq_nil_iff.mp h).1

end Numeral

/-- A run of digits and what follows it. -/
def spanDigits (t : Bytes) : Bytes × Bytes := (t.takeWhile isDigitByte, t.dropWhile isDigitByte)

/-- A text that does not continue a run of digits. -/
def NoDigit (t : Bytes) : Prop := ∀ c ∈ t.head?, isDigitByte c = false

/-- **The run is found where it ends.** -/
theorem spanDigits_append {digits rest : Bytes} (h : ∀ c ∈ digits, isDigitByte c = true)
    (hrest : NoDigit rest) : spanDigits (digits ++ rest) = (digits, rest) := by
  unfold spanDigits
  rw [List.takeWhile_append_of_pos h, List.dropWhile_append_of_pos h]
  cases rest with
  | nil => simp
  | cons c rest =>
    have hc : isDigitByte c = false := hrest c rfl
    rw [List.takeWhile_cons_of_neg (by simp [hc]), List.dropWhile_cons_of_neg (by simp [hc]),
      List.append_nil]

/-- A fraction and what follows it. -/
def readFraction : Bytes → Bytes × Bytes
  | [] => ([], [])
  | c :: t => if c = 0x2e then spanDigits t else ([], c :: t)

/-- A signed run of digits. -/
def readSigned : Bytes → ℤ
  | [] => 0
  | c :: t =>
    if c = 0x2d then -(digitsValue (spanDigits t).1 : ℤ)
    else if c = 0x2b then digitsValue (spanDigits t).1
    else digitsValue (spanDigits (c :: t)).1

/-- An exponent. -/
def readExponent : Bytes → ℤ
  | [] => 0
  | c :: t => if c = 0x65 ∨ c = 0x45 then readSigned t else 0

/-- **`std::from_chars` of a numeral**: the correctly rounded value, or nothing
when it is out of range. -/
def fromChars (token : Bytes) : Option Binary64 :=
  let negative := decide (token.head? = some 0x2d)
  let whole := spanDigits (if negative then token.tail else token)
  let fraction := readFraction whole.2
  roundBinary64 negative (digitsValue (whole.1 ++ fraction.1)
    * 10 ^ (readExponent fraction.2 - (fraction.1.length : ℤ)))

/-- A signed run of digits is read as it is spelled. -/
theorem readSigned_text (e : Numeral.Exponent) : readSigned (e.sign ++ e.digits) = e.value := by
  have hspan : spanDigits e.digits = (e.digits, []) := by
    have hnil : NoDigit [] := by simp [NoDigit]
    simpa using spanDigits_append e.isDigit hnil
  have hdash : isDigitByte 0x2d = false := by decide
  have hplus : isDigitByte 0x2b = false := by decide
  unfold Numeral.Exponent.value
  rcases e.sign_form with h | h | h
  · rw [h, List.nil_append, if_neg (by simp)]
    obtain ⟨c, t, hdigits⟩ := List.exists_cons_of_ne_nil e.digits_ne
    have hc := e.isDigit c (by simp [hdigits])
    rw [hdigits] at hspan ⊢
    rw [readSigned, if_neg (by rintro rfl; simp [hdash] at hc),
      if_neg (by rintro rfl; simp [hplus] at hc), hspan]
  · rw [h, if_neg (by decide), List.singleton_append, readSigned, if_neg (by decide),
      if_pos rfl, hspan]
  · rw [h, if_pos rfl, List.singleton_append, readSigned, if_pos rfl, hspan]

/-- The text of an exponent does not continue a run of digits, nor is it a
point. -/
theorem Numeral.exponentText_head (n : Numeral) :
    NoDigit n.exponentText ∧ ∀ c ∈ n.exponentText.head?, c ≠ 0x2e := by
  unfold NoDigit exponentText
  cases n.exponent with
  | none => simp
  | some e =>
    rcases e.letter_form with h | h <;>
      simp only [Option.map_some, Option.getD_some, Exponent.text, h, List.head?_cons,
        Option.mem_def, Option.some.injEq, forall_eq'] <;> decide

/-- The text after the whole part does not continue it. -/
theorem Numeral.fractionText_head (n : Numeral) : NoDigit (n.fractionText ++ n.exponentText) := by
  unfold fractionText
  split
  · exact n.exponentText_head.1
  · simp only [NoDigit, List.cons_append, List.head?_cons, Option.mem_def, Option.some.injEq,
      forall_eq']
    decide

/-- The whole part does not look like a sign. -/
theorem Numeral.whole_head (n : Numeral) (rest : Bytes) :
    (n.whole ++ rest).head? ≠ some 0x2d := by
  obtain ⟨c, t, hwhole⟩ := List.exists_cons_of_ne_nil n.whole_ne_nil
  have hc := n.whole_isDigit c (by simp [hwhole])
  rw [hwhole, List.cons_append, List.head?_cons]
  rintro h
  rw [Option.some.inj h] at hc
  exact absurd hc (by decide)

/-- The text after the sign. -/
def Numeral.unsignedText (n : Numeral) : Bytes := n.whole ++ (n.fractionText ++ n.exponentText)

/-- The sign is where it is looked for. -/
theorem Numeral.text_sign (n : Numeral) :
    decide (n.text.head? = some 0x2d) = n.negative
      ∧ (if n.negative then n.text.tail else n.text) = n.unsignedText := by
  unfold text signText unsignedText
  cases n.negative with
  | true => simp
  | false =>
    simp only [Bool.false_eq_true, if_false, List.nil_append]
    exact ⟨decide_eq_false (n.whole_head _), trivial⟩

/-- The whole part is where it is looked for. -/
theorem Numeral.spanDigits_text (n : Numeral) :
    spanDigits n.unsignedText = (n.whole, n.fractionText ++ n.exponentText) :=
  spanDigits_append n.whole_isDigit n.fractionText_head

/-- The fraction is where it is looked for. -/
theorem Numeral.readFraction_text (n : Numeral) :
    readFraction (n.fractionText ++ n.exponentText) = (n.fraction, n.exponentText) := by
  unfold fractionText
  split_ifs with hnil
  · rw [hnil, List.nil_append]
    have hpoint := n.exponentText_head.2
    cases h : n.exponentText with
    | nil => rfl
    | cons c t =>
      rw [h] at hpoint
      exact if_neg (hpoint c rfl)
  · rw [List.cons_append, readFraction, if_pos rfl]
    exact spanDigits_append n.fraction_isDigit n.exponentText_head.1

/-- **`from_chars` reads a numeral as the number it names.** -/
theorem fromChars_text (n : Numeral) :
    fromChars n.text = roundBinary64 n.negative n.magnitude := by
  have hexponent : readExponent n.exponentText
      = (n.exponent.map Numeral.Exponent.value).getD 0 := by
    unfold Numeral.exponentText
    cases n.exponent with
    | none => rfl
    | some e => exact (if_pos e.letter_form).trans (readSigned_text e)
  unfold fromChars
  simp only [n.text_sign.1, n.text_sign.2, n.spanDigits_text, n.readFraction_text, hexponent]
  rfl

/-! ## The shortest representation -/

/-- The multiple of a power of ten nearest to a magnitude that reads back as
it, among the two that enclose it. -/
def readsBackAt (x : ℚ) (q : ℤ) : Option (ℕ × ℤ) :=
  let scaled := x / 10 ^ q
  let near := (roundHalfEven scaled).toNat
  let other := if near = ⌊scaled⌋₊ then near + 1 else near - 1
  ([near, other].find? fun c : ℕ => nearest ((c : ℚ) * 10 ^ q) = x).map (·, q)

/-- The digits and the exponent of a magnitude with the fewest digits, up to
seventeen, that read back as it; all its digits when there are none. -/
def shortestDecimal (x : ℚ) : ℕ × ℤ :=
  ((List.range 17).findSome? fun p => readsBackAt x (Int.log 10 x - p)).getD
    (⌊x * 10 ^ (1074 : ℤ)⌋₊, -1074)

/-- The same number without trailing zeros. -/
def stripZeros (c : ℕ) (q : ℤ) : ℕ × ℤ :=
  if 0 < c ∧ c % 10 = 0 then stripZeros (c / 10) (q + 1) else (c, q)
termination_by c
decreasing_by omega

/-- A number in fixed notation. -/
def fixedNumeral (negative : Bool) (c : ℕ) (q : ℤ) : Numeral :=
  if 0 ≤ q then
    { negative := negative
      whole := decimalDigits (c * 10 ^ q.toNat)
      whole_form := decimalDigits_form _
      whole_isDigit := fun _ => isDigitByte_of_mem_decimalDigits }
  else
    { negative := negative
      whole := decimalDigits (c / 10 ^ (-q).toNat)
      fraction := lastDigits (-q).toNat c
      whole_form := decimalDigits_form _
      whole_isDigit := fun _ => isDigitByte_of_mem_decimalDigits
      fraction_isDigit := fun _ => isDigitByte_of_mem_lastDigits }

/-- The exponent of the scientific notation, of at least two digits. -/
def scientificExponent (e : ℤ) : Numeral.Exponent where
  letter := 0x65
  sign := if e < 0 then [0x2d] else [0x2b]
  digits := if e.natAbs < 100 then lastDigits 2 e.natAbs else decimalDigits e.natAbs
  letter_form := Or.inl rfl
  sign_form := by split <;> simp
  digits_ne := by
    split
    · exact List.ne_nil_of_length_pos (by simp)
    · rcases decimalDigits_form e.natAbs with h | ⟨c, t, h, -⟩ <;> simp [h]
  isDigit := by
    intro c
    split
    · exact isDigitByte_of_mem_lastDigits
    · exact isDigitByte_of_mem_decimalDigits

/-- A number in scientific notation. -/
def scientificNumeral (negative : Bool) (c : ℕ) (q : ℤ) : Numeral where
  negative := negative
  whole := (decimalDigits c).take 1
  fraction := (decimalDigits c).tail
  exponent := some (scientificExponent (q + (decimalDigits c).tail.length))
  whole_form := by
    rcases decimalDigits_form c with h | ⟨d, t, h, hd⟩
    · exact Or.inl (by rw [h]; rfl)
    · exact Or.inr ⟨d, [], by rw [h]; rfl, hd⟩
  whole_isDigit := fun _ h => isDigitByte_of_mem_decimalDigits (List.mem_of_mem_take h)
  fraction_isDigit := fun _ h => isDigitByte_of_mem_decimalDigits (List.mem_of_mem_tail h)

/-- The shortest digits of a value, and their exponent. -/
def shortestDigits (b : Binary64) : ℕ × ℤ :=
  stripZeros (shortestDecimal b.magnitude).1 (shortestDecimal b.magnitude).2

/-- A value in fixed notation, which writes an integer out. -/
def toCharsFixed (b : Binary64) : Numeral :=
  if b.magnitude.den = 1 then fixedNumeral b.negative b.magnitude.num.toNat 0
  else fixedNumeral b.negative (shortestDigits b).1 (shortestDigits b).2

/-- A value in scientific notation. -/
def toCharsScientific (b : Binary64) : Numeral :=
  scientificNumeral b.negative (shortestDigits b).1 (shortestDigits b).2

/-- **`std::to_chars` of a finite value.** On a tie between the notations the
fixed one is taken. -/
def toChars (b : Binary64) : Numeral :=
  if b.magnitude = 0 then fixedNumeral b.negative 0 0
  else if (toCharsFixed b).text.length ≤ (toCharsScientific b).text.length then toCharsFixed b
  else toCharsScientific b

/-- Stripping zeros keeps the number. -/
theorem stripZeros_value (c : ℕ) (q : ℤ) :
    ((stripZeros c q).1 : ℚ) * 10 ^ (stripZeros c q).2 = c * 10 ^ q := by
  induction c, q using stripZeros.induct with
  | case1 c q h ih =>
    rw [stripZeros, if_pos h, ih, zpow_add₀ (by norm_num), zpow_one]
    have hc : ((c / 10 : ℕ) : ℚ) * 10 = c := by exact_mod_cast Nat.div_mul_cancel (by omega)
    rw [← hc]
    ring
  | case2 c q h => rw [stripZeros, if_neg h]

/-- Fixed notation names the number. -/
theorem fixedNumeral_magnitude (negative : Bool) (c : ℕ) (q : ℤ) :
    (fixedNumeral negative c q).magnitude = c * 10 ^ q := by
  unfold fixedNumeral
  split
  · rename_i hq
    unfold Numeral.magnitude
    simp only [List.append_nil, digitsValue_decimalDigits, Option.map_none, Option.getD_none,
      List.length_nil, Nat.cast_zero, sub_zero, zpow_zero, mul_one]
    push_cast
    rw [← zpow_natCast, Int.toNat_of_nonneg hq]
  · rename_i hq
    unfold Numeral.magnitude
    simp only [digitsValue_append, digitsValue_decimalDigits, digitsValue_lastDigits,
      length_lastDigits, Option.map_none, Option.getD_none, zero_sub]
    rw [Nat.div_add_mod', Int.toNat_of_nonneg (by omega), neg_neg]

/-- Scientific notation names the number. -/
theorem scientificNumeral_magnitude (negative : Bool) (c : ℕ) (q : ℤ) :
    (scientificNumeral negative c q).magnitude = c * 10 ^ q := by
  have hexp : ∀ e : ℤ, (scientificExponent e).value = e := by
    intro e
    have habs : digitsValue (scientificExponent e).digits = e.natAbs := by
      unfold scientificExponent
      simp only
      split
      · rename_i h
        rw [digitsValue_lastDigits, Nat.mod_eq_of_lt (by simpa using h)]
      · exact digitsValue_decimalDigits _
    unfold Numeral.Exponent.value
    rw [habs]
    unfold scientificExponent
    by_cases he : e < 0
    · simp only [he, if_true]
      omega
    · simp only [he, if_false]
      rw [if_neg (by decide)]
      omega
  unfold Numeral.magnitude scientificNumeral
  simp only [Option.map_some, Option.getD_some, hexp]
  rw [add_sub_cancel_right, ← List.drop_one, List.take_append_drop, digitsValue_decimalDigits]

/-- A multiple of `2 ^ (-k)` has at most `k` decimals. -/
theorem floor_mul_ten_zpow {x : ℚ} {m k : ℕ} {e : ℤ} (he : -(k : ℤ) ≤ e)
    (hx : x = m * 2 ^ e) : ((⌊x * 10 ^ (k : ℤ)⌋₊ : ℕ) : ℚ) = x * 10 ^ (k : ℤ) := by
  have hnat : x * 10 ^ (k : ℤ) = ((m * 2 ^ (e + k).toNat * 5 ^ k : ℕ) : ℚ) := by
    push_cast
    rw [hx, show (10 : ℚ) = 2 * 5 by norm_num, mul_zpow, ← zpow_natCast 2 (e + k).toNat,
      Int.toNat_of_nonneg (by omega), zpow_add₀ (by norm_num), zpow_natCast 5 k]
    ring
  rw [hnat, Nat.floor_natCast]

/-- **What the search finds reads back.** -/
theorem nearest_shortestDecimal {x : ℚ} (hx : 0 < x) (h : Representable x) :
    nearest ((shortestDecimal x).1 * 10 ^ (shortestDecimal x).2) = x := by
  unfold shortestDecimal
  cases hfind : (List.range 17).findSome? fun p => readsBackAt x (Int.log 10 x - p) with
  | some r =>
    obtain ⟨p, -, hp⟩ := List.exists_of_findSome?_eq_some hfind
    unfold readsBackAt at hp
    obtain ⟨c, hc, rfl⟩ := Option.map_eq_some_iff.mp hp
    simpa using List.find?_some hc
  | none =>
    obtain ⟨m, e, -, hmin, -, hm⟩ := id h
    have hexact : ((⌊x * 10 ^ (1074 : ℤ)⌋₊ : ℕ) : ℚ) = x * 10 ^ (1074 : ℤ) :=
      floor_mul_ten_zpow (k := 1074) hmin hm
    have hcancel : x * 10 ^ (1074 : ℤ) * 10 ^ (-1074 : ℤ) = x := by
      rw [zpow_neg, mul_assoc, mul_inv_cancel₀ (zpow_pos (by norm_num) _).ne', mul_one]
    rw [Option.getD_none, hexact, hcancel]
    exact nearest_of_representable hx h

/-- A numeral whose magnitude rounds to a value reads back as it. -/
theorem fromChars_of_nearest {b : Binary64} {n : Numeral} (hb : 0 < b.magnitude)
    (hsign : n.negative = b.negative) (hpos : 0 < n.magnitude)
    (hnear : nearest n.magnitude = b.magnitude) : fromChars n.text = some b := by
  rw [fromChars_text, hsign]
  exact roundBinary64_of_nearest hb hpos hnear

/-- The shortest digits read back. -/
theorem nearest_shortestDigits {b : Binary64} (hb : 0 < b.magnitude) :
    0 < ((shortestDigits b).1 : ℚ) * 10 ^ (shortestDigits b).2
      ∧ nearest ((shortestDigits b).1 * 10 ^ (shortestDigits b).2) = b.magnitude := by
  have hnear := nearest_shortestDecimal hb b.representable
  unfold shortestDigits
  rw [stripZeros_value]
  refine ⟨lt_of_le_of_ne (by positivity) (fun h => ?_), hnear⟩
  rw [← h] at hnear
  exact hb.ne ((by simp [nearest, roundHalfEven] : (0 : ℚ) = nearest 0).trans hnear)

/-- Fixed notation keeps the sign. -/
theorem fixedNumeral_negative (negative : Bool) (c : ℕ) (q : ℤ) :
    (fixedNumeral negative c q).negative = negative := by
  unfold fixedNumeral
  split <;> rfl

/-- A value reads back from fixed notation. -/
theorem fromChars_toCharsFixed {b : Binary64} (hb : 0 < b.magnitude) :
    fromChars (toCharsFixed b).text = some b := by
  unfold toCharsFixed
  split
  · rename_i hden
    have hnum : ((b.magnitude.num.toNat : ℕ) : ℚ) = b.magnitude := by
      have hnonneg : 0 ≤ b.magnitude.num := Rat.num_nonneg.mpr hb.le
      rw [← Int.cast_natCast, Int.toNat_of_nonneg hnonneg]
      exact Rat.coe_int_num_of_den_eq_one hden
    rw [fromChars_text, fixedNumeral_negative, fixedNumeral_magnitude, zpow_zero, mul_one, hnum]
    exact roundBinary64_magnitude b
  · obtain ⟨hpos, hnear⟩ := nearest_shortestDigits hb
    rw [← fixedNumeral_magnitude b.negative] at hpos hnear
    exact fromChars_of_nearest hb (fixedNumeral_negative _ _ _) hpos hnear

/-- A value reads back from scientific notation. -/
theorem fromChars_toCharsScientific {b : Binary64} (hb : 0 < b.magnitude) :
    fromChars (toCharsScientific b).text = some b := by
  obtain ⟨hpos, hnear⟩ := nearest_shortestDigits hb
  rw [← scientificNumeral_magnitude b.negative] at hpos hnear
  exact fromChars_of_nearest hb rfl hpos hnear

/-- **Every finite value reads back from its shortest representation.** -/
theorem fromChars_toChars (b : Binary64) : fromChars (toChars b).text = some b := by
  unfold toChars
  split
  · rename_i hzero
    rw [fromChars_text, fixedNumeral_negative, fixedNumeral_magnitude, Nat.cast_zero, zero_mul,
      ← hzero]
    exact roundBinary64_magnitude b
  · rename_i hne
    have hb : 0 < b.magnitude := lt_of_le_of_ne b.representable.nonneg (Ne.symm hne)
    split
    · exact fromChars_toCharsFixed hb
    · exact fromChars_toCharsScientific hb

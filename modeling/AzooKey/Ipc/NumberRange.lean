import AzooKey.Ipc.Json

/-!
# Numbers that are too small

`AdjustedDecimalExponent`, `UnderflowsToZero` and `ParseFiniteDouble` of
`ipc/src/Json.cpp`: `from_chars` does not say whether a number that is out of range
is too large or too small, so the place of its first digit is computed from the
spelling. The written exponent is capped and the number of digits is not, and the
two can cancel: `readsRange_iff` says of which spellings.
-/

namespace AzooKey.Ipc.Json

/-! ## Digits -/

/-- The digit that a number begins with. -/
theorem digitsValue_cons (c : UInt8) (digits : Bytes) :
    digitsValue (c :: digits) = (c.toNat - 0x30) * 10 ^ digits.length + digitsValue digits := by
  have happend := digitsValue_append [c] digits
  rw [List.singleton_append] at happend
  rw [happend]
  simp [digitsValue]

/-- The value of a digit. -/
theorem digit_bounds {c : UInt8} (hc : isDigitByte c = true) :
    c.toNat - 0x30 ≤ 9 ∧ (c ≠ 0x30 → 1 ≤ c.toNat - 0x30) := by
  simp only [isDigitByte, Bool.and_eq_true, decide_eq_true_eq, UInt8.le_iff_toNat_le,
    UInt8.reduceToNat] at hc
  refine ⟨by omega, fun hne => ?_⟩
  have hval : c.toNat ≠ 0x30 := fun h => hne (UInt8.toNat_inj.mp h)
  omega

/-- A number of some digits. -/
theorem digitsValue_lt {digits : Bytes} (h : ∀ c ∈ digits, isDigitByte c = true) :
    digitsValue digits < 10 ^ digits.length := by
  induction digits with
  | nil => decide
  | cons c digits ih =>
    have hrest := ih (fun d hd => h d (List.mem_cons_of_mem _ hd))
    obtain ⟨hc, -⟩ := digit_bounds (h c List.mem_cons_self)
    rw [digitsValue_cons, List.length_cons, pow_succ]
    have hfirst := Nat.mul_le_mul_right (10 ^ digits.length) hc
    omega

/-- Only zeros. -/
theorem digitsValue_eq_zero {digits : Bytes}
    (h : digits.findIdx? (fun c => decide (c ≠ 0x30)) = none) : digitsValue digits = 0 := by
  induction digits with
  | nil => rfl
  | cons c digits ih =>
    rw [List.findIdx?_eq_none_iff] at h ih
    have hc : c = 0x30 := by simpa using h c List.mem_cons_self
    rw [digitsValue_cons, ih (fun d hd => h d (List.mem_cons_of_mem _ hd)), hc]
    simp

/-- **A number is as large as the place of its first digit** that is not zero. -/
theorem digitsValue_bounds {digits : Bytes} {i : ℕ} (h : ∀ c ∈ digits, isDigitByte c = true)
    (hfirst : digits.findIdx? (fun c => decide (c ≠ 0x30)) = some i) :
    i < digits.length ∧ 10 ^ (digits.length - i - 1) ≤ digitsValue digits
      ∧ digitsValue digits < 10 ^ (digits.length - i) := by
  induction digits generalizing i with
  | nil => exact absurd hfirst (by simp)
  | cons c digits ih =>
    have hdigits : ∀ d ∈ digits, isDigitByte d = true := fun d hd => h d (List.mem_cons_of_mem _ hd)
    rw [List.findIdx?_cons] at hfirst
    by_cases hc : c = 0x30
    · rw [if_neg (by simpa using hc)] at hfirst
      obtain ⟨j, hj, rfl⟩ := Option.map_eq_some_iff.mp hfirst
      obtain ⟨hlt, hlow, hhigh⟩ := ih hdigits hj
      rw [digitsValue_cons, hc, List.length_cons]
      have hplace : digits.length + 1 - (j + 1) = digits.length - j := by omega
      rw [hplace]
      simpa using ⟨hlt, hlow, hhigh⟩
    · rw [if_pos (by simpa using hc), Option.some.injEq] at hfirst
      subst hfirst
      obtain ⟨-, hone⟩ := digit_bounds (h c List.mem_cons_self)
      have hlow := Nat.mul_le_mul_right (10 ^ digits.length) (hone hc)
      refine ⟨by simp, ?_, ?_⟩
      · rw [digitsValue_cons, List.length_cons, Nat.sub_zero, Nat.add_sub_cancel]
        omega
      · rw [Nat.sub_zero]
        exact digitsValue_lt h

/-! ## The two exponents of a spelling -/

/-- The exponent that is written. -/
def writtenExponent (n : Numeral) : ℤ := (n.exponent.map Numeral.Exponent.value).getD 0

/-- The place of the first digit that is not zero, without the exponent. -/
def leadingPlace (n : Numeral) : Option ℤ :=
  ((n.whole ++ n.fraction).findIdx? (fun c => decide (c ≠ 0x30))).map
    (fun first : ℕ => (n.whole.length : ℤ) - (first : ℤ) - 1)

/-- The exponent up to its cap. -/
def cappedExponent (n : Numeral) : ℤ := max (-10000) (min (writtenExponent n) 10000)

/-- No magnitude is negative. -/
theorem magnitude_nonneg (n : Numeral) : 0 ≤ n.magnitude := by
  unfold Numeral.magnitude
  positivity

/-- A number whose digits are all zeros is zero. -/
theorem magnitude_eq_zero_iff (n : Numeral) : n.magnitude = 0 ↔ leadingPlace n = none := by
  have hdigits : ∀ c ∈ n.whole ++ n.fraction, isDigitByte c = true := fun c hc =>
    (List.mem_append.mp hc).elim (n.whole_isDigit c) (n.fraction_isDigit c)
  unfold Numeral.magnitude leadingPlace
  rw [Option.map_eq_none_iff, mul_eq_zero, or_iff_left (zpow_ne_zero _ (by norm_num)),
    Nat.cast_eq_zero]
  refine ⟨fun h => ?_, digitsValue_eq_zero⟩
  cases hfirst : (n.whole ++ n.fraction).findIdx? (fun c => decide (c ≠ 0x30)) with
  | none => rfl
  | some i =>
    obtain ⟨-, hlow, -⟩ := digitsValue_bounds hdigits hfirst
    rw [h] at hlow
    exact absurd hlow (not_le.mpr (by positivity))

/-- A number with a digit that is not zero is positive. -/
theorem magnitude_pos {n : Numeral} {d : ℤ} (h : leadingPlace n = some d) : 0 < n.magnitude := by
  refine (magnitude_nonneg n).lt_of_ne' (fun hzero => ?_)
  rw [magnitude_eq_zero_iff, h] at hzero
  cases hzero

/-- **The decimal exponent of a number** is the place of its first digit and the
written exponent. -/
theorem magnitude_bounds {n : Numeral} {d : ℤ} (h : leadingPlace n = some d) :
    (10 : ℚ) ^ (writtenExponent n + d) ≤ n.magnitude
      ∧ n.magnitude < 10 ^ (writtenExponent n + d + 1) := by
  have hdigits : ∀ c ∈ n.whole ++ n.fraction, isDigitByte c = true := fun c hc =>
    (List.mem_append.mp hc).elim (n.whole_isDigit c) (n.fraction_isDigit c)
  obtain ⟨i, hi, rfl⟩ := Option.map_eq_some_iff.mp h
  obtain ⟨hlt, hlow, hhigh⟩ := digitsValue_bounds hdigits hi
  rw [List.length_append] at hlt hlow hhigh
  have hten : (0 : ℚ) < 10 ^ (writtenExponent n - n.fraction.length) := by positivity
  unfold Numeral.magnitude
  rw [← writtenExponent]
  constructor
  · have hsum : writtenExponent n + ((n.whole.length : ℤ) - i - 1)
        = ((n.whole.length + n.fraction.length - i - 1 : ℕ) : ℤ)
          + (writtenExponent n - n.fraction.length) := by omega
    rw [hsum, zpow_add₀ (by norm_num), zpow_natCast]
    refine mul_le_mul_of_nonneg_right ?_ hten.le
    exact_mod_cast hlow
  · have hsum : writtenExponent n + ((n.whole.length : ℤ) - i - 1) + 1
        = ((n.whole.length + n.fraction.length - i : ℕ) : ℤ)
          + (writtenExponent n - n.fraction.length) := by omega
    rw [hsum, zpow_add₀ (by norm_num), zpow_natCast]
    refine mul_lt_mul_of_pos_right ?_ hten
    exact_mod_cast hhigh

/-! ## What the code computes -/

/-- The loop over the digits of the exponent stops at the cap. -/
theorem foldl_capped (digits : Bytes) (value : ℕ) :
    digits.foldl (fun value c => min (value * 10 + (c.toNat - 0x30)) 10000) (min value 10000)
      = min (digits.foldl (fun value c => value * 10 + (c.toNat - 0x30)) value) 10000 := by
  induction digits generalizing value with
  | nil => rfl
  | cons c digits ih =>
    rw [List.foldl_cons, List.foldl_cons, ← ih]
    refine congrArg (fun start => digits.foldl _ start) ?_
    omega

/-- The capped value of digits. -/
theorem foldl_exponent (digits : Bytes) :
    digits.foldl (fun value c => min (value * 10 + (c.toNat - 0x30)) 10000) 0
      = min (digitsValue digits) 10000 :=
  foldl_capped digits 0

/-- The significand of a text, which ends at the letter of the exponent. -/
theorem takeWhile_text (n : Numeral) :
    n.text.takeWhile (fun c => !(decide (c = 0x65) || decide (c = 0x45)))
        = n.signText ++ (n.whole ++ n.fractionText)
      ∧ n.text.dropWhile (fun c => !(decide (c = 0x65) || decide (c = 0x45))) = n.exponentText := by
  have hdigit : ∀ {c : UInt8}, isDigitByte c = true →
      (!(decide (c = 0x65) || decide (c = 0x45))) = true := by
    intro c hc
    have hne : c ≠ 0x65 ∧ c ≠ 0x45 := by
      constructor
      · rintro rfl
        exact absurd hc (by decide)
      · rintro rfl
        exact absurd hc (by decide)
    simp [hne.1, hne.2]
  have hsig : ∀ c ∈ n.signText ++ (n.whole ++ n.fractionText),
      (!(decide (c = 0x65) || decide (c = 0x45))) = true := by
    intro c hc
    obtain hc | hc := List.mem_append.mp hc
    · unfold Numeral.signText at hc
      split_ifs at hc
      · rw [List.mem_singleton.mp hc]
        decide
      · exact absurd hc List.not_mem_nil
    · obtain hc | hc := List.mem_append.mp hc
      · exact hdigit (n.whole_isDigit c hc)
      · unfold Numeral.fractionText at hc
        split_ifs at hc
        · exact absurd hc List.not_mem_nil
        · obtain rfl | hc := List.mem_cons.mp hc
          · decide
          · exact hdigit (n.fraction_isDigit c hc)
  have htext : n.text = (n.signText ++ (n.whole ++ n.fractionText)) ++ n.exponentText := by
    unfold Numeral.text
    simp
  rw [htext, List.takeWhile_append_of_pos hsig, List.dropWhile_append_of_pos hsig]
  unfold Numeral.exponentText
  cases n.exponent with
  | none => simp
  | some e =>
    have hletter : ¬ e.letter = 0x65 → e.letter = 0x45 := e.letter_form.resolve_left
    simpa [Numeral.Exponent.text] using hletter

/-- **The exponent that is computed.** -/
theorem explicit_eq (n : Numeral) :
    (if (n.exponentText.drop 1).head? = some 0x2d then
        -(((if (n.exponentText.drop 1).head?.any (fun c => decide (c = 0x2b) || decide (c = 0x2d))
          then (n.exponentText.drop 1).tail else n.exponentText.drop 1).foldl
            (fun value c => min (value * 10 + (c.toNat - 0x30)) 10000) 0 : ℕ) : ℤ)
      else (((if (n.exponentText.drop 1).head?.any (fun c => decide (c = 0x2b) || decide (c = 0x2d))
          then (n.exponentText.drop 1).tail else n.exponentText.drop 1).foldl
            (fun value c => min (value * 10 + (c.toNat - 0x30)) 10000) 0 : ℕ) : ℤ))
      = cappedExponent n := by
  unfold cappedExponent writtenExponent Numeral.exponentText
  cases n.exponent with
  | none => decide
  | some e =>
    simp only [Option.map_some, Option.getD_some, Numeral.Exponent.text, List.drop_succ_cons,
      List.drop_zero, Numeral.Exponent.value]
    obtain h | h | h := e.sign_form
    · obtain ⟨c, t, hdigits⟩ := List.exists_cons_of_ne_nil e.digits_ne
      have hc := e.isDigit c (by rw [hdigits]; exact List.mem_cons_self)
      have hplus : c ≠ 0x2b := by
        rintro rfl
        exact absurd hc (by decide)
      have hminus : c ≠ 0x2d := by
        rintro rfl
        exact absurd hc (by decide)
      rw [h, List.nil_append, if_neg (by simp [hdigits, hminus]),
        if_neg (by simp [hdigits, hplus, hminus]), if_neg (by simp), foldl_exponent]
      omega
    · rw [h, List.singleton_append, if_neg (by simp), if_pos (by simp), List.tail_cons,
        if_neg (by decide), foldl_exponent]
      omega
    · rw [h, List.singleton_append, if_pos (by simp), if_pos (by simp), List.tail_cons,
        if_pos rfl, foldl_exponent]
      omega

/-- The digits of a significand. -/
theorem digits_eq (n : Numeral) :
    (if (n.signText ++ (n.whole ++ n.fractionText)).head? = some 0x2d then
      (n.signText ++ (n.whole ++ n.fractionText)).tail
      else n.signText ++ (n.whole ++ n.fractionText)) = n.whole ++ n.fractionText := by
  unfold Numeral.signText
  cases n.negative with
  | true => rfl
  | false => exact if_neg (n.whole_head _)

/-- A digit is no point. -/
theorem ne_point_of_isDigit {c : UInt8} (hc : isDigitByte c = true) : c ≠ 0x2e := by
  rintro rfl
  exact absurd hc (by decide)

/-- The point in a significand. -/
theorem point_eq (n : Numeral) :
    (n.whole ++ n.fractionText).takeWhile (fun c => decide (c ≠ 0x2e)) = n.whole
      ∧ (n.whole ++ n.fractionText).filter (fun c => decide (c ≠ 0x2e)) = n.whole ++ n.fraction := by
  have hwhole : ∀ c ∈ n.whole, decide (c ≠ 0x2e) = true := fun c hc =>
    decide_eq_true (ne_point_of_isDigit (n.whole_isDigit c hc))
  have hfraction : ∀ c ∈ n.fraction, decide (c ≠ 0x2e) = true := fun c hc =>
    decide_eq_true (ne_point_of_isDigit (n.fraction_isDigit c hc))
  rw [List.takeWhile_append_of_pos hwhole, List.filter_append, List.filter_eq_self.mpr hwhole]
  unfold Numeral.fractionText
  split_ifs with hnil
  · rw [hnil]
    simp
  · rw [List.takeWhile_cons_of_neg (by decide), List.filter_cons_of_neg (by decide),
      List.filter_eq_self.mpr hfraction, List.append_nil]
    exact ⟨rfl, rfl⟩

/-- **`AdjustedDecimalExponent` of a spelling.** -/
theorem adjustedDecimalExponent_text (n : Numeral) :
    adjustedDecimalExponent n.text = (leadingPlace n).map (fun d => cappedExponent n + d) := by
  obtain ⟨hsig, hexp⟩ := takeWhile_text n
  obtain ⟨hpoint, hdigits⟩ := point_eq n
  have hexplicit := explicit_eq n
  unfold adjustedDecimalExponent
  dsimp only
  rw [hsig, hexp, digits_eq, hpoint, hdigits]
  unfold leadingPlace
  rw [← hexplicit]
  cases (n.whole ++ n.fraction).findIdx? (fun c => decide (c ≠ 0x30)) with
  | none => rfl
  | some first =>
    show some _ = some _
    congr 1
    push_cast
    ring

/-! ## Too small -/

/-- **What is below every power of ten that counts rounds to zero.** -/
theorem nearest_eq_zero {x : ℚ} (hx : 0 < x) (h : x < 10 ^ (-324 : ℤ)) : nearest x = 0 := by
  have hhalf : (10 : ℚ) ^ (-324 : ℤ) ≤ 2 ^ (-1075 : ℤ) := by
    rw [zpow_neg, zpow_neg]
    refine inv_anti₀ (two_zpow_pos _) ?_
    calc (2 : ℚ) ^ (1075 : ℤ) = (2 ^ 215) ^ 5 := by rw [← pow_mul, ← zpow_natCast]; rfl
      _ ≤ 10 ^ 4 * (10 ^ 64) ^ 5 := by norm_num
      _ = 10 ^ (324 : ℤ) := by rw [← pow_mul, ← pow_add, ← zpow_natCast]; rfl
  have hsmall := h.trans_le hhalf
  have hlog : Int.log 2 x < -1075 :=
    (Int.lt_zpow_iff_log_lt (by norm_num : 1 < 2) hx).mp (by exact_mod_cast hsmall)
  have hquantum : quantum x = -1074 := by
    unfold quantum
    omega
  have hlt : x / 2 ^ (-1074 : ℤ) < 1 / 2 := by
    rw [div_lt_iff₀ (two_zpow_pos _)]
    calc x < (2 : ℚ) ^ (-1075 : ℤ) := hsmall
      _ = 1 / 2 * 2 ^ (-1074 : ℤ) := by
        rw [← two_zpow_mul (show (-1 : ℤ) + -1074 = -1075 by norm_num)]
        norm_num
  have hnonneg : 0 ≤ x / 2 ^ (-1074 : ℤ) := by positivity
  have hfloor : ⌊x / 2 ^ (-1074 : ℤ)⌋ = 0 :=
    Int.floor_eq_zero_iff.mpr ⟨hnonneg, hlt.trans (by norm_num)⟩
  have hfract : Int.fract (x / 2 ^ (-1074 : ℤ)) < 1 / 2 := by
    rw [Int.fract, hfloor, Int.cast_zero, sub_zero]
    exact hlt
  unfold nearest roundHalfEven
  rw [hquantum, if_pos (Or.inl hfract), hfloor, Int.cast_zero, zero_mul]

/-- A large number does not round below the first that is too large. -/
theorem le_nearest {x : ℚ} (h : (2 : ℚ) ^ (1024 : ℤ) ≤ x) : (2 : ℚ) ^ (1024 : ℤ) ≤ nearest x := by
  have hx : 0 < x := (two_zpow_pos _).trans_le h
  have hlog : 1024 ≤ Int.log 2 x :=
    (Int.zpow_le_iff_le_log (by norm_num : 1 < 2) hx).mp (by exact_mod_cast h)
  have hquantum : quantum x = Int.log 2 x - 52 := by
    unfold quantum
    omega
  have hbelow : ((2 ^ 52 : ℤ) : ℚ) ≤ x / 2 ^ quantum x := by
    rw [le_div_iff₀ (two_zpow_pos _), hquantum]
    calc ((2 ^ 52 : ℤ) : ℚ) * 2 ^ (Int.log 2 x - 52) = 2 ^ (52 : ℤ) * 2 ^ (Int.log 2 x - 52) := by
          norm_num
      _ = 2 ^ Int.log 2 x := two_zpow_mul (by ring)
      _ ≤ x := by exact_mod_cast Int.zpow_log_le_self (by norm_num : 1 < 2) hx
  have hsig : (2 : ℤ) ^ 52 ≤ roundHalfEven (x / 2 ^ quantum x) :=
    (Int.le_floor.mpr hbelow).trans (floor_le_roundHalfEven _)
  unfold nearest
  calc (2 : ℚ) ^ (1024 : ℤ) = 2 ^ (52 : ℤ) * 2 ^ (972 : ℤ) := (two_zpow_mul (by norm_num)).symm
    _ ≤ roundHalfEven (x / 2 ^ quantum x) * 2 ^ quantum x :=
        mul_le_mul (by exact_mod_cast hsig) (zpow_le_zpow_right₀ (by norm_num) (by omega))
          (two_zpow_pos _).le ((by positivity : (0 : ℚ) ≤ ((2 ^ 52 : ℤ) : ℚ)).trans
            (by exact_mod_cast hsig))

/-- A number that rounds to zero is not read. -/
theorem fromChars_eq_none_of_zero {n : Numeral} (hpos : 0 < n.magnitude)
    (hzero : nearest n.magnitude = 0) : fromChars n.text = none := by
  rw [fromChars_text]
  unfold roundBinary64
  split_ifs with hrange hzero'
  · rfl
  · exact absurd hzero' hpos.ne'
  · rfl

/-- A number that rounds to none of the format is not read. -/
theorem fromChars_eq_none_of_large {n : Numeral} (hpos : 0 < n.magnitude)
    (hlarge : (2 : ℚ) ^ (1024 : ℤ) ≤ nearest n.magnitude) : fromChars n.text = none := by
  rw [fromChars_text]
  unfold roundBinary64
  rw [dif_neg (fun h => absurd h.2 (not_lt.mpr hlarge)), if_neg hpos.ne']

/-! ## When the spelling decides -/

/-- **What `AdjustedDecimalExponent` promises** of a number, and `ParseFiniteDouble`
makes of it. -/
def Decides (n : Numeral) : Prop :=
  (adjustedDecimalExponent n.text = none ↔ n.magnitude = 0)
    ∧ (∀ e ∈ adjustedDecimalExponent n.text,
        ((writtenExponent n).natAbs ≤ 10000 →
            (10 : ℚ) ^ e ≤ n.magnitude ∧ n.magnitude < 10 ^ (e + 1))
          ∧ (10000 < (writtenExponent n).natAbs →
            (e < -324 ↔ n.magnitude < 10 ^ (-324 : ℤ))))
    ∧ (underflowsToZero n.text = true ↔ 0 < n.magnitude ∧ n.magnitude < 10 ^ (-324 : ℤ))
    ∧ ((2 : ℚ) ^ (1024 : ℤ) ≤ nearest n.magnitude → parseFiniteDouble n.text = none)
    ∧ (0 < n.magnitude → n.magnitude < 10 ^ (-324 : ℤ) →
        parseFiniteDouble n.text = some (.zero n.negative))

/-- **The exponent and the digits cancel**: the exponent is beyond its cap, and what is
cut off of it takes the number across the smallest one. -/
def Cancels (n : Numeral) : Prop :=
  ∃ d ∈ leadingPlace n,
    (10000 < writtenExponent n ∧ 10000 + d < -324 ∧ -324 ≤ writtenExponent n + d)
      ∨ (writtenExponent n < -10000 ∧ -324 ≤ -10000 + d ∧ writtenExponent n + d < -324)

/-- A number is below the smallest one when its exponent is. -/
theorem magnitude_lt_iff {n : Numeral} {d : ℤ} (h : leadingPlace n = some d) :
    n.magnitude < 10 ^ (-324 : ℤ) ↔ writtenExponent n + d < -324 := by
  obtain ⟨hlow, hhigh⟩ := magnitude_bounds h
  constructor
  · intro hsmall
    by_contra hlarge
    have hle : (10 : ℚ) ^ (-324 : ℤ) ≤ 10 ^ (writtenExponent n + d) :=
      zpow_le_zpow_right₀ (by norm_num) (not_lt.mp hlarge)
    exact absurd hsmall (not_lt.mpr (hle.trans hlow))
  · intro hsmall
    exact hhigh.trans_le (zpow_le_zpow_right₀ (by norm_num) (by omega))

/-- What is computed is below the smallest number when the number is, unless the
exponent and the digits cancel. -/
theorem capped_lt_iff {n : Numeral} {d : ℤ} (h : leadingPlace n = some d) :
    (cappedExponent n + d < -324 ↔ n.magnitude < 10 ^ (-324 : ℤ)) ↔ ¬ Cancels n := by
  rw [magnitude_lt_iff h]
  have hcancels : Cancels n ↔
      (10000 < writtenExponent n ∧ 10000 + d < -324 ∧ -324 ≤ writtenExponent n + d)
        ∨ (writtenExponent n < -10000 ∧ -324 ≤ -10000 + d ∧ writtenExponent n + d < -324) := by
    unfold Cancels
    simp [h]
  rw [hcancels]
  unfold cappedExponent
  omega

/-- `UnderflowsToZero` of a spelling. -/
theorem underflowsToZero_text {n : Numeral} {d : ℤ} (h : leadingPlace n = some d) :
    underflowsToZero n.text = true ↔ cappedExponent n + d < -324 := by
  unfold underflowsToZero
  rw [adjustedDecimalExponent_text, h]
  simp

/-- Zero does not underflow. -/
theorem underflowsToZero_zero {n : Numeral} (h : leadingPlace n = none) :
    underflowsToZero n.text = false := by
  unfold underflowsToZero
  rw [adjustedDecimalExponent_text, h]
  rfl

/-- What is read when `from_chars` reads nothing. -/
theorem parseFiniteDouble_of_none {n : Numeral} (h : fromChars n.text = none) :
    parseFiniteDouble n.text
      = if underflowsToZero n.text then some (.zero n.negative) else none := by
  unfold parseFiniteDouble
  rw [h, n.text_sign.1]

/-- Zeros are read right. -/
theorem decides_of_zero {n : Numeral} (h : leadingPlace n = none) : Decides n := by
  have hzero := (magnitude_eq_zero_iff n).mpr h
  have hadjusted : adjustedDecimalExponent n.text = none := by
    rw [adjustedDecimalExponent_text, h]
    rfl
  refine ⟨iff_of_true hadjusted hzero, ?_, ?_, ?_, ?_⟩
  · rw [hadjusted]
    simp
  · rw [underflowsToZero_zero h, hzero]
    simp
  · intro hlarge
    have hnearest : nearest n.magnitude = 0 := by
      rw [hzero]
      simp [nearest, roundHalfEven]
    rw [hnearest] at hlarge
    exact absurd hlarge (not_le.mpr (two_zpow_pos _))
  · intro hpos
    exact absurd hzero hpos.ne'

/-- An exponent that cancels breaks the promise of `UnderflowsToZero`. -/
theorem not_decides_of_cancels {n : Numeral} (h : Cancels n) : ¬ Decides n := by
  intro hdecides
  obtain ⟨d, hplace, -⟩ := id h
  have hpos : 0 < n.magnitude := magnitude_pos hplace
  have hunder := hdecides.2.2.1
  rw [underflowsToZero_text hplace] at hunder
  exact (capped_lt_iff hplace).mp (hunder.trans (and_iff_right hpos)) h

/-- A number whose exponent does not cancel is read right. -/
theorem decides_of_not_cancels {n : Numeral} {d : ℤ} (hplace : leadingPlace n = some d)
    (hcancels : ¬ Cancels n) : Decides n := by
  have hpos : 0 < n.magnitude := magnitude_pos hplace
  have hadjusted : adjustedDecimalExponent n.text = some (cappedExponent n + d) := by
    rw [adjustedDecimalExponent_text, hplace]
    rfl
  have hside := (capped_lt_iff hplace).mpr hcancels
  have hunder : underflowsToZero n.text = true ↔ n.magnitude < 10 ^ (-324 : ℤ) :=
    (underflowsToZero_text hplace).trans hside
  refine ⟨iff_of_false (by rw [hadjusted]; simp) hpos.ne', ?_, ?_, ?_, ?_⟩
  · intro e he
    have heq : e = cappedExponent n + d := by
      rw [hadjusted] at he
      exact (Option.some.inj he).symm
    rw [heq]
    refine ⟨fun hcap => ?_, fun _ => hside⟩
    have hwritten : cappedExponent n = writtenExponent n := by
      unfold cappedExponent
      omega
    rw [hwritten]
    exact magnitude_bounds hplace
  · rw [hunder]
    exact (and_iff_right hpos).symm
  · intro hlarge
    rw [parseFiniteDouble_of_none (fromChars_eq_none_of_large hpos hlarge), if_neg]
    intro hsmall
    rw [nearest_eq_zero hpos (hunder.mp hsmall)] at hlarge
    exact absurd hlarge (not_le.mpr (two_zpow_pos _))
  · intro _ hsmall
    rw [parseFiniteDouble_of_none
      (fromChars_eq_none_of_zero hpos (nearest_eq_zero hpos hsmall)), if_pos (hunder.mpr hsmall)]

/-- **A spelling is read right exactly when its exponent and its digits do not
cancel.** -/
theorem readsRange_iff (n : Numeral) : Decides n ↔ ¬ Cancels n := by
  refine ⟨fun hdecides hcancels => not_decides_of_cancels hcancels hdecides, fun hcancels => ?_⟩
  cases hplace : leadingPlace n with
  | none => exact decides_of_zero hplace
  | some d => exact decides_of_not_cancels hplace hcancels

/-- The digits of 21000. -/
theorem isDigitByte_manyZeros :
    ∀ c ∈ ([0x32, 0x31, 0x30, 0x30, 0x30] : Bytes), isDigitByte c = true := by
  simp [isDigitByte]

/-- The digit of zero. -/
theorem isDigitByte_zero : ∀ c ∈ ([0x30] : Bytes), isDigitByte c = true := by
  simp [isDigitByte]

/-- The digits of some zeros and a one. -/
theorem isDigitByte_fraction (zeros : ℕ) :
    ∀ c ∈ (List.replicate zeros 0x30 ++ [0x31] : Bytes), isDigitByte c = true := by
  intro c hc
  obtain hc | hc := List.mem_append.mp hc
  · rw [List.eq_of_mem_replicate hc]
    decide
  · rw [List.mem_singleton.mp hc]
    decide

/-- The letter and the sign of the exponent, and that it has digits. -/
theorem letter_form_manyZeros : (0x65 : UInt8) = 0x65 ∨ (0x65 : UInt8) = 0x45 := Or.inl rfl

theorem sign_form_manyZeros : ([] : Bytes) = [] ∨ ([] : Bytes) = [0x2b] ∨ ([] : Bytes) = [0x2d] :=
  Or.inl rfl

theorem digits_ne_manyZeros : ([0x32, 0x31, 0x30, 0x30, 0x30] : Bytes) ≠ [] := List.cons_ne_nil _ _

/-- Zero stands before the point. -/
theorem whole_form_manyZeros :
    ([0x30] : Bytes) = [0x30] ∨ ∃ c t, ([0x30] : Bytes) = c :: t ∧ c ≠ 0x30 := Or.inl rfl

/-- `0.`, some zeros, a one and the exponent 21000. -/
def manyZeros (zeros : ℕ) : Numeral where
  whole := [0x30]
  fraction := List.replicate zeros 0x30 ++ [0x31]
  exponent := some ⟨0x65, [], [0x32, 0x31, 0x30, 0x30, 0x30], letter_form_manyZeros,
    sign_form_manyZeros, digits_ne_manyZeros, isDigitByte_manyZeros⟩
  whole_form := whole_form_manyZeros
  whole_isDigit := isDigitByte_zero
  fraction_isDigit := isDigitByte_fraction zeros

/-- The one stands behind the zeros. -/
theorem leadingPlace_manyZeros (zeros : ℕ) :
    leadingPlace (manyZeros zeros) = some (-((zeros : ℤ) + 1)) := by
  have happend : (manyZeros zeros).whole ++ (manyZeros zeros).fraction
      = List.replicate (zeros + 1) 0x30 ++ [0x31] := by
    show [0x30] ++ (List.replicate zeros 0x30 ++ [0x31]) = _
    rw [← List.append_assoc, List.singleton_append, ← List.replicate_succ]
  have hfirst : ((manyZeros zeros).whole ++ (manyZeros zeros).fraction).findIdx?
      (fun c => decide (c ≠ 0x30)) = some (zeros + 1) := by
    rw [happend, List.findIdx?_append, List.findIdx?_replicate]
    simp
  unfold leadingPlace
  rw [hfirst]
  show some _ = some _
  congr 1
  show ((1 : ℕ) : ℤ) - ((zeros + 1 : ℕ) : ℤ) - 1 = _
  omega

/-- Its text. -/
theorem length_text_manyZeros (zeros : ℕ) : (manyZeros zeros).text.length = zeros + 9 := by
  have hsign : (manyZeros zeros).signText = [] := rfl
  have hwhole : (manyZeros zeros).whole.length = 1 := rfl
  have hexponent : (manyZeros zeros).exponentText.length = 6 := rfl
  have hfraction : (manyZeros zeros).fractionText = 0x2e :: (List.replicate zeros 0x30 ++ [0x31]) :=
    if_neg (List.append_ne_nil_of_right_ne_nil _ (List.cons_ne_nil _ _))
  unfold Numeral.text
  rw [hsign, hfraction, List.nil_append, List.length_append, List.length_append, hwhole, hexponent,
    List.length_cons, List.length_append, List.length_replicate, List.length_singleton]
  omega

/-- A number of a thousand digits is read as zero. -/
theorem manyZeros_read :
    (manyZeros 20000).text.length = 20009
      ∧ (10 : ℚ) ^ (999 : ℤ) ≤ (manyZeros 20000).magnitude
      ∧ parseFiniteDouble (manyZeros 20000).text = some (.zero false)
      ∧ ¬ Decides (manyZeros 20000) := by
  have hplace : leadingPlace (manyZeros 20000) = some (-20001) := leadingPlace_manyZeros 20000
  have hwritten : writtenExponent (manyZeros 20000) = 21000 := rfl
  have hlow : (10 : ℚ) ^ (999 : ℤ) ≤ (manyZeros 20000).magnitude := by
    have hbound := (magnitude_bounds hplace).1
    rw [hwritten] at hbound
    exact hbound
  have hlarge : (2 : ℚ) ^ (1024 : ℤ) ≤ nearest (manyZeros 20000).magnitude := by
    refine le_nearest (le_trans ?_ hlow)
    calc (2 : ℚ) ^ (1024 : ℤ) = (2 ^ 128) ^ 8 := by rw [← pow_mul, ← zpow_natCast]; rfl
      _ ≤ (10 ^ 39) ^ 8 := by norm_num
      _ = 10 ^ (312 : ℤ) := by rw [← pow_mul, ← zpow_natCast]; rfl
      _ ≤ 10 ^ (999 : ℤ) := zpow_le_zpow_right₀ (by norm_num) (by norm_num)
  have hcapped : cappedExponent (manyZeros 20000) + -20001 < -324 := by
    unfold cappedExponent
    omega
  refine ⟨length_text_manyZeros 20000, hlow, ?_, not_decides_of_cancels ⟨-20001, hplace, Or.inl ?_⟩⟩
  · rw [parseFiniteDouble_of_none (fromChars_eq_none_of_large (magnitude_pos hplace) hlarge),
      if_pos ((underflowsToZero_text hplace).mpr hcapped)]
    rfl
  · rw [hwritten]
    omega

/-- What rounds to zero and is not below `10 ^ -324` is not read at all: its first
digit stands in the place that the code takes for the smallest number's. -/
theorem parseFiniteDouble_of_between {n : Numeral} (hcancels : ¬ Cancels n)
    (hlow : (10 : ℚ) ^ (-324 : ℤ) ≤ n.magnitude) (hzero : nearest n.magnitude = 0) :
    parseFiniteDouble n.text = none := by
  have hpos : 0 < n.magnitude := lt_of_lt_of_le (by positivity) hlow
  rw [parseFiniteDouble_of_none (fromChars_eq_none_of_zero hpos hzero), if_neg]
  cases hplace : leadingPlace n with
  | none =>
    rw [underflowsToZero_zero hplace]
    exact Bool.false_ne_true
  | some d =>
    rw [underflowsToZero_text hplace, (capped_lt_iff hplace).mpr hcancels]
    exact not_lt.mpr hlow

end AzooKey.Ipc.Json

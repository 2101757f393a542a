import Mathlib

/-!
# Binary floating point in double precision

The finite values of the binary64 format are the rationals `m * 2 ^ e` with
`m < 2 ^ 53` and `-1074 ≤ e ≤ 971`, under a sign that zero keeps too. A
finite value is modelled as just that, a sign and a representable magnitude:
the encoding in 64 bits plays no role for a program that only compares,
converts and prints.

`nearest` is the rounding of IEEE 754 to the nearest representable
magnitude, ties to the even significand, before the range is looked at. What
the conversions of text rest on is that it leaves a representable magnitude
alone (`nearest_of_representable`).
-/

/-- **The magnitudes of the finite values.** -/
def Representable (x : ℚ) : Prop :=
  ∃ (m : ℕ) (e : ℤ), m < 2 ^ 53 ∧ -1074 ≤ e ∧ e ≤ 971 ∧ x = m * (2 : ℚ) ^ e

/-- **A finite value**: a sign and a magnitude. -/
structure Binary64 where
  negative : Bool
  magnitude : ℚ
  representable : Representable magnitude
deriving DecidableEq

/-- **A value of the format**, with the two infinities and NaN. -/
inductive Double
  | finite (value : Binary64)
  | infinity (negative : Bool)
  | nan
deriving DecidableEq

/-- A magnitude is not negative. -/
theorem Representable.nonneg {x : ℚ} (h : Representable x) : 0 ≤ x := by
  obtain ⟨m, e, -, -, -, rfl⟩ := h
  positivity

/-- A natural number below `2 ^ 53` is a magnitude. -/
theorem representable_natCast {n : ℕ} (h : n < 2 ^ 53) : Representable n :=
  ⟨n, 0, h, by norm_num, by norm_num, by simp⟩

namespace Binary64

/-- The exact value. -/
def toRat (b : Binary64) : ℚ := if b.negative then -b.magnitude else b.magnitude

/-- Zero with a sign. -/
def zero (negative : Bool) : Binary64 :=
  ⟨negative, 0, ⟨0, 0, by norm_num, by norm_num, by norm_num, by simp⟩⟩

/-- An integer of at most 53 bits, which is exact. -/
def ofInt (n : ℤ) (h : n.natAbs < 2 ^ 53) : Binary64 :=
  ⟨decide (n < 0), n.natAbs, representable_natCast h⟩

/-- One is exact. -/
theorem natAbs_one_lt : Int.natAbs 1 < 2 ^ 53 := by norm_num

/-- So is minus two. -/
theorem natAbs_neg_two_lt : Int.natAbs (-2) < 2 ^ 53 := by norm_num

/-- An integer keeps its value. -/
theorem toRat_ofInt {n : ℤ} (h : n.natAbs < 2 ^ 53) : (ofInt n h).toRat = n := by
  unfold toRat ofInt
  by_cases hn : n < 0
  · simp only [hn, decide_true, if_true]
    rw [Nat.cast_natAbs, abs_of_neg (by exact_mod_cast hn)]
    simp
  · simp only [hn, decide_false, Bool.false_eq_true, if_false]
    rw [Nat.cast_natAbs, abs_of_nonneg (by exact_mod_cast not_lt.mp hn)]

end Binary64

namespace Double

/-- `==` of the format: zeros are equal whatever their sign, and NaN equals
nothing. -/
def ieeeEq : Double → Double → Bool
  | finite a, finite b => a.toRat = b.toRat
  | infinity a, infinity b => a == b
  | _, _ => false

/-- `isfinite`. -/
def isFinite : Double → Bool
  | finite _ => true
  | _ => false

end Double

/-! ## Rounding -/

/-- The nearest integer, ties to the even one. -/
def roundHalfEven (x : ℚ) : ℤ :=
  if Int.fract x < 1 / 2 ∨ Int.fract x = 1 / 2 ∧ ⌊x⌋ % 2 = 0 then ⌊x⌋ else ⌊x⌋ + 1

/-- The exponent of the last place at a magnitude. -/
def quantum (x : ℚ) : ℤ := max (-1074) (Int.log 2 x - 52)

/-- **The nearest multiple of the last place.** -/
def nearest (x : ℚ) : ℚ := roundHalfEven (x / 2 ^ quantum x) * 2 ^ quantum x

/-- An integer is its own rounding. -/
theorem roundHalfEven_intCast (n : ℤ) : roundHalfEven n = n := by
  unfold roundHalfEven
  rw [Int.fract_intCast, if_pos (Or.inl (by norm_num)), Int.floor_intCast]

/-- Rounding does not go below the floor. -/
theorem floor_le_roundHalfEven (x : ℚ) : ⌊x⌋ ≤ roundHalfEven x := by
  unfold roundHalfEven
  split
  · exact le_rfl
  · exact (Int.lt_succ _).le

/-- Rounding goes at most one above the floor. -/
theorem roundHalfEven_le (x : ℚ) : roundHalfEven x ≤ ⌊x⌋ + 1 := by
  unfold roundHalfEven
  split
  · exact (Int.lt_succ _).le
  · exact le_rfl

/-- A power of two is positive. -/
theorem two_zpow_pos (e : ℤ) : (0 : ℚ) < 2 ^ e := zpow_pos (by norm_num) e

/-- Powers of two multiply. -/
theorem two_zpow_mul {a b c : ℤ} (h : a + b = c) : (2 : ℚ) ^ a * 2 ^ b = 2 ^ c := by
  rw [← zpow_add₀ (by norm_num), h]

/-- The magnitude, counted in last places, is below `2 ^ 53`. -/
theorem div_quantum_lt (x : ℚ) : x / 2 ^ quantum x < 2 ^ 53 := by
  rw [div_lt_iff₀ (two_zpow_pos _)]
  calc x < (2 : ℚ) ^ (Int.log 2 x + 1) := by
        exact_mod_cast Int.lt_zpow_succ_log_self (by norm_num : 1 < 2) x
    _ ≤ (2 : ℚ) ^ (53 + quantum x) := by
        refine zpow_le_zpow_right₀ (by norm_num) ?_
        unfold quantum
        omega
    _ = 2 ^ 53 * 2 ^ quantum x := by
        rw [zpow_add₀ (by norm_num)]
        norm_num

/-- **A representable magnitude is its own rounding.** -/
theorem nearest_of_representable {x : ℚ} (hx : 0 < x) (h : Representable x) : nearest x = x := by
  obtain ⟨m, e, hm, hmin, -, rfl⟩ := h
  set q := quantum ((m : ℚ) * 2 ^ e) with hq
  -- the last place is no larger than the unit of the representation
  have hlog : Int.log 2 ((m : ℚ) * 2 ^ e) < 53 + e := by
    rw [← Int.lt_zpow_iff_log_lt (by norm_num : 1 < 2) hx]
    push_cast
    rw [zpow_add₀ (by norm_num)]
    refine mul_lt_mul_of_pos_right ?_ (two_zpow_pos e)
    exact_mod_cast hm
  have hle : q ≤ e := by
    rw [hq]
    unfold quantum
    omega
  have hdiv : (m : ℚ) * 2 ^ e / 2 ^ q = ((m * 2 ^ (e - q).toNat : ℤ) : ℚ) := by
    push_cast
    rw [mul_div_assoc, ← zpow_sub₀ (by norm_num), ← zpow_natCast,
      Int.toNat_of_nonneg (by omega)]
  unfold nearest
  rw [← hq, hdiv, roundHalfEven_intCast, ← hdiv]
  exact div_mul_cancel₀ _ (two_zpow_pos q).ne'

/-- **The rounding below the overflow threshold is representable.** -/
theorem representable_nearest {x : ℚ} (hx : 0 < x) (h : nearest x < 2 ^ (1024 : ℤ)) :
    Representable (nearest x) := by
  set q := quantum x with hq
  set n := roundHalfEven (x / 2 ^ q) with hn
  have heq : nearest x = n * 2 ^ q := rfl
  have hfloor : 0 ≤ ⌊x / 2 ^ q⌋ := Int.floor_nonneg.mpr (by positivity)
  have hnonneg : 0 ≤ n := hfloor.trans (floor_le_roundHalfEven _)
  have hle : n ≤ 2 ^ 53 := by
    have hlt : ⌊x / 2 ^ q⌋ < 2 ^ 53 := by
      rw [Int.floor_lt]
      exact_mod_cast div_quantum_lt x
    exact (roundHalfEven_le _).trans hlt
  have hmin : -1074 ≤ q := le_max_left _ _
  obtain ⟨k, hk⟩ := Int.eq_ofNat_of_zero_le hnonneg
  rcases hle.lt_or_eq with hlt | htop
  · -- the significand fits: only the exponent may be too large, and then the value is
    refine ⟨k, q, by omega, hmin, ?_, by rw [heq, hk]; simp⟩
    by_contra hbig
    have hlog : Int.log 2 x = q + 52 := by
      rw [hq] at hbig ⊢
      unfold quantum at hbig ⊢
      omega
    have hbelow : ((2 ^ 52 : ℤ) : ℚ) ≤ x / 2 ^ q := by
      rw [le_div_iff₀ (two_zpow_pos q)]
      have := Int.zpow_log_le_self (by norm_num : 1 < 2) hx
      rw [hlog, Nat.cast_ofNat, zpow_add₀ (by norm_num)] at this
      push_cast
      rw [mul_comm]
      exact_mod_cast this
    have hsig : (2 : ℤ) ^ 52 ≤ n := (Int.le_floor.mpr hbelow).trans (floor_le_roundHalfEven _)
    have hover : (2 : ℚ) ^ (1024 : ℤ) ≤ nearest x := by
      calc (2 : ℚ) ^ (1024 : ℤ) = 2 ^ (52 : ℤ) * 2 ^ (972 : ℤ) := (two_zpow_mul (by norm_num)).symm
        _ ≤ (n : ℚ) * 2 ^ q := by
            refine mul_le_mul (by exact_mod_cast hsig)
              (zpow_le_zpow_right₀ (by norm_num) (by omega)) (two_zpow_pos _).le
              (by exact_mod_cast hnonneg)
    exact absurd h (not_lt.mpr hover)
  · -- the significand carried into the next binade
    refine ⟨2 ^ 52, q + 1, by norm_num, by omega, ?_, ?_⟩
    · by_contra hbig
      have hover : (2 : ℚ) ^ (1024 : ℤ) ≤ nearest x := by
        rw [heq, htop]
        calc (2 : ℚ) ^ (1024 : ℤ) = 2 ^ (53 : ℤ) * 2 ^ (971 : ℤ) :=
              (two_zpow_mul (by norm_num)).symm
          _ ≤ 2 ^ (53 : ℤ) * 2 ^ q :=
              mul_le_mul_of_nonneg_left (zpow_le_zpow_right₀ (by norm_num) (by omega))
                (two_zpow_pos _).le
          _ = ((2 ^ 53 : ℤ) : ℚ) * 2 ^ q := by norm_cast
      exact absurd h (not_lt.mpr hover)
    · rw [heq, htop, zpow_add₀ (by norm_num)]
      push_cast
      ring

/-- Rounding adds one last place at most. -/
theorem nearest_le (x : ℚ) : nearest x ≤ x + 2 ^ quantum x := by
  have hhigh : (roundHalfEven (x / 2 ^ quantum x) : ℚ) ≤ x / 2 ^ quantum x + 1 := by
    calc (roundHalfEven (x / 2 ^ quantum x) : ℚ) ≤ ⌊x / 2 ^ quantum x⌋ + 1 := by
          exact_mod_cast roundHalfEven_le _
      _ ≤ x / 2 ^ quantum x + 1 := by linarith [Int.floor_le (x / 2 ^ quantum x)]
  calc nearest x ≤ (x / 2 ^ quantum x + 1) * 2 ^ quantum x :=
        mul_le_mul_of_nonneg_right hhigh (two_zpow_pos _).le
    _ = x + 2 ^ quantum x := by
        rw [add_mul, div_mul_cancel₀ _ (two_zpow_pos _).ne', one_mul]

/-- From one on, rounding keeps a magnitude positive and less than doubles
it. -/
theorem nearest_bounds {x : ℚ} (hx : 1 ≤ x) : 0 < nearest x ∧ nearest x ≤ 2 * x := by
  have hpos : 0 < x := by linarith
  have hunit : (2 : ℚ) ^ quantum x ≤ x := by
    unfold quantum
    rcases max_cases (-1074 : ℤ) (Int.log 2 x - 52) with ⟨h, -⟩ | ⟨h, -⟩
    · rw [h]
      exact (zpow_le_one_of_nonpos₀ (by norm_num) (by norm_num)).trans hx
    · rw [h]
      calc (2 : ℚ) ^ (Int.log 2 x - 52) ≤ 2 ^ Int.log 2 x :=
            zpow_le_zpow_right₀ (by norm_num) (by omega)
        _ ≤ x := by exact_mod_cast Int.zpow_log_le_self (by norm_num : 1 < 2) hpos
  have hone : 1 ≤ ⌊x / 2 ^ quantum x⌋ := by
    rw [Int.le_floor, Int.cast_one, le_div_iff₀ (two_zpow_pos _), one_mul]
    exact hunit
  have hlow : (1 : ℚ) ≤ roundHalfEven (x / 2 ^ quantum x) := by
    exact_mod_cast hone.trans (floor_le_roundHalfEven _)
  constructor
  · exact mul_pos (by linarith) (two_zpow_pos _)
  · calc nearest x ≤ x + 2 ^ quantum x := nearest_le x
      _ ≤ 2 * x := by linarith

/-- **The finite value of a sign and a magnitude**, correctly rounded. There is
none when the magnitude is too large, or rounds to zero and is not zero. -/
def roundBinary64 (negative : Bool) (x : ℚ) : Option Binary64 :=
  if h : 0 < x ∧ nearest x < 2 ^ (1024 : ℤ) then
    if nearest x = 0 then none else some ⟨negative, nearest x, representable_nearest h.1 h.2⟩
  else if x = 0 then some (.zero negative)
  else none

/-- A magnitude is below the overflow threshold. -/
theorem Representable.lt {x : ℚ} (h : Representable x) : x < 2 ^ (1024 : ℤ) := by
  obtain ⟨m, e, hm, -, hmax, rfl⟩ := h
  calc (m : ℚ) * 2 ^ e < 2 ^ (53 : ℤ) * 2 ^ e :=
        mul_lt_mul_of_pos_right (by exact_mod_cast hm) (two_zpow_pos e)
    _ ≤ 2 ^ (53 : ℤ) * 2 ^ (971 : ℤ) :=
        mul_le_mul_of_nonneg_left (zpow_le_zpow_right₀ (by norm_num) hmax) (two_zpow_pos _).le
    _ = 2 ^ (1024 : ℤ) := two_zpow_mul (by norm_num)

/-- A magnitude that rounds to a value gives that value. -/
theorem roundBinary64_of_nearest {b : Binary64} {x : ℚ} (hb : 0 < b.magnitude) (hx : 0 < x)
    (h : nearest x = b.magnitude) : roundBinary64 b.negative x = some b := by
  obtain ⟨negative, y, hrep⟩ := b
  simp only at hb h
  unfold roundBinary64
  simp only [h]
  rw [dif_pos ⟨hx, hrep.lt⟩, if_neg hb.ne']

/-- A magnitude of the format is exact. -/
theorem roundBinary64_magnitude (b : Binary64) :
    roundBinary64 b.negative b.magnitude = some b := by
  rcases b.representable.nonneg.lt_or_eq with hpos | hzero
  · exact roundBinary64_of_nearest hpos hpos (nearest_of_representable hpos b.representable)
  · obtain ⟨negative, x, hrep⟩ := b
    simp only at hzero
    subst hzero
    simp [roundBinary64, Binary64.zero]

/-! ## Arithmetic -/

namespace Double

/-- `<` of the format: nothing compares with NaN. -/
def ieeeLt : Double → Double → Bool
  | finite a, finite b => a.toRat < b.toRat
  | finite _, infinity negative => !negative
  | infinity negative, finite _ => negative
  | infinity a, infinity b => a && !b
  | _, _ => false

/-- `std::max`: the first argument, unless it is less than the second. -/
def max (a b : Double) : Double := if ieeeLt a b then b else a

/-- `std::min`: the first argument, unless the second is less. -/
def min (a b : Double) : Double := if ieeeLt b a then b else a

/-- **The value nearest to a real number.** `negative` is the sign of a zero. -/
def round (negative : Bool) (x : ℚ) : Double :=
  if h : 0 < |x| ∧ nearest |x| < 2 ^ (1024 : ℤ) then
    finite ⟨decide (x < 0), nearest |x|, representable_nearest h.1 h.2⟩
  else if x = 0 then finite (.zero negative)
  else infinity (decide (x < 0))

/-- The rounding of a number from zero to one is finite. -/
theorem exists_round_eq_finite (negative : Bool) {x : ℚ} (hx : 0 ≤ x) (hone : x ≤ 1) :
    ∃ b, round negative x = finite b := by
  unfold round
  split
  · exact ⟨_, rfl⟩
  · rename_i hnot
    split
    · exact ⟨_, rfl⟩
    · rename_i hne
      have hpos : 0 < x := lt_of_le_of_ne hx (Ne.symm hne)
      have hlog : Int.log 2 x ≤ 0 := by
        have hlt : Int.log 2 x < 1 := by
          rw [← Int.lt_zpow_iff_log_lt (by norm_num : 1 < 2) hpos]
          push_cast
          linarith
        omega
      have hquantum : (2 : ℚ) ^ quantum x ≤ 1 := by
        refine zpow_le_one_of_nonpos₀ (by norm_num) ?_
        unfold quantum
        omega
      have hnearest : nearest x ≤ 2 := by linarith [nearest_le x]
      have hlarge : (2 : ℚ) < 2 ^ (1024 : ℤ) := by
        calc (2 : ℚ) = 2 ^ (1 : ℤ) := (zpow_one 2).symm
          _ < 2 ^ (1024 : ℤ) := zpow_lt_zpow_right₀ (by norm_num) (by norm_num)
      have hbound : nearest x < 2 ^ (1024 : ℤ) := lt_of_le_of_lt hnearest hlarge
      rw [abs_of_nonneg hx] at hnot
      exact absurd ⟨hpos, hbound⟩ hnot

/-- `+` of the format. -/
def add : Double → Double → Double
  | finite a, finite b => round (a.negative && b.negative) (a.toRat + b.toRat)
  | infinity a, infinity b => if a = b then infinity a else nan
  | infinity a, finite _ => infinity a
  | finite _, infinity b => infinity b
  | _, _ => nan

/-- Sign change. -/
def neg : Double → Double
  | finite a => finite ⟨!a.negative, a.magnitude, a.representable⟩
  | infinity a => infinity (!a)
  | nan => nan

/-- `-` of the format. -/
def sub (a b : Double) : Double := add a (neg b)

/-- `<=` of the format. -/
def ieeeLe (a b : Double) : Bool := ieeeLt a b || ieeeEq a b

/-- `*` of the format. -/
def mul : Double → Double → Double
  | finite a, finite b => round (a.negative != b.negative) (a.toRat * b.toRat)
  | finite a, infinity b => if a.magnitude = 0 then nan else infinity (a.negative != b)
  | infinity a, finite b => if b.magnitude = 0 then nan else infinity (a != b.negative)
  | infinity a, infinity b => infinity (a != b)
  | _, _ => nan

/-- `/` of the format. -/
def div : Double → Double → Double
  | finite a, finite b =>
    if b.magnitude = 0 then if a.magnitude = 0 then nan else infinity (a.negative != b.negative)
    else round (a.negative != b.negative) (a.toRat / b.toRat)
  | finite a, infinity b => finite (.zero (a.negative != b))
  | infinity a, finite b => infinity (a != b.negative)
  | _, _ => nan

/-- `std::round`: the nearest integer, ties away from zero. -/
def roundAway : Double → Double
  | finite b => round b.negative (if b.negative then -⌊b.magnitude + 1 / 2⌋ else ⌊b.magnitude + 1 / 2⌋)
  | a => a

/-- The conversion to an unsigned integer of 64 bits, of a value in its range. -/
def toUInt64 : Double → UInt64
  | finite b => UInt64.ofNat ⌊b.toRat⌋.toNat
  | _ => 0

/-- **Neither negative nor NaN.** -/
def NonNeg (a : Double) : Prop := (∃ b, a = finite b ∧ 0 ≤ b.toRat) ∨ a = infinity false

/-- A number that is not negative is not rounded to a negative value. -/
theorem nonNeg_round (negative : Bool) {x : ℚ} (hx : 0 ≤ x) : NonNeg (round negative x) := by
  unfold round
  rw [decide_eq_false (not_lt.mpr hx)]
  split
  · rename_i h
    refine Or.inl ⟨_, rfl, ?_⟩
    show 0 ≤ (if false = true then -nearest |x| else nearest |x|)
    rw [if_neg Bool.false_ne_true]
    exact (representable_nearest h.1 h.2).nonneg
  · split
    · refine Or.inl ⟨_, rfl, ?_⟩
      unfold Binary64.toRat Binary64.zero
      split <;> simp
    · exact Or.inr rfl

/-- A sum of values that are not negative is not negative. -/
theorem NonNeg.add {a b : Double} (ha : NonNeg a) (hb : NonNeg b) : NonNeg (a.add b) := by
  rcases ha with ⟨x, rfl, hx⟩ | rfl
  · rcases hb with ⟨y, rfl, hy⟩ | rfl
    · exact nonNeg_round _ (add_nonneg hx hy)
    · exact Or.inr rfl
  · rcases hb with ⟨y, rfl, hy⟩ | rfl
    · exact Or.inr rfl
    · exact Or.inr rfl

/-- What is at least zero is not negative. -/
theorem nonNeg_max_zero (a : Double) : NonNeg (max (finite (.zero false)) a) := by
  have hzero : (Binary64.zero false).toRat = 0 := rfl
  unfold max
  split
  · rename_i hlt
    cases a with
    | finite b =>
      have hb : (Binary64.zero false).toRat < b.toRat := of_decide_eq_true hlt
      exact Or.inl ⟨b, rfl, by rw [← hzero]; exact hb.le⟩
    | infinity negative =>
      cases negative with
      | false => exact Or.inr rfl
      | true => cases hlt
    | nan => cases hlt
  · exact Or.inl ⟨_, rfl, hzero.ge⟩

/-- One of two finite values is finite. -/
theorem isFinite_max {a b : Double} (ha : a.isFinite = true) (hb : b.isFinite = true) :
    (max a b).isFinite = true := by
  unfold max
  split
  · exact hb
  · exact ha

end Double

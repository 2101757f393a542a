import AzooKey.Lib.BigEndian

/-!
# The secure hash standard

SHA-256 as FIPS 180-4 defines it: the functions of its section 4.1.2, the constants
of 4.2.2 and 5.3.3, the padding of 5.1.1 and the computation of 6.2.2. The constants
are not copied but computed from their definition, the first bits of the fractional
parts of roots of the first primes, and the number of zeros of the padding is the
least one that fills a block.
-/

namespace Fips180

/-! ## Functions on words -/

/-- `ROTR`. -/
def rotateRight (n : ℕ) (x : UInt32) : UInt32 := UInt32.ofBitVec (x.toBitVec.rotateRight n)

/-- `Ch`. -/
def choose (x y z : UInt32) : UInt32 := (x &&& y) ^^^ (~~~x &&& z)

/-- `Maj`. -/
def majority (x y z : UInt32) : UInt32 := (x &&& y) ^^^ (x &&& z) ^^^ (y &&& z)

/-- The first of the two functions `Σ`. -/
def bigSigma0 (x : UInt32) : UInt32 := rotateRight 2 x ^^^ rotateRight 13 x ^^^ rotateRight 22 x

/-- The second of the two functions `Σ`. -/
def bigSigma1 (x : UInt32) : UInt32 := rotateRight 6 x ^^^ rotateRight 11 x ^^^ rotateRight 25 x

/-- The first of the two functions `σ`. -/
def smallSigma0 (x : UInt32) : UInt32 := rotateRight 7 x ^^^ rotateRight 18 x ^^^ (x >>> 3)

/-- The second of the two functions `σ`. -/
def smallSigma1 (x : UInt32) : UInt32 := rotateRight 17 x ^^^ rotateRight 19 x ^^^ (x >>> 10)

/-! ## Constants -/

/-- Whether a number is prime, by trial division. -/
def isPrime (p : ℕ) : Bool :=
  decide (2 ≤ p) && (List.range p).all (fun m => decide (m < 2) || decide (p % m ≠ 0))

/-- The first 64 primes. -/
def primes : List ℕ := (List.range 312).filter isPrime

/-- The first 32 bits of the fractional part of a root. -/
def rootBits (degree p : ℕ) : UInt32 := UInt32.ofNat (Nat.nthRoot degree (p * 2 ^ (32 * degree)))

/-- The constants of the rounds, from the cube roots of the first 64 primes. -/
def roundConstants : List UInt32 := primes.map (rootBits 3)

/-- The words of the first hash value, from the square roots of the first eight
primes. -/
def initialWords : List UInt32 := (primes.take 8).map (rootBits 2)

/-! ## Padding -/

/-- Some number of zeros fills a block. -/
theorem exists_zeros (length : ℕ) : ∃ zeros, (length + 1 + zeros + 8) % 64 = 0 :=
  ⟨(64 - (length + 9) % 64) % 64, by omega⟩

/-- **The least number of zeros** that fills a block, with the mark and the length. -/
def paddingZeros (length : ℕ) : ℕ := Nat.find (exists_zeros length)

/-- **The padded message**: the message, a bit that is set, zeros, and the length in
bits. -/
def pad (message : Bytes) : Bytes :=
  message ++ 0x80 :: (List.replicate (paddingZeros message.length) 0
    ++ BigEndian.encode 8 (8 * message.length))

/-- The number of zeros, computed. -/
theorem paddingZeros_eq (length : ℕ) : paddingZeros length = (64 - (length + 9) % 64) % 64 := by
  refine (Nat.find_eq_iff _).mpr ⟨by omega, fun zeros hlt => ?_⟩
  omega

/-! ## The computation -/

/-- A hash value, and the working variables of a round. -/
structure HashValue where
  a : UInt32
  b : UInt32
  c : UInt32
  d : UInt32
  e : UInt32
  f : UInt32
  g : UInt32
  h : UInt32

/-- A word of a block, the highest octet first. -/
def wordOf (block : Bytes) (t : ℕ) : UInt32 :=
  UInt32.ofNat ((block.getD (4 * t) 0).toNat * 2 ^ 24 + (block.getD (4 * t + 1) 0).toNat * 2 ^ 16
    + (block.getD (4 * t + 2) 0).toNat * 2 ^ 8 + (block.getD (4 * t + 3) 0).toNat)

/-- **The message schedule.** -/
def schedule (block : Bytes) (t : ℕ) : UInt32 :=
  if t < 16 then wordOf block t
  else smallSigma1 (schedule block (t - 2)) + schedule block (t - 7)
    + smallSigma0 (schedule block (t - 15)) + schedule block (t - 16)

/-- **A round.** -/
def HashValue.round (v : HashValue) (constant word : UInt32) : HashValue :=
  let t₁ := v.h + bigSigma1 v.e + choose v.e v.f v.g + constant + word
  let t₂ := bigSigma0 v.a + majority v.a v.b v.c
  ⟨t₁ + t₂, v.a, v.b, v.c, v.d + t₁, v.e, v.f, v.g⟩

/-- **The hash value after one block more.** -/
def compress (v : HashValue) (block : Bytes) : HashValue :=
  let w := (List.range 64).foldl
    (fun w t => w.round (roundConstants.getD t 0) (schedule block t)) v
  ⟨w.a + v.a, w.b + v.b, w.c + v.c, w.d + v.d, w.e + v.e, w.f + v.f, w.g + v.g, w.h + v.h⟩

/-- The first hash value. -/
def initialValue : HashValue :=
  ⟨initialWords.getD 0 0, initialWords.getD 1 0, initialWords.getD 2 0, initialWords.getD 3 0,
    initialWords.getD 4 0, initialWords.getD 5 0, initialWords.getD 6 0, initialWords.getD 7 0⟩

/-- The blocks of a padded message. -/
def blocks (padded : Bytes) : List Bytes :=
  (List.range (padded.length / 64)).map (fun i => (padded.drop (64 * i)).take 64)

/-- The octets of a hash value. -/
def HashValue.bytes (v : HashValue) : Bytes :=
  [v.a, v.b, v.c, v.d, v.e, v.f, v.g, v.h].flatMap (fun word => BigEndian.encode 4 word.toNat)

/-- Blocks have one size. -/
theorem length_of_mem_blocks {padded block : Bytes} (h : block ∈ blocks padded) :
    block.length = 64 := by
  obtain ⟨i, hi, rfl⟩ := List.mem_map.mp h
  have hlt := List.mem_range.mp hi
  rw [List.length_take, List.length_drop]
  omega

/-- The blocks of a text behind whole blocks. -/
theorem blocks_append {xs : Bytes} {n : ℕ} (hxs : xs.length = 64 * n) (ys : Bytes) :
    blocks (xs ++ ys) = blocks xs ++ blocks ys := by
  have hleft : xs.length / 64 = n := by omega
  have hboth : (xs ++ ys).length / 64 = n + ys.length / 64 := by
    rw [List.length_append]
    omega
  unfold blocks
  rw [hboth, hleft, List.range_add, List.map_append, List.map_map]
  congr 1
  · refine List.map_congr_left (fun i hi => ?_)
    have hlt := List.mem_range.mp hi
    rw [List.drop_append_of_le_length (by omega), List.take_append_of_le_length]
    rw [List.length_drop]
    omega
  · refine List.map_congr_left (fun i _ => ?_)
    show ((xs ++ ys).drop (64 * (n + i))).take 64 = _
    rw [Nat.mul_add, ← hxs, ← List.drop_drop, List.drop_left]

/-- A block is its own. -/
theorem blocks_of_length {block : Bytes} (h : block.length = 64) : blocks block = [block] := by
  unfold blocks
  rw [h]
  show [(block.drop 0).take 64] = _
  rw [List.drop_zero, List.take_of_length_le (le_of_eq h)]

/-- **The digest of a message.** -/
def sha256 (message : Bytes) : Bytes :=
  ((blocks (pad message)).foldl compress initialValue).bytes

end Fips180

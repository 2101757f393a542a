import AzooKey.Lib.Bytes

/-!
# SHA-256

`Sha256` and `Sha256Hex`, as the source computes them: the whole blocks of the
data first, then one or two blocks with the rest, the mark and the length. What
the backups need of it is the form of a digest.
-/

namespace AzooKey.Learning

/-- `kRoundConstants`. -/
def roundConstants : List UInt32 :=
  [0x428a2f98, 0x71374491, 0xb5c0fbcf, 0xe9b5dba5, 0x3956c25b, 0x59f111f1, 0x923f82a4, 0xab1c5ed5,
    0xd807aa98, 0x12835b01, 0x243185be, 0x550c7dc3, 0x72be5d74, 0x80deb1fe, 0x9bdc06a7, 0xc19bf174,
    0xe49b69c1, 0xefbe4786, 0x0fc19dc6, 0x240ca1cc, 0x2de92c6f, 0x4a7484aa, 0x5cb0a9dc, 0x76f988da,
    0x983e5152, 0xa831c66d, 0xb00327c8, 0xbf597fc7, 0xc6e00bf3, 0xd5a79147, 0x06ca6351, 0x14292967,
    0x27b70a85, 0x2e1b2138, 0x4d2c6dfc, 0x53380d13, 0x650a7354, 0x766a0abb, 0x81c2c92e, 0x92722c85,
    0xa2bfe8a1, 0xa81a664b, 0xc24b8b70, 0xc76c51a3, 0xd192e819, 0xd6990624, 0xf40e3585, 0x106aa070,
    0x19a4c116, 0x1e376c08, 0x2748774c, 0x34b0bcb5, 0x391c0cb3, 0x4ed8aa4a, 0x5b9cca4f, 0x682e6ff3,
    0x748f82ee, 0x78a5636f, 0x84c87814, 0x8cc70208, 0x90befffa, 0xa4506ceb, 0xbef9a3f7, 0xc67178f2]

/-- `std::rotr`. -/
def rotr (x : UInt32) (n : UInt32) : UInt32 := (x >>> n) ||| (x <<< (32 - n))

/-- The state between two blocks, and the variables of a round. -/
structure Registers where
  a : UInt32
  b : UInt32
  c : UInt32
  d : UInt32
  e : UInt32
  f : UInt32
  g : UInt32
  h : UInt32

/-- A word of a block, the highest byte first. -/
def blockWord (block : Bytes) (i : ℕ) : UInt32 :=
  (((block.drop (4 * i)).take 4).foldl (fun w byte => (w <<< 8) ||| byte.toUInt32) 0)

/-- The 64 words that the rounds of a block use. -/
def schedule (block : Bytes) : List UInt32 :=
  (List.range 48).foldl (fun w _ =>
    let i := w.length
    let x := w.getD (i - 15) 0
    let y := w.getD (i - 2) 0
    let s0 := rotr x 7 ^^^ rotr x 18 ^^^ (x >>> 3)
    let s1 := rotr y 17 ^^^ rotr y 19 ^^^ (y >>> 10)
    w ++ [w.getD (i - 16) 0 + s0 + w.getD (i - 7) 0 + s1])
    ((List.range 16).map (blockWord block))

/-- One round. -/
def Registers.round (r : Registers) (k w : UInt32) : Registers :=
  let s1 := rotr r.e 6 ^^^ rotr r.e 11 ^^^ rotr r.e 25
  let ch := (r.e &&& r.f) ^^^ (~~~r.e &&& r.g)
  let t1 := r.h + s1 + ch + k + w
  let s0 := rotr r.a 2 ^^^ rotr r.a 13 ^^^ rotr r.a 22
  let maj := (r.a &&& r.b) ^^^ (r.a &&& r.c) ^^^ (r.b &&& r.c)
  ⟨t1 + (s0 + maj), r.a, r.b, r.c, r.d + t1, r.e, r.f, r.g⟩

/-- `CompressBlock`. -/
def compressBlock (state : Registers) (block : Bytes) : Registers :=
  let r := (roundConstants.zip (schedule block)).foldl (fun r kw => r.round kw.1 kw.2) state
  ⟨state.a + r.a, state.b + r.b, state.c + r.c, state.d + r.d, state.e + r.e, state.f + r.f,
    state.g + r.g, state.h + r.h⟩

/-- A word in bytes, the highest first. -/
def wordBytes (w : UInt32) : Bytes :=
  [(w >>> 24).toUInt8, (w >>> 16).toUInt8, (w >>> 8).toUInt8, w.toUInt8]

/-- The state before the first block. -/
def initialRegisters : Registers :=
  ⟨0x6a09e667, 0xbb67ae85, 0x3c6ef372, 0xa54ff53a, 0x510e527f, 0x9b05688c, 0x1f83d9ab, 0x5be0cd19⟩

/-- The last block or the last two: what is left of the data, the mark, zeros
and the number of bits. -/
def sha256Tail (size : ℕ) (remaining : Bytes) : Bytes :=
  let tailSize := if remaining.length < 56 then 64 else 128
  remaining ++ (0x80 :: (List.replicate (tailSize - 9 - remaining.length) 0
    ++ (List.range 8).map (fun i => UInt8.ofNat (size * 8 / 256 ^ (7 - i)))))

/-- **`Sha256`.** -/
def sha256 (data : Bytes) : Bytes :=
  let fullBlocks := data.length / 64
  let state := (List.range fullBlocks).foldl
    (fun state i => compressBlock state ((data.drop (64 * i)).take 64)) initialRegisters
  let tail := sha256Tail data.length (data.drop (64 * fullBlocks))
  let state := compressBlock state (tail.take 64)
  let state := if tail.length = 128 then compressBlock state (tail.drop 64) else state
  [state.a, state.b, state.c, state.d, state.e, state.f, state.g, state.h].flatMap wordBytes

/-- A character of `kHexDigits`. -/
def hexDigit (n : ℕ) : UInt8 := UInt8.ofNat (if n < 10 then 0x30 + n else 0x61 + (n - 10))

/-- **`Sha256Hex`.** -/
def sha256Hex (data : Bytes) : Bytes :=
  (sha256 data).flatMap (fun byte => [hexDigit (byte.toNat / 16), hexDigit (byte.toNat % 16)])

/-- The digest of the first test of the standard. -/
example : sha256Hex (utf8 "abc")
    = utf8 "ba7816bf8f01cfea414140de5dae2223b00361a396177a9cb410ff61f20015ad" := by decide +kernel

/-- A digest has 32 bytes. -/
theorem length_sha256 (data : Bytes) : (sha256 data).length = 32 := by
  unfold sha256
  simp only [List.flatMap_cons, List.flatMap_nil, List.length_append, List.length_nil, wordBytes,
    List.length_cons]

/-- `IsLowerHexSha256`. -/
def isLowerHexSha256 (text : Bytes) : Bool :=
  text.length = 64
    && text.all (fun ch => (0x30 ≤ ch && ch ≤ 0x39) || (0x61 ≤ ch && ch ≤ 0x66))

/-- A digit is a lower-case digit. -/
theorem hexDigit_lower {n : ℕ} (h : n < 16) :
    ((0x30 ≤ hexDigit n && hexDigit n ≤ 0x39) || (0x61 ≤ hexDigit n && hexDigit n ≤ 0x66)) = true := by
  have hall : ∀ n : Fin 16, ((0x30 ≤ hexDigit n && hexDigit n ≤ 0x39)
      || (0x61 ≤ hexDigit n && hexDigit n ≤ 0x66)) = true := by decide
  exact hall ⟨n, h⟩

/-- **A digest is written as the readers expect one.** -/
theorem isLowerHexSha256_sha256Hex (data : Bytes) : isLowerHexSha256 (sha256Hex data) = true := by
  have hlength : (sha256Hex data).length = 64 := by
    unfold sha256Hex
    rw [List.length_flatMap]
    simp only [List.length_cons, List.length_nil, List.map_const', length_sha256,
      List.sum_replicate, smul_eq_mul]
  unfold isLowerHexSha256
  rw [hlength, Bool.and_eq_true]
  refine ⟨rfl, List.all_eq_true.mpr (fun ch hch => ?_)⟩
  unfold sha256Hex at hch
  obtain ⟨byte, -, hbyte⟩ := List.mem_flatMap.mp hch
  have hlt := byte.toNat_lt
  simp only [List.mem_cons, List.not_mem_nil, or_false] at hbyte
  rcases hbyte with rfl | rfl
  · exact hexDigit_lower (by omega)
  · exact hexDigit_lower (Nat.mod_lt _ (by norm_num))

end AzooKey.Learning

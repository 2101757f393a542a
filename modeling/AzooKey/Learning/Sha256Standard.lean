import AzooKey.Learning.Sha256
import AzooKey.Lib.CheckedMemory
import AzooKey.Lib.Fips180

/-!
# The digest is the one of the standard

`CompressBlock` and `Sha256` once more, here with every read of the data, of the
tail and of the words of a block checked (`compressBlockAt`, `sha256At`). Three steps
lead to the standard: the checked computation always has a result and it is `sha256`
(`sha256At_eq`); a block is compressed as the standard does it
(`toHashValue_compressBlock`); and the full blocks with the tail are the blocks of the
padded message (`blocks_pad`).
-/

namespace AzooKey.Learning

open CheckedMemory

/-! ## The computation with its accesses -/

/-- A word of a block in memory. -/
def loadWord (memory : Bytes) (i : ℕ) : Option UInt32 := do
  let b0 ← memory[i]?
  let b1 ← memory[i + 1]?
  let b2 ← memory[i + 2]?
  let b3 ← memory[i + 3]?
  return (b0.toUInt32 <<< 24) ||| (b1.toUInt32 <<< 16) ||| (b2.toUInt32 <<< 8) ||| b3.toUInt32

/-- The first loop of `CompressBlock`: the words of the block. -/
def loadWords (memory : Bytes) (offset : ℕ) : Option (List UInt32) :=
  (List.range 16).foldlM
    (fun w i => do store w i (← loadWord memory (offset + i * 4))) (List.replicate 64 0)

/-- A turn of the second loop: a word that follows from those before it. -/
def extendWord (w : List UInt32) (i : ℕ) : Option (List UInt32) := do
  let x ← w[i - 15]?
  let s0 := rotr x 7 ^^^ rotr x 18 ^^^ (x >>> 3)
  let y ← w[i - 2]?
  let s1 := rotr y 17 ^^^ rotr y 19 ^^^ (y >>> 10)
  store w i ((← w[i - 16]?) + s0 + (← w[i - 7]?) + s1)

/-- The second loop. -/
def extendWords (w : List UInt32) : Option (List UInt32) := (List.range' 16 48).foldlM extendWord w

/-- A turn of the third loop: a round. -/
def runRound (w : List UInt32) (r : Registers) (i : ℕ) : Option Registers := do
  return r.round (← roundConstants[i]?) (← w[i]?)

/-- The third loop. -/
def runRounds (w : List UInt32) (state : Registers) : Option Registers :=
  (List.range 64).foldlM (runRound w) state

/-- `CompressBlock`, at an offset into the data or into the tail. -/
def compressBlockAt (state : Registers) (memory : Bytes) (offset : ℕ) : Option Registers := do
  let r ← runRounds (← extendWords (← loadWords memory offset)) state
  return ⟨state.a + r.a, state.b + r.b, state.c + r.c, state.d + r.d, state.e + r.e, state.f + r.f,
    state.g + r.g, state.h + r.h⟩

/-- The tail: 128 bytes, of which one block or both are used. -/
def buildTail (data : Bytes) (remaining : ℕ) : Option Bytes := do
  let fullBlocks := data.length / 64
  let tail ← (List.range remaining).foldlM
    (fun tail i => do store tail i (← data[fullBlocks * 64 + i]?)) (List.replicate 128 0)
  let tail ← store tail remaining 0x80
  let tailSize := if remaining < 56 then 64 else 128
  let bitLength := UInt64.ofNat data.length * 8
  (List.range 8).foldlM
    (fun tail i => store tail (tailSize - 1 - i) (bitLength >>> UInt64.ofNat (i * 8)).toUInt8) tail

/-- **`Sha256`**, with its accesses. -/
def sha256At (data : Bytes) : Option Bytes := do
  let fullBlocks := data.length / 64
  let state ← (List.range fullBlocks).foldlM
    (fun state i => compressBlockAt state data (i * 64)) initialRegisters
  let remaining := data.length - fullBlocks * 64
  let tail ← buildTail data remaining
  let state ← compressBlockAt state tail 0
  let state ← if remaining < 56 then some state else compressBlockAt state tail 64
  return [state.a, state.b, state.c, state.d, state.e, state.f, state.g, state.h].flatMap wordBytes

/-! ## Words -/

/-- A byte is put behind a word that leaves room for it. -/
theorem toNat_shiftLeft_or {w : UInt32} (hw : w.toNat < 2 ^ 24) (byte : UInt8) :
    ((w <<< 8) ||| byte.toUInt32).toNat = w.toNat * 2 ^ 8 + byte.toNat := by
  have hbyte := byte.toNat_lt
  rw [UInt32.toNat_or, UInt32.toNat_shiftLeft, UInt8.toNat_toUInt32,
    show (8 : UInt32).toNat % 32 = 8 from rfl, Nat.mod_eq_of_lt (by rw [Nat.shiftLeft_eq]; omega),
    ← Nat.shiftLeft_add_eq_or_of_lt (by omega), Nat.shiftLeft_eq]

/-- Four bytes shifted to their places are the bytes put one behind the other. -/
theorem or_shiftLeft_bytes (b0 b1 b2 b3 : UInt8) :
    (b0.toUInt32 <<< 24) ||| (b1.toUInt32 <<< 16) ||| (b2.toUInt32 <<< 8) ||| b3.toUInt32
      = [b0, b1, b2, b3].foldl (fun (w : UInt32) byte => (w <<< 8) ||| byte.toUInt32) 0 := by
  have hshift : ∀ x : UInt32, (x <<< 8) <<< 8 = x <<< 16 ∧ (x <<< 16) <<< 8 = x <<< 24 := fun x =>
    ⟨(UInt32.shiftLeft_add (by decide) (by decide) (by decide)).symm,
      (UInt32.shiftLeft_add (by decide) (by decide) (by decide)).symm⟩
  simp only [List.foldl_cons, List.foldl_nil, UInt32.zero_shiftLeft, UInt32.zero_or,
    UInt32.shiftLeft_or, (hshift _).1, (hshift _).2]

/-- A word of a block is the number its four bytes write. -/
theorem toNat_foldl_bytes (b0 b1 b2 b3 : UInt8) :
    ([b0, b1, b2, b3].foldl (fun (w : UInt32) byte => (w <<< 8) ||| byte.toUInt32) 0).toNat
      = b0.toNat * 2 ^ 24 + b1.toNat * 2 ^ 16 + b2.toNat * 2 ^ 8 + b3.toNat := by
  have h0 := b0.toNat_lt
  have h1 := b1.toNat_lt
  have h2 := b2.toNat_lt
  have hfirst := toNat_shiftLeft_or (w := 0) (by decide) b0
  rw [UInt32.toNat_zero, Nat.zero_mul, Nat.zero_add] at hfirst
  have hsecond := toNat_shiftLeft_or (by rw [hfirst]; omega) b1
  have hthird := toNat_shiftLeft_or (by rw [hsecond, hfirst]; omega) b2
  simp only [List.foldl_cons, List.foldl_nil]
  rw [toNat_shiftLeft_or (by rw [hthird, hsecond, hfirst]; omega) b3, hthird, hsecond, hfirst]
  ring

/-- The four bytes of a word. -/
theorem take_four {block : Bytes} {i : ℕ} (hi : 4 * i + 4 ≤ block.length) :
    (block.drop (4 * i)).take 4 = [block.getD (4 * i) 0, block.getD (4 * i + 1) 0,
      block.getD (4 * i + 2) 0, block.getD (4 * i + 3) 0] := by
  have hcons : ∀ j < block.length, block.drop j = block.getD j 0 :: block.drop (j + 1) := by
    intro j hj
    rw [List.getD_eq_getElem _ _ hj, List.drop_eq_getElem_cons hj]
  rw [hcons _ (by omega), hcons _ (by omega), hcons _ (by omega), hcons _ (by omega)]
  rfl

/-- A block of memory, byte by byte. -/
def BlockAt (memory : Bytes) (offset : ℕ) (block : Bytes) : Prop :=
  block.length = 64 ∧ ∀ j < 64, memory[offset + j]? = block[j]?

/-- A block that lies inside the memory. -/
theorem blockAt_take {memory : Bytes} {offset : ℕ} (h : offset + 64 ≤ memory.length) :
    BlockAt memory offset ((memory.drop offset).take 64) := by
  refine ⟨by rw [List.length_take, List.length_drop]; omega, fun j hj => ?_⟩
  rw [List.getElem?_take_of_lt hj, List.getElem?_drop]

/-- A word of a block that lies in memory. -/
theorem loadWord_eq_some {memory block : Bytes} {offset : ℕ} (h : BlockAt memory offset block)
    {i : ℕ} (hi : i < 16) : loadWord memory (offset + i * 4) = some (blockWord block i) := by
  have hlength := h.1
  have hget : ∀ j < 4, memory[offset + i * 4 + j]? = some (block.getD (4 * i + j) 0) := by
    intro j hj
    have hlt : 4 * i + j < block.length := by omega
    rw [Nat.add_assoc, Nat.mul_comm i 4, h.2 _ (by omega), List.getD_eq_getElem _ _ hlt,
      List.getElem?_eq_getElem hlt]
  have h0 := hget 0 (by omega)
  rw [Nat.add_zero, Nat.add_zero] at h0
  simp only [loadWord, h0, hget 1 (by omega), hget 2 (by omega), hget 3 (by omega),
    Option.bind_eq_bind, Option.bind_some, Option.pure_def]
  rw [or_shiftLeft_bytes, blockWord, take_four (by omega)]

/-- The words of the standard are those of the source. -/
theorem wordOf_eq {block : Bytes} {t : ℕ} (ht : 4 * t + 4 ≤ block.length) :
    Fips180.wordOf block t = blockWord block t := by
  rw [Fips180.wordOf, ← toNat_foldl_bytes, UInt32.ofNat_toNat, blockWord, take_four ht]

/-! ## The words of a block -/

/-- A word more, from the ones before it. -/
def nextWord (w : List UInt32) : UInt32 :=
  let i := w.length
  let x := w.getD (i - 15) 0
  let y := w.getD (i - 2) 0
  let s0 := rotr x 7 ^^^ rotr x 18 ^^^ (x >>> 3)
  let s1 := rotr y 17 ^^^ rotr y 19 ^^^ (y >>> 10)
  w.getD (i - 16) 0 + s0 + w.getD (i - 7) 0 + s1

/-- The first words of a block and some that follow. -/
def scheduleUpTo (block : Bytes) (n : ℕ) : List UInt32 :=
  (List.range n).foldl (fun w _ => w ++ [nextWord w]) ((List.range 16).map (blockWord block))

/-- All the words. -/
theorem schedule_eq (block : Bytes) : schedule block = scheduleUpTo block 48 := rfl

/-- One word more. -/
theorem scheduleUpTo_succ (block : Bytes) (n : ℕ) :
    scheduleUpTo block (n + 1) = scheduleUpTo block n ++ [nextWord (scheduleUpTo block n)] := by
  unfold scheduleUpTo
  rw [List.range_succ (n := n), List.foldl_append]
  rfl

/-- The number of words. -/
theorem length_scheduleUpTo (block : Bytes) (n : ℕ) : (scheduleUpTo block n).length = 16 + n := by
  induction n with
  | zero => rw [scheduleUpTo, List.range_zero, List.foldl_nil, List.length_map, List.length_range]
  | succ n ih => rw [scheduleUpTo_succ, List.length_append, ih]; rfl

/-- **The words of a block are those of the standard.** -/
theorem scheduleUpTo_eq_map {block : Bytes} (h : block.length = 64) (n : ℕ) :
    scheduleUpTo block n = (List.range (16 + n)).map (Fips180.schedule block) := by
  induction n with
  | zero =>
    rw [scheduleUpTo, List.range_zero, List.foldl_nil]
    refine List.map_congr_left (fun t ht => ?_)
    have hlt := List.mem_range.mp ht
    rw [Fips180.schedule, if_pos hlt, wordOf_eq (by omega)]
  | succ n ih =>
    have hget : ∀ t < 16 + n, (scheduleUpTo block n).getD t 0 = Fips180.schedule block t := by
      intro t ht
      rw [ih, List.getD_eq_getElem _ _ (by rwa [List.length_map, List.length_range]),
        List.getElem_map, List.getElem_range]
    have hnext : nextWord (scheduleUpTo block n) = Fips180.schedule block (16 + n) := by
      rw [Fips180.schedule, if_neg (by omega), nextWord, length_scheduleUpTo]
      simp only [hget _ (show 16 + n - 15 < 16 + n by omega),
        hget _ (show 16 + n - 2 < 16 + n by omega), hget _ (show 16 + n - 16 < 16 + n by omega),
        hget _ (show 16 + n - 7 < 16 + n by omega)]
      show _ + Fips180.smallSigma0 _ + _ + Fips180.smallSigma1 _ = _
      ac_rfl
    rw [scheduleUpTo_succ, hnext, ih, ← Nat.add_assoc, List.range_succ, List.map_append]
    rfl

/-- The first loop writes the words of the block. -/
theorem loadWords_eq_some {memory block : Bytes} {offset : ℕ} (h : BlockAt memory offset block) :
    loadWords memory offset = some (scheduleUpTo block 0 ++ List.replicate 48 0) := by
  refine foldlM_range_eq_some
    (fun i => (List.range i).map (blockWord block) ++ List.replicate (64 - i) 0) (fun i hi => ?_)
  rw [loadWord_eq_some h hi]
  show store _ i (blockWord block i) = _
  have hstore := store_append_replicate ((List.range i).map (blockWord block)) 0
    (blockWord block i) (by rw [List.length_map, List.length_range]) (show 0 < 64 - i by omega) []
  rw [List.append_nil, List.append_nil] at hstore
  rw [hstore, List.range_succ, List.map_append]
  rfl

/-- A turn of the second loop writes one word more. -/
theorem extendWord_eq_some (block : Bytes) {n : ℕ} (hn : n < 48) :
    extendWord (scheduleUpTo block n ++ List.replicate (48 - n) 0) (16 + n)
      = some (scheduleUpTo block (n + 1) ++ List.replicate (48 - (n + 1)) 0) := by
  have hlength := length_scheduleUpTo block n
  have hget : ∀ t < 16 + n, (scheduleUpTo block n ++ List.replicate (48 - n) 0)[t]?
      = some ((scheduleUpTo block n).getD t 0) := by
    intro t ht
    rw [List.getElem?_append_left (hlength ▸ ht), List.getElem?_eq_getElem (hlength ▸ ht),
      List.getD_eq_getElem _ _ (hlength ▸ ht)]
  have hstore := store_append_replicate (scheduleUpTo block n) 0 (nextWord (scheduleUpTo block n))
    hlength.symm (show 0 < 48 - n by omega) []
  rw [List.append_nil, List.append_nil] at hstore
  simp only [extendWord, hget _ (show 16 + n - 15 < 16 + n by omega),
    hget _ (show 16 + n - 2 < 16 + n by omega), hget _ (show 16 + n - 16 < 16 + n by omega),
    hget _ (show 16 + n - 7 < 16 + n by omega), Option.bind_eq_bind, Option.bind_some]
  rw [scheduleUpTo_succ, ← Nat.sub_sub, ← hstore]
  unfold nextWord
  rw [hlength]

/-- The second loop writes the words that follow. -/
theorem extendWords_eq_some (block : Bytes) :
    extendWords (scheduleUpTo block 0 ++ List.replicate 48 0) = some (schedule block) := by
  have hloop : (List.range' 16 48).foldlM extendWord (scheduleUpTo block 0 ++ List.replicate 48 0)
      = some (scheduleUpTo block 48 ++ List.replicate 0 0) :=
    foldlM_range'_eq_some (fun n => scheduleUpTo block n ++ List.replicate (48 - n) 0)
      (fun n hn => extendWord_eq_some block hn)
  rw [extendWords, hloop, List.replicate_zero, List.append_nil, schedule_eq]

/-! ## A block -/

/-- The number of words of a block. -/
theorem length_schedule (block : Bytes) : (schedule block).length = 64 := length_scheduleUpTo block 48

/-- The rounds of a block, in the order of the constants and the words. -/
theorem runRounds_eq_some (block : Bytes) (state : Registers) :
    runRounds (schedule block) state
      = some ((roundConstants.zip (schedule block)).foldl (fun r kw => r.round kw.1 kw.2) state) := by
  rw [runRounds]
  exact foldlM_getElem?_zip Registers.round (show roundConstants.length = 64 from rfl)
    (length_schedule block) state

/-- **A block inside the memory is compressed**, and nothing outside of it is read. -/
theorem compressBlockAt_eq_some {memory block : Bytes} {offset : ℕ}
    (h : BlockAt memory offset block) (state : Registers) :
    compressBlockAt state memory offset = some (compressBlock state block) := by
  rw [compressBlockAt, loadWords_eq_some h]
  simp only [Option.bind_eq_bind, Option.bind_some, extendWords_eq_some, runRounds_eq_some]
  rfl

/-- The variables of a round, as the standard has them. -/
def Registers.toHashValue (r : Registers) : Fips180.HashValue :=
  ⟨r.a, r.b, r.c, r.d, r.e, r.f, r.g, r.h⟩

/-- **The constants** are those that the standard defines. -/
theorem constants_eq : Fips180.roundConstants = roundConstants
    ∧ Fips180.initialWords = [0x6a09e667, 0xbb67ae85, 0x3c6ef372, 0xa54ff53a, 0x510e527f,
      0x9b05688c, 0x1f83d9ab, 0x5be0cd19] := by decide +kernel

/-- The first value is the one of the standard. -/
theorem toHashValue_initialRegisters : initialRegisters.toHashValue = Fips180.initialValue := by
  rw [Fips180.initialValue, constants_eq.2]
  rfl

/-- A round is one of the standard. -/
theorem toHashValue_round (r : Registers) (k w : UInt32) :
    (r.round k w).toHashValue = r.toHashValue.round k w := rfl

/-- **A block is compressed as in the standard.** -/
theorem toHashValue_compressBlock (state : Registers) {block : Bytes} (h : block.length = 64) :
    (compressBlock state block).toHashValue = Fips180.compress state.toHashValue block := by
  have hzip : roundConstants.zip (schedule block)
      = (List.range 64).map (fun t => (roundConstants.getD t 0, Fips180.schedule block t)) := by
    rw [schedule_eq, scheduleUpTo_eq_map h, ← List.zip_map']
    rfl
  have hrounds : ((roundConstants.zip (schedule block)).foldl (fun r kw => r.round kw.1 kw.2)
      state).toHashValue = (List.range 64).foldl
        (fun w t => w.round (Fips180.roundConstants.getD t 0) (Fips180.schedule block t))
        state.toHashValue := by
    rw [hzip, List.foldl_map, constants_eq.1]
    induction List.range 64 generalizing state with
    | nil => rfl
    | cons t ts ih => rw [List.foldl_cons, List.foldl_cons, ih, toHashValue_round]
  rw [Fips180.compress, ← hrounds]
  simp only [compressBlock, Registers.toHashValue, UInt32.add_comm]

/-- The bytes of a word. -/
theorem encode_toNat (w : UInt32) : BigEndian.encode 4 w.toNat = wordBytes w := by
  have hbyte : ∀ s : ℕ, ∀ x : UInt32, x.toNat = w.toNat / 256 ^ s →
      UInt8.ofNat (w.toNat / 256 ^ s) = x.toUInt8 := by
    intro s x hx
    refine UInt8.toNat.inj ?_
    rw [UInt8.toNat_ofNat', UInt32.toNat_toUInt8, hx]
  rw [BigEndian.encode, BigEndian.encode, BigEndian.encode, BigEndian.encode, BigEndian.encode,
    hbyte 3 (w >>> 24) (by rw [UInt32.toNat_shiftRight, Nat.shiftRight_eq_div_pow]; rfl),
    hbyte 2 (w >>> 16) (by rw [UInt32.toNat_shiftRight, Nat.shiftRight_eq_div_pow]; rfl),
    hbyte 1 (w >>> 8) (by rw [UInt32.toNat_shiftRight, Nat.shiftRight_eq_div_pow]; rfl),
    hbyte 0 w (by rw [pow_zero, Nat.div_one])]
  rfl

/-- The bytes of a value. -/
theorem bytes_toHashValue (r : Registers) : r.toHashValue.bytes
    = [r.a, r.b, r.c, r.d, r.e, r.f, r.g, r.h].flatMap wordBytes := by
  unfold Fips180.HashValue.bytes
  simp only [encode_toNat]
  rfl

/-! ## The tail -/

/-- Data and what the standard puts behind it. -/
theorem pad_eq (data : Bytes) : Fips180.pad data
    = data.take (64 * (data.length / 64))
      ++ sha256Tail data.length (data.drop (64 * (data.length / 64))) := by
  have hlength : (data.drop (64 * (data.length / 64))).length
      = data.length - 64 * (data.length / 64) := List.length_drop
  have hzeros : (if (data.drop (64 * (data.length / 64))).length < 56 then 64 else 128) - 9
      - (data.drop (64 * (data.length / 64))).length = Fips180.paddingZeros data.length := by
    rw [Fips180.paddingZeros_eq, hlength]
    split <;> omega
  have hbits : (List.range 8).map (fun i => UInt8.ofNat (data.length * 8 / 256 ^ (7 - i)))
      = BigEndian.encode 8 (8 * data.length) := by
    rw [Nat.mul_comm]
    rfl
  rw [Fips180.pad, sha256Tail, hzeros, hbits, ← List.append_assoc, List.take_append_drop]

/-- The tail is one block or two. -/
theorem length_sha256Tail (size : ℕ) {remaining : Bytes} (h : remaining.length < 64) :
    (sha256Tail size remaining).length = if remaining.length < 56 then 64 else 128 := by
  rw [sha256Tail, List.length_append, List.length_cons, List.length_append, List.length_replicate,
    List.length_map, List.length_range]
  split <;> omega

/-- A byte of the length, from the 64 bits that hold it. -/
theorem toUInt8_bitLength (n : ℕ) {i : ℕ} (hi : i < 8) :
    ((UInt64.ofNat n * 8) >>> UInt64.ofNat (i * 8)).toUInt8 = UInt8.ofNat (8 * n / 256 ^ i) := by
  refine UInt8.toNat.inj ?_
  rw [UInt64.toNat_toUInt8, UInt64.toNat_shiftRight, UInt64.toNat_mul, UInt64.toNat_ofNat',
    UInt64.toNat_ofNat', UInt8.toNat_ofNat', Nat.shiftRight_eq_div_pow]
  have height : (8 : UInt64).toNat = 8 := rfl
  rw [height]
  interval_cases i <;> norm_num <;> omega

/-- The first loop of the tail copies what is left of the data. -/
theorem copyRest_eq_some (data : Bytes) {rest : Bytes} {start : ℕ} (h : data.drop start = rest)
    (hrest : rest.length < 64) :
    (List.range rest.length).foldlM
      (fun tail i => do CheckedMemory.store tail i (← data[start + i]?)) (List.replicate 128 0)
      = some (rest ++ List.replicate (128 - rest.length) 0) := by
  have hloop : (List.range rest.length).foldlM
      (fun tail i => do CheckedMemory.store tail i (← data[start + i]?)) (List.replicate 128 0)
      = some (rest.take rest.length ++ List.replicate (128 - rest.length) 0) := by
    refine foldlM_range_eq_some (fun i => rest.take i ++ List.replicate (128 - i) 0)
      (fun i hi => ?_)
    have hstore := store_append_replicate (i := i) (rest.take i) (0 : UInt8) rest[i]
      (by rw [List.length_take]; omega) (show 0 < 128 - i by omega) []
    rw [List.append_nil, List.append_nil] at hstore
    rw [← List.getElem?_drop, h, List.getElem?_eq_getElem hi, List.take_succ_eq_append_getElem hi,
      ← Nat.sub_sub, ← hstore]
    rfl
  rw [hloop, List.take_length]

/-- The second loop of the tail writes the length, from its end. -/
theorem writeLength_eq_some (front back : Bytes) (n : ℕ) :
    (List.range 8).foldlM (fun tail i => CheckedMemory.store tail (front.length + 8 - 1 - i)
        ((UInt64.ofNat n * 8) >>> UInt64.ofNat (i * 8)).toUInt8)
      (front ++ (List.replicate 8 0 ++ back))
      = some (front ++ (BigEndian.encode 8 (8 * n) ++ back)) := by
  refine foldlM_range_eq_some (fun i => front ++ (List.replicate (8 - i) 0
    ++ (BigEndian.encode i (8 * n) ++ back))) (fun i hi => ?_)
  obtain ⟨m, hm⟩ : ∃ m, 8 - i = m + 1 := ⟨7 - i, by omega⟩
  have hplace : (front ++ List.replicate m (0 : UInt8)).length = front.length + 8 - 1 - i := by
    rw [List.length_append, List.length_replicate]
    omega
  have hstore := store_append (front ++ List.replicate m 0) 0 (UInt8.ofNat (8 * n / 256 ^ i))
    (BigEndian.encode i (8 * n) ++ back)
  rw [hplace] at hstore
  rw [toUInt8_bitLength n hi, hm, List.replicate_succ', show 8 - (i + 1) = m by omega,
    List.append_assoc, ← List.append_assoc front, List.singleton_append, hstore, BigEndian.encode]
  simp only [List.append_assoc, List.cons_append]

/-- **The tail is built inside its 128 bytes**, and its blocks in use are those of the
padding. -/
theorem buildTail_eq_some (data : Bytes) {rest : Bytes}
    (h : data.drop (data.length / 64 * 64) = rest) (hrest : rest.length < 64) :
    buildTail data rest.length
      = some (sha256Tail data.length rest
          ++ List.replicate (if rest.length < 56 then 64 else 0) 0) := by
  -- what stands before the length and behind it
  obtain ⟨tailSize, htailSize⟩ : ∃ n, n = if rest.length < 56 then 64 else 128 := ⟨_, rfl⟩
  have hsizes : rest.length + 9 ≤ tailSize ∧ tailSize ≤ 128
      ∧ (if rest.length < 56 then 64 else 0) = 128 - tailSize := by
    rw [htailSize]
    split <;> omega
  let front := rest ++ 0x80 :: List.replicate (tailSize - 9 - rest.length) (0 : UInt8)
  have hfront : front.length + 8 = tailSize := by
    rw [List.length_append, List.length_cons, List.length_replicate]
    omega
  have hmark := store_append_replicate (i := rest.length) rest (0 : UInt8) 0x80 rfl
    (show 0 < 128 - rest.length by omega) []
  rw [List.append_nil, List.append_nil] at hmark
  have hzeros : rest ++ [0x80] ++ List.replicate (128 - rest.length - 1) 0
      = front ++ (List.replicate 8 0 ++ List.replicate (128 - tailSize) 0) := by
    show _ = rest ++ 0x80 :: List.replicate (tailSize - 9 - rest.length) 0 ++ _
    rw [List.append_assoc, List.append_assoc, List.singleton_append, List.cons_append,
      List.replicate_append_replicate, List.replicate_append_replicate]
    congr 3
    omega
  have hlength := writeLength_eq_some front (List.replicate (128 - tailSize) 0) data.length
  rw [hfront] at hlength
  have hbits : (List.range 8).map (fun i => UInt8.ofNat (data.length * 8 / 256 ^ (7 - i)))
      = BigEndian.encode 8 (8 * data.length) := by
    rw [Nat.mul_comm]
    rfl
  unfold buildTail
  dsimp only
  rw [copyRest_eq_some data h hrest]
  simp only [Option.bind_eq_bind, Option.bind_some, hmark, hzeros, ← htailSize, hlength]
  rw [sha256Tail, hbits, ← htailSize, hsizes.2.2]
  simp only [front, List.append_assoc, List.cons_append]

/-! ## The digest -/

/-- The whole blocks of the data. -/
theorem blocks_take (data : Bytes) : Fips180.blocks (data.take (64 * (data.length / 64)))
    = (List.range (data.length / 64)).map (fun i => (data.drop (64 * i)).take 64) := by
  have hlength : (data.take (64 * (data.length / 64))).length / 64 = data.length / 64 := by
    rw [List.length_take]
    omega
  unfold Fips180.blocks
  rw [hlength]
  refine List.map_congr_left (fun i hi => ?_)
  have hlt := List.mem_range.mp hi
  rw [List.drop_take, List.take_take]
  congr 1
  omega

/-- **The blocks of the padded message** are the whole blocks of the data and those of
the tail. -/
theorem blocks_pad (data : Bytes) : Fips180.blocks (Fips180.pad data)
    = (List.range (data.length / 64)).map (fun i => (data.drop (64 * i)).take 64)
      ++ Fips180.blocks (sha256Tail data.length (data.drop (64 * (data.length / 64)))) := by
  rw [pad_eq, Fips180.blocks_append (n := data.length / 64), blocks_take]
  rw [List.length_take]
  omega

/-- The blocks of the tail. -/
theorem blocks_tail {tail : Bytes} (h : tail.length = 64 ∨ tail.length = 128) :
    Fips180.blocks tail
      = tail.take 64 :: if tail.length = 128 then [tail.drop 64] else [] := by
  by_cases htwo : tail.length = 128
  · have hfirst : (tail.take 64).length = 64 := by rw [List.length_take, htwo]; rfl
    have hsecond : (tail.drop 64).length = 64 := by rw [List.length_drop, htwo]
    rw [if_pos htwo]
    conv_lhs => rw [← List.take_append_drop 64 tail, Fips180.blocks_append (n := 1) hfirst,
      Fips180.blocks_of_length hfirst, Fips180.blocks_of_length hsecond]
    rfl
  · have hone : tail.length = 64 := h.resolve_right htwo
    rw [if_neg htwo, Fips180.blocks_of_length hone, List.take_of_length_le (le_of_eq hone)]

/-- The registers in bytes. -/
def Registers.bytes (r : Registers) : Bytes :=
  [r.a, r.b, r.c, r.d, r.e, r.f, r.g, r.h].flatMap wordBytes

/-- **`Sha256` compresses the blocks of the padded message.** -/
theorem sha256_eq_foldl (data : Bytes) : sha256 data
    = ((Fips180.blocks (Fips180.pad data)).foldl compressBlock initialRegisters).bytes := by
  have hrest : (data.drop (64 * (data.length / 64))).length < 64 := by
    rw [List.length_drop]
    omega
  have htail := length_sha256Tail data.length hrest
  have hcases : (sha256Tail data.length (data.drop (64 * (data.length / 64)))).length = 64
      ∨ (sha256Tail data.length (data.drop (64 * (data.length / 64)))).length = 128 := by
    rw [htail]
    split
    · exact Or.inl rfl
    · exact Or.inr rfl
  rw [blocks_pad, blocks_tail hcases, List.foldl_append, List.foldl_map, List.foldl_cons]
  unfold sha256
  dsimp only
  split <;> rfl

/-- Compressing blocks is compressing them as in the standard. -/
theorem toHashValue_foldl {blocks : List Bytes} (h : ∀ block ∈ blocks, block.length = 64)
    (state : Registers) : (blocks.foldl compressBlock state).toHashValue
      = blocks.foldl Fips180.compress state.toHashValue := by
  induction blocks generalizing state with
  | nil => rfl
  | cons block blocks ih =>
    rw [List.foldl_cons, List.foldl_cons,
      ih (fun other hother => h other (List.mem_cons_of_mem _ hother)),
      toHashValue_compressBlock _ (h block List.mem_cons_self)]

/-- **The digest is the one of the standard.** -/
theorem sha256_eq_standard (data : Bytes) : sha256 data = Fips180.sha256 data := by
  rw [sha256_eq_foldl, Fips180.sha256, ← toHashValue_initialRegisters,
    ← toHashValue_foldl (fun block => Fips180.length_of_mem_blocks), bytes_toHashValue]
  rfl

/-- The loop over the whole blocks stays inside the data. -/
theorem compressBlocks_eq_some (data : Bytes) (state : Registers) :
    (List.range (data.length / 64)).foldlM (fun state i => compressBlockAt state data (i * 64)) state
      = some ((List.range (data.length / 64)).foldl
          (fun state i => compressBlock state ((data.drop (64 * i)).take 64)) state) := by
  refine foldlM_range_eq_some (fun n => (List.range n).foldl
    (fun state i => compressBlock state ((data.drop (64 * i)).take 64)) state) (fun i hi => ?_)
  rw [compressBlockAt_eq_some (blockAt_take (by omega)), List.range_succ, List.foldl_append,
    Nat.mul_comm i 64]
  rfl

/-- **The checked computation has a result**, which is `sha256`: no access is outside
of the data or of the tail. -/
theorem sha256At_eq (data : Bytes) : sha256At data = some (sha256 data) := by
  obtain ⟨rest, hrest⟩ : ∃ rest, data.drop (data.length / 64 * 64) = rest := ⟨_, rfl⟩
  have hremaining : rest.length = data.length - data.length / 64 * 64 := by
    rw [← hrest, List.length_drop]
  have hlt : rest.length < 64 := by omega
  have htail := length_sha256Tail data.length hlt
  obtain ⟨zeros, hzeros⟩ :
      ∃ zeros, zeros = List.replicate (if rest.length < 56 then 64 else 0) (0 : UInt8) := ⟨_, rfl⟩
  have hfirst : BlockAt (sha256Tail data.length rest ++ zeros) 0
      ((sha256Tail data.length rest).take 64) := by
    have hle : 64 ≤ (sha256Tail data.length rest).length := by
      rw [htail]
      split <;> omega
    have hblock : BlockAt (sha256Tail data.length rest ++ zeros) 0
        (((sha256Tail data.length rest ++ zeros).drop 0).take 64) :=
      blockAt_take (by rw [List.length_append]; omega)
    rwa [List.drop_zero, List.take_append_of_le_length hle] at hblock
  unfold sha256At sha256
  dsimp only
  rw [compressBlocks_eq_some, ← hremaining, Nat.mul_comm 64, hrest]
  simp only [Option.bind_eq_bind, Option.bind_some, buildTail_eq_some data hrest hlt, ← hzeros,
    compressBlockAt_eq_some hfirst]
  by_cases hone : rest.length < 56
  · rw [if_pos hone] at htail ⊢
    rw [if_neg (by rw [htail]; decide)]
    rfl
  · rw [if_neg hone] at htail hzeros ⊢
    have hsecond : BlockAt (sha256Tail data.length rest ++ zeros) 64
        ((sha256Tail data.length rest).drop 64) := by
      have hblock : BlockAt (sha256Tail data.length rest) 64
          (((sha256Tail data.length rest).drop 64).take 64) := blockAt_take (le_of_eq htail.symm)
      rw [List.take_of_length_le (by rw [List.length_drop, htail])] at hblock
      rwa [hzeros, List.replicate_zero, List.append_nil]
    rw [compressBlockAt_eq_some hsecond, if_pos htail]
    rfl

/-- **`Sha256` computes the digest of the standard** for every text, and reads nothing
outside of the text and of its tail. -/
theorem sha256_spec (data : Bytes) : sha256At data = some (Fips180.sha256 data)
    ∧ sha256 data = Fips180.sha256 data :=
  ⟨by rw [sha256At_eq, sha256_eq_standard], sha256_eq_standard data⟩

end AzooKey.Learning

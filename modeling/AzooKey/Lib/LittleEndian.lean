import AzooKey.Lib.Bytes

/-!
# Numbers in bytes

The fixed-width representation of a natural number, the lowest byte first.
Writing truncates to the width and reading is its inverse on byte strings of
that width, so that a field of a file can be read as a number and put back
without a change.
-/

namespace LittleEndian

/-- A number in `width` bytes. -/
def encode : ℕ → ℕ → Bytes
  | 0, _ => []
  | width + 1, n => UInt8.ofNat n :: encode width (n / 256)

/-- The number that bytes stand for. -/
def decode : Bytes → ℕ
  | [] => 0
  | b :: bytes => b.toNat + 256 * decode bytes

/-- A number has as many bytes as it is given. -/
@[simp] theorem length_encode (width n : ℕ) : (encode width n).length = width := by
  induction width generalizing n with
  | zero => rfl
  | succ width ih => rw [encode, List.length_cons, ih]

/-- **A number is read as it was written**, up to its width. -/
theorem decode_encode (width n : ℕ) : decode (encode width n) = n % 256 ^ width := by
  induction width generalizing n with
  | zero => rw [encode, decode, pow_zero, Nat.mod_one]
  | succ width ih => rw [encode, decode, ih, UInt8.toNat_ofNat', pow_succ' 256 width, Nat.mod_mul]

/-- A number that fits is read as it was written. -/
theorem decode_encode_of_lt {width n : ℕ} (h : n < 256 ^ width) : decode (encode width n) = n := by
  rw [decode_encode, Nat.mod_eq_of_lt h]

/-- What is read fits. -/
theorem decode_lt (bytes : Bytes) : decode bytes < 256 ^ bytes.length := by
  induction bytes with
  | nil => exact Nat.one_pos
  | cons b bytes ih =>
    have hb := b.toNat_lt
    rw [decode, List.length_cons, pow_succ]
    omega

/-- **A field is put back as it was read.** -/
theorem encode_decode (bytes : Bytes) : encode bytes.length (decode bytes) = bytes := by
  induction bytes with
  | nil => rfl
  | cons b bytes ih =>
    have hb := b.toNat_lt
    have hhead : UInt8.ofNat (b.toNat + 256 * decode bytes) = b := by
      refine UInt8.toNat.inj ?_
      rw [UInt8.toNat_ofNat', Nat.add_mul_mod_self_left, Nat.mod_eq_of_lt hb]
    have htail : (b.toNat + 256 * decode bytes) / 256 = decode bytes := by omega
    rw [decode, List.length_cons, encode, hhead, htail, ih]

/-- A field of a known width is put back as it was read. -/
theorem encode_decode_of_length {width : ℕ} {bytes : Bytes} (h : bytes.length = width) :
    encode width (decode bytes) = bytes := h ▸ encode_decode bytes

/-- A 32-bit number. -/
def u32 (n : UInt32) : Bytes := encode 4 n.toNat

/-- The 32-bit number at the front of bytes. -/
def getU32 (bytes : Bytes) : UInt32 := UInt32.ofNat (decode (bytes.take 4))

/-- A 32-bit number has four bytes. -/
@[simp] theorem length_u32 (n : UInt32) : (u32 n).length = 4 := length_encode 4 _

/-- **A 32-bit number is read as it was written.** -/
@[simp] theorem getU32_u32_append (n : UInt32) (rest : Bytes) : getU32 (u32 n ++ rest) = n := by
  have htake : (u32 n ++ rest).take 4 = u32 n := by
    rw [List.take_append_of_le_length (by rw [length_u32]), List.take_of_length_le (by simp)]
  unfold getU32
  rw [htake, u32, decode_encode_of_lt n.toNat_lt]
  exact UInt32.ofNat_toNat

/-- **Four bytes are put back as they were read.** -/
theorem u32_getU32 {bytes : Bytes} (h : bytes.length = 4) : u32 (getU32 bytes) = bytes := by
  have hlt := decode_lt bytes
  rw [h] at hlt
  unfold u32 getU32
  rw [List.take_of_length_le h.le, UInt32.toNat_ofNat_of_lt' hlt, ← h, encode_decode]

/-! ## Records of fields -/

/-- A record: each field's width and the number it holds. -/
def fields (fs : List (ℕ × ℕ)) : Bytes := fs.flatMap (fun f => encode f.1 f.2)

/-- The number in a field of a file. -/
def read (bytes : Bytes) (offset width : ℕ) : ℕ := decode ((bytes.drop offset).take width)

/-- The bytes that fields take, summed up from the left. -/
def widths (fs : List (ℕ × ℕ)) : ℕ := fs.foldl (fun n f => n + f.1) 0

/-- A record has the widths of its fields. -/
theorem length_fields (fs : List (ℕ × ℕ)) : (fields fs).length = widths fs := by
  have hfold : ∀ (fs : List (ℕ × ℕ)) (n : ℕ),
      fs.foldl (fun n f => n + f.1) n = n + (fields fs).length := by
    intro fs
    induction fs with
    | nil => exact fun n => rfl
    | cons f fs ih =>
      intro n
      have hcons : fields (f :: fs) = encode f.1 f.2 ++ fields fs := List.flatMap_cons
      rw [List.foldl_cons, ih, hcons, List.length_append, length_encode, Nat.add_assoc]
  rw [widths, hfold, Nat.zero_add]

/-- **A field is read as it was written**, up to its width. -/
theorem read_fields (before after : Bytes) (fs : List (ℕ × ℕ)) (i : ℕ) {width n offset : ℕ}
    (h : fs[i]? = some (width, n)) (hoffset : widths (fs.take i) = offset) :
    read (before ++ (fields fs ++ after)) (before.length + offset) width = n % 256 ^ width := by
  obtain ⟨hi, hfield⟩ := List.getElem?_eq_some_iff.mp h
  have hsplit : before ++ (fields fs ++ after)
      = (before ++ fields (fs.take i)) ++ (encode width n ++ (fields (fs.drop (i + 1)) ++ after)) := by
    nth_rewrite 1 [← List.take_append_drop i fs, List.drop_eq_getElem_cons hi, hfield]
    simp only [fields, List.flatMap_append, List.flatMap_cons, List.append_assoc]
  unfold read
  rw [hsplit, ← hoffset, ← length_fields, ← List.length_append, List.drop_left,
    List.take_append_of_le_length (length_encode width n).ge,
    List.take_of_length_le (length_encode width n).le, decode_encode]

end LittleEndian

import AzooKey.Core.DoubleArrayTrie

/-!
# The writer of a dictionary image

`dictbuild/dictbuild.py`: `pack` puts the sections of a dictionary into one
image, behind a header and a table that says where each of them lies. Every
section starts at a multiple of eight, and the header holds a hash of all that
follows it.
-/

namespace AzooKey.Dictbuild

open Ipc Core.Dictionary

/-- `struct.pack` of a number, lowest byte first. -/
def packNumber : ℕ → ℕ → Bytes
  | 0, _ => []
  | width + 1, n => UInt8.ofNat n :: packNumber width (n / 256)

/-- `b"\0" * n`. -/
def zeros (n : ℕ) : Bytes := List.replicate n 0

/-- `fnv`. -/
def fnv (data : Bytes) : ℕ :=
  data.foldl (fun value byte => (value ^^^ byte.toNat) * 1099511628211 % 2 ^ 64) 14695981039346656037

/-- A row of the table: `struct.pack_into("<4sIQQ", …)`. -/
def packRow (name : Bytes) (offset length : ℕ) : Bytes :=
  name ++ packNumber 4 0 ++ packNumber 8 offset ++ packNumber 8 length

/-- The table and the sections behind it, when the image has a length so far. -/
def packSections : ℕ → List (Bytes × Bytes) → Bytes × Bytes
  | _, [] => ([], [])
  | start, (name, data) :: rest =>
    let padding := (8 - start % 8) % 8
    let tail := packSections (start + padding + data.length) rest
    (packRow name (start + padding) data.length ++ tail.1, zeros padding ++ data ++ tail.2)

/-- **`pack`.** -/
def pack (sections : List (Bytes × Bytes)) (layer entryCount keyCount : ℕ) : Bytes :=
  let body := packSections (64 + 24 * sections.length) sections
  let content := body.1 ++ body.2
  utf8 "AZDIC1" ++ [0, 0] ++ packNumber 2 1 ++ packNumber 2 64 ++ packNumber 4 1
    ++ packNumber 4 layer ++ packNumber 4 entryCount ++ packNumber 4 keyCount
    ++ packNumber 4 sections.length ++ packNumber 8 (fnv content) ++ zeros 24 ++ content

/-- An image in memory. -/
def imageOf (bytes : Bytes) : Image := ⟨bytes.length, fun i => bytes.getD i 0⟩

/-- A node of the trie, as it is stored. -/
def packNode (base parent keyId depth : ℕ) : Bytes :=
  packNumber 4 base ++ packNumber 4 parent ++ packNumber 4 keyId ++ packNumber 4 depth

/-! ## What is read back -/

/-- What stands in an image. -/
theorem slice_imageOf {bytes : Bytes} {off n : ℕ} (h : off + n ≤ bytes.length) :
    (imageOf bytes).slice off n = (bytes.drop off).take n := by
  induction n generalizing off with
  | zero => rfl
  | succ n ih =>
    have hlt : off < bytes.length := by omega
    rw [Image.slice, ih (by omega), List.drop_eq_getElem_cons hlt, List.take_succ_cons]
    congr 1
    show bytes.getD off 0 = bytes[off]
    rw [List.getD_eq_getElem?_getD, List.getElem?_eq_getElem hlt, Option.getD_some]

/-- **A part of an image stands where it was put.** -/
theorem slice_imageOf_append {off n : ℕ} (before part after : Bytes) (hoff : before.length = off)
    (hn : part.length = n) : (imageOf (before ++ part ++ after)).slice off n = part := by
  have hle : off + n ≤ (before ++ part ++ after).length := by
    rw [List.length_append, List.length_append]
    omega
  rw [slice_imageOf hle, List.append_assoc, List.drop_append_of_le_length hoff.ge,
    List.drop_of_length_le hoff.le, List.nil_append, List.take_append_of_le_length hn.ge,
    List.take_of_length_le hn.le]

/-- A number has as many bytes as it is given. -/
theorem length_packNumber (width n : ℕ) : (packNumber width n).length = width := by
  induction width generalizing n with
  | zero => rfl
  | succ width ih => rw [packNumber, List.length_cons, ih]

/-- **A number is read as it was written.** -/
theorem littleEndian_packNumber (width n : ℕ) :
    littleEndian (packNumber width n) = n % 256 ^ width := by
  induction width generalizing n with
  | zero => rw [packNumber, littleEndian, pow_zero, Nat.mod_one]
  | succ width ih =>
    rw [packNumber, littleEndian, ih, UInt8.toNat_ofNat', pow_succ' 256 width, Nat.mod_mul]

/-- **The builder and the reader have one hash.** -/
theorem toNat_contentHash (data : Bytes) :
    (contentHash 14695981039346656037 data).toNat = fnv data := by
  have hgo : ∀ (hash : UInt64) (value : ℕ), hash.toNat = value →
      (contentHash hash data).toNat
        = data.foldl (fun value byte => (value ^^^ byte.toNat) * 1099511628211 % 2 ^ 64) value := by
    induction data with
    | nil =>
      intro hash value h
      exact h
    | cons b data ih =>
      intro hash value h
      refine ih _ _ ?_
      rw [UInt64.toNat_mul, UInt64.toNat_xor, UInt8.toNat_toUInt64, h]
      rfl
  exact hgo _ _ rfl

/-- A hash fits into its place. -/
theorem fnv_lt (data : Bytes) : fnv data < 2 ^ 64 := by
  rw [← toNat_contentHash]
  exact UInt64.toNat_lt _

/-- The table and the sections of an image. -/
def packContent (sections : List (Bytes × Bytes)) : Bytes :=
  let body := packSections (64 + 24 * sections.length) sections
  body.1 ++ body.2

/-- The header of an image, in front of its hash. -/
def packCounts (count layer entryCount keyCount : ℕ) : Bytes :=
  utf8 "AZDIC1" ++ [0, 0] ++ packNumber 2 1 ++ packNumber 2 64 ++ packNumber 4 1
    ++ packNumber 4 layer ++ packNumber 4 entryCount ++ packNumber 4 keyCount ++ packNumber 4 count

/-- The parts of an image. -/
theorem pack_eq (sections : List (Bytes × Bytes)) (layer entryCount keyCount : ℕ) :
    pack sections layer entryCount keyCount
      = packCounts sections.length layer entryCount keyCount
        ++ packNumber 8 (fnv (packContent sections)) ++ zeros 24 ++ packContent sections := by
  unfold pack packCounts packContent
  rfl

/-- The hash stands behind 32 bytes. -/
theorem length_packCounts (count layer entryCount keyCount : ℕ) :
    (packCounts count layer entryCount keyCount).length = 32 := by
  have hmagic : (utf8 "AZDIC1").length = 6 := by decide
  simp only [packCounts, List.length_append, length_packNumber, hmagic, List.length_cons,
    List.length_nil]

/-- **The hash in the header is the one of the content.** -/
theorem hash_pack (sections : List (Bytes × Bytes)) (layer entryCount keyCount : ℕ) :
    (contentHash 14695981039346656037
      ((imageOf (pack sections layer entryCount keyCount)).slice 64
        ((imageOf (pack sections layer entryCount keyCount)).size - 64))).toNat
      = (imageOf (pack sections layer entryCount keyCount)).value 32 8 := by
  have hcounts := length_packCounts sections.length layer entryCount keyCount
  have hheader : (packCounts sections.length layer entryCount keyCount
      ++ packNumber 8 (fnv (packContent sections)) ++ zeros 24).length = 64 := by
    rw [List.length_append, List.length_append, hcounts, length_packNumber, zeros,
      List.length_replicate]
  have hsize : (imageOf (pack sections layer entryCount keyCount)).size - 64
      = (packContent sections).length := by
    show (pack sections layer entryCount keyCount).length - 64 = _
    rw [pack_eq, List.length_append, hheader, Nat.add_sub_cancel_left]
  have hcontent := slice_imageOf_append _ (packContent sections) [] hheader rfl
  have hhash := slice_imageOf_append _ (packNumber 8 (fnv (packContent sections)))
    (zeros 24 ++ packContent sections) hcounts (length_packNumber 8 _)
  rw [List.append_nil, ← pack_eq] at hcontent
  rw [← List.append_assoc, ← pack_eq] at hhash
  rw [hsize, hcontent, toNat_contentHash, Image.value, hhash, littleEndian_packNumber]
  exact (Nat.mod_eq_of_lt (fnv_lt _)).symm

/-- Where the sections of an image start. -/
def sectionOffsets : ℕ → List (Bytes × Bytes) → List ℕ
  | _, [] => []
  | start, (_, data) :: rest =>
    let offset := start + (8 - start % 8) % 8
    offset :: sectionOffsets (offset + data.length) rest

/-- A row of the table has 24 bytes. -/
theorem length_packRow {name : Bytes} (h : name.length = 4) (offset length : ℕ) :
    (packRow name offset length).length = 24 := by
  simp only [packRow, List.length_append, length_packNumber, h]

/-- The table has a row for each section. -/
theorem length_packSections {start : ℕ} {sections : List (Bytes × Bytes)}
    (h : ∀ s ∈ sections, s.1.length = 4) :
    (packSections start sections).1.length = 24 * sections.length := by
  induction sections generalizing start with
  | nil => rfl
  | cons s rest ih =>
    rw [packSections, List.length_append, length_packRow (h s List.mem_cons_self),
      ih (fun r hr => h r (List.mem_cons_of_mem _ hr)), List.length_cons]
    omega

/-- A section stands where the sections before it end. -/
theorem packSections_split {start offset i : ℕ} {sections : List (Bytes × Bytes)}
    {name data : Bytes} (h : sections[i]? = some (name, data))
    (hoffset : (sectionOffsets start sections)[i]? = some offset) :
    ∃ before after, (packSections start sections).2 = before ++ data ++ after
      ∧ start + before.length = offset := by
  induction sections generalizing start i with
  | nil => cases h
  | cons s rest ih =>
    cases i with
    | zero =>
      cases h
      cases hoffset
      refine ⟨zeros ((8 - start % 8) % 8), _, rfl, ?_⟩
      rw [zeros, List.length_replicate]
    | succ i =>
      obtain ⟨before, after, heq, hlen⟩ := ih h hoffset
      refine ⟨zeros ((8 - start % 8) % 8) ++ s.2 ++ before, after, ?_, ?_⟩
      · rw [packSections, heq]
        simp only [List.append_assoc]
      · rw [List.length_append, List.length_append, zeros, List.length_replicate]
        omega

/-- **A section stands in the image at its offset.** -/
theorem pack_split {sections : List (Bytes × Bytes)} {layer entryCount keyCount offset i : ℕ}
    {name data : Bytes} (hnames : ∀ s ∈ sections, s.1.length = 4)
    (h : sections[i]? = some (name, data))
    (hoffset : (sectionOffsets (64 + 24 * sections.length) sections)[i]? = some offset) :
    ∃ before after, pack sections layer entryCount keyCount = before ++ data ++ after
      ∧ before.length = offset := by
  obtain ⟨before, after, heq, hlen⟩ := packSections_split h hoffset
  refine ⟨packCounts sections.length layer entryCount keyCount
    ++ packNumber 8 (fnv (packContent sections)) ++ zeros 24
    ++ (packSections (64 + 24 * sections.length) sections).1 ++ before, after, ?_, ?_⟩
  · rw [pack_eq, packContent, heq]
    simp only [List.append_assoc]
  · simp only [List.length_append, length_packCounts, length_packNumber, zeros,
      List.length_replicate, length_packSections hnames]
    omega

end AzooKey.Dictbuild

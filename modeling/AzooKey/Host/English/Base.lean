import AzooKey.Host.English.Frames
import AzooKey.Lib.BinarySearch
import Mathlib.Data.List.Sort

/-!
# The base of the English dictionary

The base is a file of records that are sorted by their keys, with the texts in
a pool behind them, so that a reader can map it and search it in place.
`EncodeEnglishBase` writes it, and `EnglishBaseImage` reads it and trusts no
offset in it. The results are that an image that was written is accepted unless
it is too large, and that it is then looked up as the list of its records.
-/

namespace AzooKey.Host.English

open LittleEndian
open Core.Dictionary (isValidUtf8)

/-- `EnglishWordRecord`. -/
structure WordRecord where
  key : Bytes
  surface : Bytes
  frequency : UInt32
  flags : UInt8
deriving DecidableEq

/-- `EnglishBaseHeader`. -/
structure BaseHeader where
  version : ℕ
  entryCount : ℕ
  flags : ℕ
  recordsOffset : ℕ
  stringsOffset : ℕ
  generation : UInt32
  contentHash : UInt32
deriving DecidableEq

/-- `kBaseMagic`. -/
def baseMagic : Bytes := utf8 "AZED"

/-- `kEnglishBaseVersion`. -/
def englishBaseVersion : ℕ := 1

/-- `kEnglishBaseHeaderSize`. -/
def englishBaseHeaderSize : ℕ := 32

/-- `kRecordSize`. -/
def recordSize : ℕ := 20

/-- `kSortedFlag`. -/
def sortedFlag : ℕ := 1

/-- `kMaxBaseBytes`. -/
def maxBaseBytes : ℕ := 256 * 1024 * 1024

/-- `kMaxEnglishBaseEntries`. -/
def maxEnglishBaseEntries : ℕ := 400000

/-- `Fnv1a`. -/
def fnv1a (hash : UInt32) (bytes : Bytes) : UInt32 :=
  bytes.foldl (fun hash b => (hash ^^^ b.toUInt32) * 16777619) hash

/-- **`ContentHash`**: of three fields of the header, the records and the texts. -/
def contentHash (data : Bytes) (header : BaseHeader) : UInt32 :=
  let hash := fnv1a 2166136261 (fields [(4, header.version), (4, header.entryCount),
    (4, header.generation.toNat)])
  let hash := fnv1a hash ((data.drop header.recordsOffset).take (header.entryCount * recordSize))
  fnv1a hash (data.drop header.stringsOffset)

/-! ## Writing -/

/-- The records that `EncodeEnglishBase` keeps. -/
def WordRecord.encodable (r : WordRecord) : Bool :=
  !r.key.isEmpty && r.key.length ≤ 0xFFFF && r.surface.length ≤ 0xFFFF

/-- The order of the records: by the key, then the most frequent first. -/
def WordRecord.before (l r : WordRecord) : Prop :=
  l.key < r.key ∨ l.key = r.key ∧ r.frequency ≤ l.frequency

instance : DecidableRel WordRecord.before := fun l r =>
  inferInstanceAs (Decidable (l.key < r.key ∨ l.key = r.key ∧ r.frequency ≤ l.frequency))

/-- `std::stable_sort` of the records. -/
def sortRecords (records : List WordRecord) : List WordRecord :=
  records.insertionSort WordRecord.before

/-- The texts of a record. A surface that is its key is not written again. -/
def poolTexts (r : WordRecord) : Bytes := r.key ++ if r.surface ≠ r.key then r.surface else []

/-- The fields of a record whose key is at an offset. -/
def recordFields (offset : ℕ) (r : WordRecord) : List (ℕ × ℕ) :=
  [(4, offset), (2, r.key.length), (2, r.surface.length),
    (4, if r.surface ≠ r.key then offset + r.key.length else offset), (4, r.frequency.toNat),
    (1, r.flags.toNat), (3, 0)]

/-- The records, of which the first has its texts at an offset. -/
def packRecords : ℕ → List WordRecord → Bytes
  | _, [] => []
  | offset, r :: records =>
    fields (recordFields offset r) ++ packRecords (offset + (poolTexts r).length) records

/-- Where the texts begin. -/
def stringsOffsetOf (records : List WordRecord) : ℕ :=
  englishBaseHeaderSize + records.length * recordSize

/-- The records and the texts. -/
def imageBody (records : List WordRecord) : Bytes :=
  packRecords (stringsOffsetOf records) records ++ records.flatMap poolTexts

/-- The header without its hash. -/
def unhashedHeader (records : List WordRecord) (generation : UInt32) : BaseHeader where
  version := englishBaseVersion
  entryCount := records.length
  flags := sortedFlag
  recordsOffset := englishBaseHeaderSize
  stringsOffset := stringsOffsetOf records
  generation := generation
  contentHash := 0

/-- The header of sorted records. The hash is taken while the header is blank. -/
def imageHeader (records : List WordRecord) (generation : UInt32) : BaseHeader :=
  { unhashedHeader records generation with
    contentHash := contentHash (List.replicate englishBaseHeaderSize 0 ++ imageBody records)
      (unhashedHeader records generation) }

/-- The fields of a header, behind the magic. -/
def headerFields (header : BaseHeader) : List (ℕ × ℕ) :=
  [(4, header.version), (4, header.entryCount), (4, header.flags), (4, header.recordsOffset),
    (4, header.stringsOffset), (4, header.generation.toNat), (4, header.contentHash.toNat)]

/-- The image of sorted records. -/
def imageOf (records : List WordRecord) (generation : UInt32) : Bytes :=
  baseMagic ++ (fields (headerFields (imageHeader records generation)) ++ imageBody records)

/-- **`EncodeEnglishBase`.** -/
def encodeEnglishBase (records : List WordRecord) (generation : UInt32) : Bytes :=
  imageOf (sortRecords (records.filter WordRecord.encodable)) generation

/-! ## Reading -/

/-- `ParseBaseHeader`. -/
def parseBaseHeader (data : Bytes) : Option BaseHeader :=
  if data.length < englishBaseHeaderSize ∨ data.take 4 ≠ baseMagic then none
  else
    let header : BaseHeader := ⟨read data 4 4, read data 8 4, read data 12 4, read data 16 4,
      read data 20 4, UInt32.ofNat (read data 24 4), UInt32.ofNat (read data 28 4)⟩
    if header.version ≠ englishBaseVersion ∨ header.flags &&& sortedFlag = 0 then none
    else some header

/-- `Validate`, with the header that it keeps. -/
def validate (data : Bytes) : Option BaseHeader :=
  if maxBaseBytes < data.length then none
  else
    match parseBaseHeader data with
    | none => none
    | some header =>
      if maxEnglishBaseEntries < header.entryCount ∨ header.recordsOffset < englishBaseHeaderSize
          ∨ data.length < header.stringsOffset
          ∨ data.length < header.recordsOffset + header.entryCount * recordSize then none
      else if contentHash data header ≠ header.contentHash then none
      else some header

/-- **`EnglishBaseImage`**: an image that was validated. -/
structure BaseImage where
  data : Bytes
  header : BaseHeader
  valid : validate data = some header

/-- `EnglishBaseImage::FromBytes`. -/
def BaseImage.fromBytes (data : Bytes) : Option BaseImage :=
  match h : validate data with
  | none => none
  | some header => some ⟨data, header, h⟩

/-- **`EnglishBaseImage::Map`.** -/
def BaseImage.map (file : Bytes) : Option BaseImage :=
  if file.length < englishBaseHeaderSize ∨ maxBaseBytes < file.length then none
  else fromBytes file

namespace BaseImage

/-- The bytes of an image at an offset. -/
def slice (image : BaseImage) (offset length : ℕ) : Bytes := (image.data.drop offset).take length

/-- Where a record is. -/
def recordOffset (image : BaseImage) (index : ℕ) : ℕ :=
  image.header.recordsOffset + index * recordSize

/-- `KeyAt`. A record out of range has the empty key. -/
def keyAt (image : BaseImage) (index : ℕ) : Bytes :=
  let p := image.recordOffset index
  let offset := read image.data p 4
  let length := read image.data (p + 4) 2
  if offset < image.header.stringsOffset ∨ image.data.length < offset + length then []
  else image.slice offset length

/-- `RecordAt`. -/
def recordAt (image : BaseImage) (index : ℕ) : Option WordRecord :=
  let p := image.recordOffset index
  let offset := read image.data (p + 8) 4
  let length := read image.data (p + 6) 2
  let key := image.keyAt index
  if key = [] ∨ offset < image.header.stringsOffset ∨ image.data.length < offset + length then none
  else
    let surface := image.slice offset length
    if surface = [] ∨ !isValidUtf8 surface then none
    else some ⟨key, surface, UInt32.ofNat (read image.data (p + 12) 4),
      UInt8.ofNat (read image.data (p + 16) 1)⟩

/-- **`EnglishBaseImage::Lookup`.** -/
def lookup (image : BaseImage) (key : Bytes) : List WordRecord :=
  let low := BinarySearch.partitionPoint (fun i => image.keyAt i < key) 0 image.header.entryCount
  ((List.range' low (image.header.entryCount - low)).takeWhile
    (fun i => image.keyAt i = key)).filterMap image.recordAt

/-- `EnglishBaseImage::Records`. -/
def records (image : BaseImage) : List WordRecord :=
  (List.range image.header.entryCount).filterMap image.recordAt

end BaseImage

/-! ## What is written -/

/-- The size of the records. -/
theorem length_packRecords (offset : ℕ) (records : List WordRecord) :
    (packRecords offset records).length = records.length * recordSize := by
  induction records generalizing offset with
  | nil => simp [packRecords]
  | cons r records ih =>
    have hfields : (fields (recordFields offset r)).length = recordSize := length_fields _
    rw [packRecords, List.length_append, hfields, ih, List.length_cons, Nat.add_mul, Nat.one_mul,
      Nat.add_comm]

/-- The records up to one, that one, and the others. -/
theorem packRecords_append (offset : ℕ) (pre post : List WordRecord) (r : WordRecord) :
    packRecords offset (pre ++ r :: post) = packRecords offset pre
      ++ (fields (recordFields (offset + (pre.flatMap poolTexts).length) r)
        ++ packRecords (offset + ((pre ++ [r]).flatMap poolTexts).length) post) := by
  induction pre generalizing offset with
  | nil => simp [packRecords]
  | cons p pre ih =>
    rw [List.cons_append, packRecords, ih, packRecords]
    simp only [List.append_assoc, List.flatMap_append, List.flatMap_cons, List.flatMap_nil,
      List.length_append, List.append_nil, Nat.add_assoc]

/-- The size of the header. -/
theorem length_imageHead (header : BaseHeader) :
    (baseMagic ++ fields (headerFields header)).length = englishBaseHeaderSize := by
  rw [List.length_append, length_fields]
  rfl

/-- **The size of an image.** -/
theorem length_imageOf (records : List WordRecord) (generation : UInt32) :
    (imageOf records generation).length
      = stringsOffsetOf records + (records.flatMap poolTexts).length := by
  unfold imageOf imageBody stringsOffsetOf
  rw [← List.append_assoc, List.length_append, length_imageHead, List.length_append,
    length_packRecords, Nat.add_assoc]

/-- What follows the header of an image. -/
theorem drop_imageOf (records : List WordRecord) (generation : UInt32) :
    (imageOf records generation).drop englishBaseHeaderSize = imageBody records := by
  unfold imageOf
  rw [← List.append_assoc]
  exact List.drop_left' (length_imageHead _)

/-- The hash of an image is that of the image with a blank header. -/
theorem contentHash_imageOf (records : List WordRecord) (generation : UInt32) :
    contentHash (imageOf records generation) (imageHeader records generation)
      = (imageHeader records generation).contentHash := by
  have hblank : (List.replicate englishBaseHeaderSize (0 : UInt8) ++ imageBody records).drop
      englishBaseHeaderSize = imageBody records := List.drop_left' List.length_replicate
  have hstrings : ∀ data : Bytes, data.drop (stringsOffsetOf records)
      = (data.drop englishBaseHeaderSize).drop (records.length * recordSize) := by
    intro data
    rw [List.drop_drop]
    rfl
  show fnv1a (fnv1a _ (((imageOf records generation).drop englishBaseHeaderSize).take
      (records.length * recordSize))) ((imageOf records generation).drop (stringsOffsetOf records))
    = fnv1a (fnv1a _ (((List.replicate englishBaseHeaderSize (0 : UInt8) ++ imageBody records).drop
      englishBaseHeaderSize).take (records.length * recordSize)))
      ((List.replicate englishBaseHeaderSize (0 : UInt8) ++ imageBody records).drop
        (stringsOffsetOf records))
  rw [hstrings, hstrings, drop_imageOf, hblank]
  rfl

section Image

variable {records : List WordRecord} {generation : UInt32}

/-- **A header is read as it was written**, if the image is not too large. -/
theorem parseBaseHeader_imageOf (hsize : (imageOf records generation).length ≤ maxBaseBytes) :
    parseBaseHeader (imageOf records generation) = some (imageHeader records generation) := by
  have hlength := length_imageOf records generation
  have hmax : maxBaseBytes < 256 ^ 4 := by decide
  have hstrings : stringsOffsetOf records = englishBaseHeaderSize + records.length * recordSize := rfl
  have hhead : englishBaseHeaderSize ≤ (imageOf records generation).length := by omega
  have hrecord : recordSize = 20 := rfl
  have hcount : records.length < 256 ^ 4 := by
    rw [hrecord] at hstrings
    omega
  have hoffset : stringsOffsetOf records < 256 ^ 4 := by omega
  have hword : ∀ n : UInt32, n.toNat % 256 ^ 4 = n.toNat := fun n => Nat.mod_eq_of_lt n.toNat_lt
  have hread : ∀ (i : ℕ) {n offset : ℕ},
      (headerFields (imageHeader records generation))[i]? = some (4, n) →
      widths ((headerFields (imageHeader records generation)).take i) = offset →
      read (imageOf records generation) (4 + offset) 4 = n % 256 ^ 4 := by
    intro i n offset h hoffset
    exact read_fields baseMagic (imageBody records) (headerFields (imageHeader records generation)) i
      h hoffset
  have h4 : read (imageOf records generation) 4 4 = englishBaseVersion := hread 0 rfl rfl
  have h8 : read (imageOf records generation) 8 4 = records.length % 256 ^ 4 := hread 1 rfl rfl
  have h12 : read (imageOf records generation) 12 4 = sortedFlag := hread 2 rfl rfl
  have h16 : read (imageOf records generation) 16 4 = englishBaseHeaderSize := hread 3 rfl rfl
  have h20 : read (imageOf records generation) 20 4 = stringsOffsetOf records % 256 ^ 4 :=
    hread 4 rfl rfl
  have h24 : read (imageOf records generation) 24 4 = generation.toNat % 256 ^ 4 := hread 5 rfl rfl
  have h28 : read (imageOf records generation) 28 4
      = (imageHeader records generation).contentHash.toNat % 256 ^ 4 := hread 6 rfl rfl
  rw [Nat.mod_eq_of_lt hcount] at h8
  rw [Nat.mod_eq_of_lt hoffset] at h20
  rw [hword] at h24 h28
  have hmagic : (imageOf records generation).take 4 = baseMagic := List.take_left' rfl
  unfold parseBaseHeader
  rw [if_neg (by rw [hmagic]; simpa using hhead)]
  simp only [h4, h8, h12, h16, h20, h24, h28, UInt32.ofNat_toNat]
  rw [if_neg (by decide)]
  rfl

/-- **An image is accepted unless it has too many records or is too large.** -/
theorem validate_imageOf (hcount : records.length ≤ maxEnglishBaseEntries)
    (hsize : (imageOf records generation).length ≤ maxBaseBytes) :
    validate (imageOf records generation) = some (imageHeader records generation) := by
  have hlength := length_imageOf records generation
  have hstrings : stringsOffsetOf records = englishBaseHeaderSize + records.length * recordSize := rfl
  unfold validate
  rw [if_neg (not_lt.mpr hsize), parseBaseHeader_imageOf hsize]
  show (if maxEnglishBaseEntries < records.length ∨ englishBaseHeaderSize < englishBaseHeaderSize
      ∨ (imageOf records generation).length < stringsOffsetOf records
      ∨ (imageOf records generation).length < englishBaseHeaderSize + records.length * recordSize
    then none
    else if contentHash (imageOf records generation) (imageHeader records generation)
        ≠ (imageHeader records generation).contentHash then none
      else some (imageHeader records generation)) = _
  rw [if_neg (by omega), contentHash_imageOf, if_neg (not_not.mpr rfl)]

/-- An image that is too large is not accepted. -/
theorem map_imageOf_of_lt (hsize : maxBaseBytes < (imageOf records generation).length) :
    BaseImage.map (imageOf records generation) = none := by
  unfold BaseImage.map
  exact if_pos (Or.inr hsize)

/-- **An image that is accepted.** -/
theorem exists_map_imageOf (hcount : records.length ≤ maxEnglishBaseEntries)
    (hsize : (imageOf records generation).length ≤ maxBaseBytes) :
    ∃ image, BaseImage.map (imageOf records generation) = some image
      ∧ image.data = imageOf records generation
      ∧ image.header = imageHeader records generation := by
  have hvalid := validate_imageOf hcount hsize
  have hlength := length_imageOf records generation
  have hstrings : stringsOffsetOf records = englishBaseHeaderSize + records.length * recordSize := rfl
  refine ⟨⟨imageOf records generation, imageHeader records generation, hvalid⟩, ?_, rfl, rfl⟩
  unfold BaseImage.map BaseImage.fromBytes
  rw [if_neg (by omega)]
  split
  · rename_i h
    rw [h] at hvalid
    cases hvalid
  · rename_i header h
    rw [hvalid] at h
    cases h
    rfl

end Image

/-! ## An image is read as its records -/

/-- The records that a reader takes: those with a surface that is text. -/
def WordRecord.readable (r : WordRecord) : Bool := !r.surface.isEmpty && isValidUtf8 r.surface

section Records

variable {image : BaseImage} {records : List WordRecord} {generation : UInt32}

/-- Where the texts of a record begin that follows others. -/
def textsOffset (records pre : List WordRecord) : ℕ :=
  stringsOffsetOf records + (pre.flatMap poolTexts).length

/-- The fields of a record, in an image. -/
theorem imageOf_eq_record {pre post : List WordRecord} {r : WordRecord}
    (hsplit : records = pre ++ r :: post) :
    ∃ before after, imageOf records generation
        = before ++ (fields (recordFields (textsOffset records pre) r) ++ after)
      ∧ before.length = englishBaseHeaderSize + pre.length * recordSize := by
  have hpack := packRecords_append (stringsOffsetOf records) pre post r
  rw [← hsplit] at hpack
  refine ⟨baseMagic ++ fields (headerFields (imageHeader records generation))
    ++ packRecords (stringsOffsetOf records) pre,
    packRecords (stringsOffsetOf records + ((pre ++ [r]).flatMap poolTexts).length) post
      ++ records.flatMap poolTexts, ?_, ?_⟩
  · unfold imageOf imageBody textsOffset
    rw [hpack]
    simp only [List.append_assoc]
  · rw [List.length_append, length_imageHead, length_packRecords]

/-- The texts of a record, in an image. -/
theorem imageOf_eq_texts {pre post : List WordRecord} {r : WordRecord}
    (hsplit : records = pre ++ r :: post) :
    ∃ before after, imageOf records generation = before ++ (poolTexts r ++ after)
      ∧ before.length = textsOffset records pre := by
  have hpool : records.flatMap poolTexts
      = pre.flatMap poolTexts ++ (poolTexts r ++ post.flatMap poolTexts) := by
    rw [hsplit, List.flatMap_append, List.flatMap_cons]
  refine ⟨baseMagic ++ fields (headerFields (imageHeader records generation))
    ++ packRecords (stringsOffsetOf records) records ++ pre.flatMap poolTexts,
    post.flatMap poolTexts, ?_, ?_⟩
  · unfold imageOf imageBody
    rw [hpool]
    simp only [List.append_assoc]
  · rw [List.length_append, List.length_append, length_imageHead, length_packRecords]
    rfl

/-- A text of a record is where the record says. -/
theorem slice_texts {r : WordRecord} {data before after : Bytes}
    (hdata : data = before ++ (poolTexts r ++ after)) :
    ((data.drop before.length).take r.key.length = r.key
        ∧ before.length + r.key.length ≤ data.length)
      ∧ (data.drop (if r.surface ≠ r.key then before.length + r.key.length else before.length)).take
          r.surface.length = r.surface
        ∧ (if r.surface ≠ r.key then before.length + r.key.length else before.length)
          + r.surface.length ≤ data.length := by
  have hkey : data = before ++ (r.key ++ ((if r.surface ≠ r.key then r.surface else []) ++ after)) := by
    rw [hdata, poolTexts, List.append_assoc]
  have hslice : ∀ (front text back : Bytes), data = front ++ (text ++ back) →
      (data.drop front.length).take text.length = text ∧ front.length + text.length ≤ data.length := by
    intro front text back h
    rw [h, List.drop_left, List.take_left, List.length_append, List.length_append]
    exact ⟨rfl, by omega⟩
  refine ⟨hslice _ _ _ hkey, ?_⟩
  by_cases hsame : r.surface = r.key
  · rw [if_neg (not_not.mpr hsame), hsame]
    exact hslice _ _ _ hkey
  · rw [if_pos hsame] at hkey ⊢
    have hsurface := hslice (before ++ r.key) r.surface after (by rw [hkey, List.append_assoc])
    rw [List.length_append] at hsurface
    exact hsurface

/-- **A record of an image**, between those before and after it. -/
theorem recordAt_of_split (hdata : image.data = imageOf records generation)
    (hheader : image.header = imageHeader records generation) {pre post : List WordRecord}
    {r : WordRecord} (hsplit : records = pre ++ r :: post) (hr : r.encodable = true)
    (hsize : (imageOf records generation).length ≤ maxBaseBytes) :
    image.keyAt pre.length = r.key
      ∧ image.recordAt pre.length = if r.readable then some r else none := by
  have hmax : maxBaseBytes < 256 ^ 4 := by decide
  unfold WordRecord.encodable at hr
  simp only [Bool.and_eq_true, Bool.not_eq_true', List.isEmpty_eq_false_iff, decide_eq_true_eq] at hr
  obtain ⟨⟨hkeyNe, hkeyLength⟩, hsurfaceLength⟩ := hr
  obtain ⟨before, after, hrecord, hplace⟩ := @imageOf_eq_record _ generation _ _ _ hsplit
  obtain ⟨front, back, htexts, hfront⟩ := @imageOf_eq_texts _ generation _ _ _ hsplit
  rw [← hdata] at hrecord htexts hsize
  obtain ⟨⟨hkey, hkeyEnd⟩, hsurface, hsurfaceEnd⟩ := slice_texts htexts
  rw [hfront] at hkey hkeyEnd hsurface hsurfaceEnd
  have hstrings : image.header.stringsOffset ≤ textsOffset records pre := by
    rw [hheader]
    exact Nat.le_add_right _ _
  have hp : image.recordOffset pre.length = before.length := by
    rw [BaseImage.recordOffset, hheader, hplace]
    rfl
  have hread : ∀ (i : ℕ) {width n place : ℕ},
      (recordFields (textsOffset records pre) r)[i]? = some (width, n) →
      widths ((recordFields (textsOffset records pre) r).take i) = place → n < 256 ^ width →
      read image.data (before.length + place) width = n := by
    intro i width n place h hplace hn
    rw [hrecord, read_fields before after _ i h hplace, Nat.mod_eq_of_lt hn]
  have h0 : read image.data before.length 4 = textsOffset records pre := hread 0 rfl rfl (by omega)
  have h4 : read image.data (before.length + 4) 2 = r.key.length := hread 1 rfl rfl (by omega)
  have h6 : read image.data (before.length + 6) 2 = r.surface.length := hread 2 rfl rfl (by omega)
  have h8 : read image.data (before.length + 8) 4 = if r.surface ≠ r.key then
      textsOffset records pre + r.key.length else textsOffset records pre :=
    hread 3 rfl rfl (by omega)
  have h12 : read image.data (before.length + 12) 4 = r.frequency.toNat :=
    hread 4 rfl rfl r.frequency.toNat_lt
  have h16 : read image.data (before.length + 16) 1 = r.flags.toNat :=
    hread 5 rfl rfl r.flags.toNat_lt
  have hkeyAt : image.keyAt pre.length = r.key := by
    unfold BaseImage.keyAt BaseImage.slice
    simp only [hp, h0, h4, hkey]
    rw [if_neg (by omega)]
  refine ⟨hkeyAt, ?_⟩
  have hrange : ¬ (r.key = [] ∨ (if r.surface ≠ r.key then textsOffset records pre + r.key.length
      else textsOffset records pre) < image.header.stringsOffset
      ∨ image.data.length < (if r.surface ≠ r.key then textsOffset records pre + r.key.length
        else textsOffset records pre) + r.surface.length) := by
    rw [not_or, not_or]
    refine ⟨hkeyNe, ?_, by omega⟩
    split <;> omega
  unfold BaseImage.recordAt BaseImage.slice
  simp only [hkeyAt, hp, h6, h8, h12, h16, hsurface, UInt32.ofNat_toNat, UInt8.ofNat_toNat]
  rw [if_neg hrange]
  unfold WordRecord.readable
  by_cases hempty : r.surface = []
  · simp [hempty]
  · cases hutf8 : isValidUtf8 r.surface <;> simp [hempty]

/-- What a reader makes of a record. -/
def readRecord (r : WordRecord) : Option WordRecord := if r.readable then some r else none

/-- The records that a reader makes something of. -/
theorem filterMap_readRecord (rs : List WordRecord) :
    rs.filterMap readRecord = rs.filter WordRecord.readable := by
  rw [← List.filterMap_eq_filter]
  refine congrArg (List.filterMap · rs) ?_
  funext r
  unfold readRecord Option.guard
  rfl

/-- **The rest of an image**, by its places and by its records. -/
theorem map_keyAt_recordAt (hdata : image.data = imageOf records generation)
    (hheader : image.header = imageHeader records generation)
    (hrecords : ∀ r ∈ records, r.encodable = true)
    (hsize : (imageOf records generation).length ≤ maxBaseBytes) (low : ℕ) :
    (List.range' low (records.length - low)).map (fun i => (image.keyAt i, image.recordAt i))
      = (records.drop low).map (fun r => (r.key, readRecord r)) := by
  refine List.ext_getElem (by simp) (fun i hi hi' => ?_)
  rw [List.length_map, List.length_drop] at hi'
  have hlt : low + i < records.length := by omega
  have hsplit : records = records.take (low + i) ++ records[low + i] :: records.drop (low + i + 1) := by
    rw [← List.drop_eq_getElem_cons hlt, List.take_append_drop]
  obtain ⟨hkey, hrecord⟩ := recordAt_of_split hdata hheader hsplit
    (hrecords _ (List.getElem_mem hlt)) hsize
  rw [List.length_take_of_le hlt.le] at hkey hrecord
  simp only [List.getElem_map, List.getElem_range', Nat.one_mul, List.getElem_drop]
  rw [hkey, hrecord]
  rfl

/-- **The records of an image.** -/
theorem records_eq (hdata : image.data = imageOf records generation)
    (hheader : image.header = imageHeader records generation)
    (hrecords : ∀ r ∈ records, r.encodable = true)
    (hsize : (imageOf records generation).length ≤ maxBaseBytes) :
    image.records = records.filter WordRecord.readable := by
  have hcount : image.header.entryCount = records.length := by rw [hheader]; rfl
  have hmap := map_keyAt_recordAt hdata hheader hrecords hsize 0
  have hsnd := congrArg (List.filterMap Prod.snd) hmap
  rw [List.filterMap_map, List.filterMap_map, List.drop_zero, Nat.sub_zero,
    ← List.range_eq_range'] at hsnd
  unfold BaseImage.records
  rw [hcount, ← filterMap_readRecord]
  exact hsnd

end Records

/-! ## The search -/

instance : Std.Total WordRecord.before where
  total l r := by
    rcases lt_trichotomy l.key r.key with h | h | h
    · exact Or.inl (Or.inl h)
    · rcases UInt32.le_total r.frequency l.frequency with hle | hle
      · exact Or.inl (Or.inr ⟨h, hle⟩)
      · exact Or.inr (Or.inr ⟨h.symm, hle⟩)
    · exact Or.inr (Or.inl h)

instance : IsTrans WordRecord WordRecord.before where
  trans a b c hab hbc := by
    rcases hab with hab | ⟨hab, hfab⟩
    · rcases hbc with hbc | ⟨hbc, -⟩
      · exact Or.inl (hab.trans hbc)
      · exact Or.inl (hbc ▸ hab)
    · rcases hbc with hbc | ⟨hbc, hfbc⟩
      · exact Or.inl (hab ▸ hbc)
      · exact Or.inr ⟨hab.trans hbc, UInt32.le_trans hfbc hfab⟩

/-- Sorted records. -/
theorem pairwise_sortRecords (records : List WordRecord) :
    (sortRecords records).Pairwise WordRecord.before :=
  List.pairwise_insertionSort _ _

/-- The keys of sorted records do not decrease. -/
theorem key_le_of_before {l r : WordRecord} (h : l.before r) : l.key ≤ r.key := by
  rcases h with h | ⟨h, -⟩
  · exact h.le
  · exact h.le

/-- From the first record on that is not before a key, the records of the key come
first. -/
theorem takeWhile_eq_filter {records : List WordRecord} {key : Bytes}
    (hsorted : records.Pairwise WordRecord.before) (hkey : ∀ r ∈ records, key ≤ r.key) :
    records.takeWhile (fun r => r.key = key) = records.filter (fun r => r.key = key) := by
  induction records with
  | nil => rfl
  | cons r records ih =>
    rw [List.pairwise_cons] at hsorted
    by_cases h : r.key = key
    · rw [List.takeWhile_cons_of_pos (by simpa using h), List.filter_cons_of_pos (by simpa using h),
        ih hsorted.2 (fun r' hr' => hkey r' (List.mem_cons_of_mem _ hr'))]
    · have hlt : key < r.key := lt_of_le_of_ne (hkey r List.mem_cons_self) (Ne.symm h)
      rw [List.takeWhile_cons_of_neg (by simpa using h), List.filter_cons_of_neg (by simpa using h)]
      symm
      rw [List.filter_eq_nil_iff]
      intro r' hr'
      have hle := hlt.trans_le (key_le_of_before (hsorted.1 r' hr'))
      simpa using hle.ne'

/-- **An image is searched as the list of its records.** -/
theorem lookup_eq {image : BaseImage} {records : List WordRecord} {generation : UInt32}
    (hdata : image.data = imageOf records generation)
    (hheader : image.header = imageHeader records generation)
    (hrecords : ∀ r ∈ records, r.encodable = true)
    (hsize : (imageOf records generation).length ≤ maxBaseBytes)
    (hsorted : records.Pairwise WordRecord.before) (key : Bytes) :
    image.lookup key = (records.filter (fun r => r.key = key)).filter WordRecord.readable := by
  have hcount : image.header.entryCount = records.length := by rw [hheader]; rfl
  have hkeyAt : ∀ i (hi : i < records.length), image.keyAt i = records[i].key := by
    intro i hi
    have hsplit : records = records.take i ++ records[i] :: records.drop (i + 1) := by
      rw [← List.drop_eq_getElem_cons hi, List.take_append_drop]
    have hkey := (recordAt_of_split hdata hheader hsplit (hrecords _ (List.getElem_mem hi)) hsize).1
    rwa [List.length_take_of_le hi.le] at hkey
  unfold BaseImage.lookup
  rw [hcount]
  set low := BinarySearch.partitionPoint (fun i => image.keyAt i < key) 0 records.length with hlow
  obtain ⟨-, hle, hbelow, habove⟩ := @BinarySearch.partitionPoint_spec
    (fun i => image.keyAt i < key) _ _ (Nat.zero_le records.length) (fun i j hij hj hbefore => by
      have hi : i < records.length := by omega
      simp only [decide_eq_true_eq, hkeyAt i hi, hkeyAt j hj] at hbefore ⊢
      rcases hij.eq_or_lt with rfl | hlt
      · exact hbefore
      · exact (key_le_of_before (List.pairwise_iff_getElem.mp hsorted i j hi hj hlt)).trans_lt
          hbefore)
  rw [← hlow] at hle hbelow habove
  have hmap := map_keyAt_recordAt hdata hheader hrecords hsize low
  have hfront : (records.take low).filter (fun r => r.key = key) = [] := by
    rw [List.filter_eq_nil_iff]
    intro r hr
    obtain ⟨i, hi, rfl⟩ := List.getElem_of_mem hr
    rw [List.length_take] at hi
    have hi' : i < records.length := by omega
    have hlt := hbelow i (Nat.zero_le i) (by omega)
    simp only [decide_eq_true_eq, hkeyAt i hi'] at hlt
    rw [List.getElem_take]
    simpa using hlt.ne
  have hback : (records.drop low).takeWhile (fun r => r.key = key)
      = (records.drop low).filter (fun r => r.key = key) := by
    refine takeWhile_eq_filter (hsorted.sublist (List.drop_sublist _ _)) (fun r hr => ?_)
    obtain ⟨i, hi, rfl⟩ := List.getElem_of_mem hr
    rw [List.length_drop] at hi
    have hi' : low + i < records.length := by omega
    have hnot := habove (low + i) (Nat.le_add_right _ _) hi'
    simp only [decide_eq_false_iff_not, hkeyAt (low + i) hi', not_lt] at hnot
    rwa [List.getElem_drop]
  calc ((List.range' low (records.length - low)).takeWhile
        (fun i => image.keyAt i = key)).filterMap image.recordAt
      = (((List.range' low (records.length - low)).map
          (fun i => (image.keyAt i, image.recordAt i))).takeWhile (fun e => e.1 = key)).filterMap
            Prod.snd := by
        rw [List.takeWhile_map, List.filterMap_map]
        rfl
    _ = ((records.drop low).takeWhile (fun r => r.key = key)).filterMap readRecord := by
        rw [hmap, List.takeWhile_map, List.filterMap_map]
        rfl
    _ = ((records.drop low).filter (fun r => r.key = key)).filter WordRecord.readable := by
        rw [hback, filterMap_readRecord]
    _ = (records.filter (fun r => r.key = key)).filter WordRecord.readable := by
        nth_rewrite 2 [← List.take_append_drop low records]
        rw [List.filter_append, hfront, List.nil_append]

end AzooKey.Host.English

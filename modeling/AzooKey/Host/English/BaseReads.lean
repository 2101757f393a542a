import AzooKey.Host.English.Base
import AzooKey.Lib.InsertionSort

/-!
# What the reader of the base reads

`KeyAt`, `RecordAt`, `Lookup` and `Records` of `inference-host/src/EnglishDictionaryFiles.cpp`
once more, with every access checked: a read outside of the image answers nothing, and so
does a search that takes more rounds than it is given. Whatever stands in an image that
`Validate` accepts, neither happens (`lookupChecked_eq`, `recordsChecked_eq`).

With what `Base` says of the images that `EncodeEnglishBase` writes this is the whole of
what the base promises (`englishBase_spec`).
-/

namespace AzooKey.Host.English

open LittleEndian
open Core.Dictionary (isValidUtf8 isValidUtf8_iff)

/-! ## Checked accesses -/

/-- `GetU16` and `GetU32`, checked. -/
def readChecked (data : Bytes) (offset width : ℕ) : Option ℕ :=
  if offset + width ≤ data.length then some (read data offset width) else none

/-- A text in place, checked. -/
def textChecked (data : Bytes) (offset length : ℕ) : Option Bytes :=
  if offset + length ≤ data.length then some ((data.drop offset).take length) else none

/-- A read inside of the bytes. -/
theorem readChecked_of_le {data : Bytes} {offset width : ℕ} (h : offset + width ≤ data.length) :
    readChecked data offset width = some (read data offset width) := if_pos h

/-- A text inside of the bytes. -/
theorem textChecked_of_le {data : Bytes} {offset length : ℕ} (h : offset + length ≤ data.length) :
    textChecked data offset length = some ((data.drop offset).take length) := if_pos h

namespace BaseImage

variable (image : BaseImage)

/-- `KeyAt`, checked. -/
def keyAtChecked (index : ℕ) : Option Bytes :=
  let p := image.recordOffset index
  (readChecked image.data p 4).bind fun offset =>
  (readChecked image.data (p + 4) 2).bind fun length =>
  if offset < image.header.stringsOffset ∨ image.data.length < offset + length then some []
  else textChecked image.data offset length

/-- `RecordAt`, checked. -/
def recordAtChecked (index : ℕ) : Option (Option WordRecord) :=
  let p := image.recordOffset index
  (readChecked image.data (p + 8) 4).bind fun offset =>
  (readChecked image.data (p + 6) 2).bind fun length =>
  (image.keyAtChecked index).bind fun key =>
  if key = [] ∨ offset < image.header.stringsOffset ∨ image.data.length < offset + length then
    some none
  else
    (textChecked image.data offset length).bind fun surface =>
    (readChecked image.data (p + 12) 4).bind fun frequency =>
    (readChecked image.data (p + 16) 1).bind fun flags =>
    if surface = [] ∨ !isValidUtf8 surface then some none
    else some (some ⟨key, surface, UInt32.ofNat frequency, UInt8.ofNat flags⟩)

/-- The run of a key, checked. -/
def runChecked (key : Bytes) : List ℕ → Option (List WordRecord)
  | [] => some []
  | i :: rest =>
    (image.keyAtChecked i).bind fun found =>
    if found ≠ key then some []
    else
      (image.recordAtChecked i).bind fun record =>
      (runChecked key rest).map (fun records => record.toList ++ records)

/-- **`Lookup`, checked**, with the rounds that the search may take. -/
def lookupChecked (fuel : ℕ) (key : Bytes) : Option (List WordRecord) :=
  (BinarySearch.rounds (fun i => (image.keyAtChecked i).map (fun found => decide (found < key)))
    fuel 0 image.header.entryCount).bind fun low =>
  image.runChecked key (List.range' low (image.header.entryCount - low))

/-- **`Records`, checked.** -/
def recordsChecked : Option (List WordRecord) :=
  ((List.range image.header.entryCount).mapM image.recordAtChecked).map
    (fun records => records.filterMap id)

end BaseImage

/-! ## No access is outside of the image -/

section Inside

variable {image : BaseImage} {index : ℕ}

/-- **The records lie inside of an image.** -/
theorem recordOffset_le (h : index < image.header.entryCount) :
    image.recordOffset index + recordSize ≤ image.data.length := by
  have hvalid := image.valid
  unfold validate at hvalid
  split_ifs at hvalid with hsize
  split at hvalid
  · cases hvalid
  · rename_i header hparse
    split_ifs at hvalid with hrange hhash
    cases hvalid
    have hinside := not_or.mp (not_or.mp (not_or.mp hrange).2).2
    have hcount : (index + 1) * recordSize ≤ image.header.entryCount * recordSize :=
      Nat.mul_le_mul_right _ h
    unfold BaseImage.recordOffset
    rw [Nat.add_mul, Nat.one_mul] at hcount
    omega

/-- `KeyAt` reads inside of the image. -/
theorem keyAtChecked_eq (h : index < image.header.entryCount) :
    image.keyAtChecked index = some (image.keyAt index) := by
  have hle := recordOffset_le h
  have hsize : recordSize = 20 := rfl
  unfold BaseImage.keyAtChecked BaseImage.keyAt
  dsimp only
  rw [readChecked_of_le (by omega), Option.bind_some, readChecked_of_le (by omega),
    Option.bind_some]
  split_ifs with hrange
  · rfl
  · rw [textChecked_of_le (not_lt.mp (not_or.mp hrange).2)]
    rfl

/-- `RecordAt` reads inside of the image. -/
theorem recordAtChecked_eq (h : index < image.header.entryCount) :
    image.recordAtChecked index = some (image.recordAt index) := by
  have hle := recordOffset_le h
  have hsize : recordSize = 20 := rfl
  unfold BaseImage.recordAtChecked BaseImage.recordAt
  dsimp only
  rw [readChecked_of_le (by omega), Option.bind_some, readChecked_of_le (by omega),
    Option.bind_some, keyAtChecked_eq h, Option.bind_some]
  by_cases hrange : image.keyAt index = []
      ∨ read image.data (image.recordOffset index + 8) 4 < image.header.stringsOffset
      ∨ image.data.length < read image.data (image.recordOffset index + 8) 4
        + read image.data (image.recordOffset index + 6) 2
  · rw [if_pos hrange, if_pos hrange]
  · have hinside := not_lt.mp (not_or.mp (not_or.mp hrange).2).2
    rw [if_neg hrange, if_neg hrange, textChecked_of_le hinside, Option.bind_some,
      readChecked_of_le (by omega), Option.bind_some, readChecked_of_le (by omega),
      Option.bind_some]
    unfold BaseImage.slice
    split_ifs <;> rfl

/-- The run of a key reads inside of the image. -/
theorem runChecked_eq (key : Bytes) {places : List ℕ}
    (h : ∀ i ∈ places, i < image.header.entryCount) :
    image.runChecked key places
      = some ((places.takeWhile (fun i => image.keyAt i = key)).filterMap image.recordAt) := by
  induction places with
  | nil => rfl
  | cons i places ih =>
    have hi := h i List.mem_cons_self
    rw [BaseImage.runChecked, keyAtChecked_eq hi, Option.bind_some]
    by_cases hkey : image.keyAt i = key
    · rw [if_neg (not_not.mpr hkey), recordAtChecked_eq hi, Option.bind_some,
        ih (fun j hj => h j (List.mem_cons_of_mem i hj)), Option.map_some,
        List.takeWhile_cons_of_pos (by simpa using hkey)]
      cases hrecord : image.recordAt i with
      | none => rw [List.filterMap_cons_none hrecord]; rfl
      | some record => rw [List.filterMap_cons_some hrecord]; rfl
    · rw [if_pos hkey, List.takeWhile_cons_of_neg (by simpa using hkey)]
      rfl

/-- **A lookup reads inside of the image**, and its search takes as many rounds as the
count of the records has binary digits. -/
theorem lookupChecked_eq {fuel : ℕ} (hfuel : image.header.entryCount < 2 ^ fuel) (key : Bytes) :
    image.lookupChecked fuel key = some (image.lookup key) := by
  unfold BaseImage.lookupChecked BaseImage.lookup
  have hsearch := @BinarySearch.rounds_eq
    (fun i => (image.keyAtChecked i).map (fun found => decide (found < key)))
    (fun i => decide (image.keyAt i < key)) fuel 0 image.header.entryCount (by omega)
    (fun i _ hi => by rw [keyAtChecked_eq hi]; rfl)
  rw [hsearch, Option.bind_some]
  refine runChecked_eq key (fun i hi => ?_)
  obtain ⟨hlow, hhigh⟩ := List.mem_range'_1.mp hi
  omega

/-- **The list of the records is read inside of the image.** -/
theorem recordsChecked_eq : image.recordsChecked = some image.records := by
  have hmap : ∀ places : List ℕ, (∀ i ∈ places, i < image.header.entryCount) →
      places.mapM image.recordAtChecked = some (places.map image.recordAt) := by
    intro places hplaces
    induction places with
    | nil => rfl
    | cons i places ih =>
      rw [List.mapM_cons, recordAtChecked_eq (hplaces i List.mem_cons_self),
        ih (fun j hj => hplaces j (List.mem_cons_of_mem i hj))]
      rfl
  unfold BaseImage.recordsChecked BaseImage.records
  rw [hmap _ (fun i hi => List.mem_range.mp hi), Option.map_some, List.filterMap_map]
  rfl

end Inside

/-! ## What is written is read -/

/-- **A stable sort of records** by their keys and then the most frequent first. -/
structure IsStableSort (sorted records : List WordRecord) : Prop where
  perm : sorted.Perm records
  pairwise : sorted.Pairwise WordRecord.before
  stable : ∀ key frequency,
    sorted.filter (fun r => decide (r.key = key ∧ r.frequency = frequency))
      = records.filter (fun r => decide (r.key = key ∧ r.frequency = frequency))

/-- `std::stable_sort` of the records is one. -/
theorem isStableSort_sortRecords (records : List WordRecord) :
    IsStableSort (sortRecords records) records where
  perm := List.perm_insertionSort _ _
  pairwise := pairwise_sortRecords records
  stable key frequency := by
    have hfilter := @filter_insertionSort _ WordRecord.before _
      (fun r => decide (r.key = key ∧ r.frequency = frequency)) records
      (fun a _ b _ => Std.Total.total a b) (fun a _ b _ c _ hab hbc => IsTrans.trans a b c hab hbc)
    refine hfilter.trans (List.Pairwise.insertionSort_eq ?_)
    refine List.pairwise_of_forall_mem_list (fun a ha b hb => Or.inr ?_)
    obtain ⟨hakey, hafrequency⟩ := of_decide_eq_true (List.mem_filter.mp ha).2
    obtain ⟨hbkey, hbfrequency⟩ := of_decide_eq_true (List.mem_filter.mp hb).2
    exact ⟨hakey.trans hbkey.symm, UInt32.le_of_eq (hbfrequency.trans hafrequency.symm)⟩

/-- A record that keeps to the limits of the image: it has a key and a surface that is
text, and both lengths fit into their fields. -/
structure WordRecord.Storable (r : WordRecord) : Prop where
  key_ne : r.key ≠ []
  key_length : r.key.length ≤ 0xFFFF
  surface_ne : r.surface ≠ []
  surface_length : r.surface.length ≤ 0xFFFF
  surface_text : ValidUtf8 r.surface
  surface_nul : 0 ∉ r.surface

/-- Such a record is written. -/
theorem WordRecord.Storable.encodable {r : WordRecord} (h : r.Storable) : r.encodable = true := by
  unfold WordRecord.encodable
  simp [h.key_ne, h.key_length, h.surface_length]

/-- Such a record is read. -/
theorem WordRecord.Storable.readable {r : WordRecord} (h : r.Storable) : r.readable = true := by
  unfold WordRecord.readable
  simp [h.surface_ne, isValidUtf8_iff.mpr ⟨h.surface_text, h.surface_nul⟩]

/-- An image that is validated is accepted from bytes. -/
theorem fromBytes_of_validate {data : Bytes} {header : BaseHeader}
    (h : validate data = some header) : BaseImage.fromBytes data = some ⟨data, header, h⟩ := by
  unfold BaseImage.fromBytes
  split
  · rename_i hnone
    rw [h] at hnone
    cases hnone
  · rename_i header' hsome
    obtain rfl : header = header' := Option.some.inj (h.symm.trans hsome)
    rfl

/-- **The base is written and read.** Records that keep to the limits are read back in
their order, and looked up by their keys; and whatever the bytes of an image are, nothing
outside of them is read and the search ends. -/
theorem englishBase_spec :
    (∀ (records : List WordRecord) (generation : UInt32), (∀ r ∈ records, r.Storable) →
        records.length ≤ maxEnglishBaseEntries →
        (encodeEnglishBase records generation).length ≤ maxBaseBytes →
        ∃ image sorted, BaseImage.fromBytes (encodeEnglishBase records generation) = some image
          ∧ IsStableSort sorted records ∧ image.records = sorted
          ∧ ∀ key, image.lookup key = sorted.filter (fun r => r.key = key))
      ∧ ∀ (data : Bytes) (image : BaseImage), BaseImage.fromBytes data = some image →
        image.recordsChecked = some image.records
          ∧ ∀ (fuel : ℕ) (key : Bytes), image.header.entryCount < 2 ^ fuel →
            image.lookupChecked fuel key = some (image.lookup key) := by
  constructor
  · intro records generation hstorable hcount hsize
    have hfilter : records.filter WordRecord.encodable = records :=
      List.filter_eq_self.mpr (fun r hr => (hstorable r hr).encodable)
    have hencode : encodeEnglishBase records generation = imageOf (sortRecords records) generation := by
      rw [encodeEnglishBase, hfilter]
    have hsort := isStableSort_sortRecords records
    have hencodable : ∀ r ∈ sortRecords records, r.encodable = true := fun r hr =>
      (hstorable r (hsort.perm.mem_iff.mp hr)).encodable
    have hreadable : ∀ r ∈ sortRecords records, r.readable = true := fun r hr =>
      (hstorable r (hsort.perm.mem_iff.mp hr)).readable
    rw [hencode] at hsize ⊢
    have hvalid := validate_imageOf (by rw [hsort.perm.length_eq]; exact hcount) hsize
    refine ⟨_, _, fromBytes_of_validate hvalid, hsort, ?_, fun key => ?_⟩
    · rw [records_eq rfl rfl hencodable hsize, List.filter_eq_self.mpr hreadable]
    · rw [lookup_eq rfl rfl hencodable hsize hsort.pairwise, List.filter_eq_self]
      exact fun r hr => hreadable r (List.mem_of_mem_filter hr)
  · intro data image _
    exact ⟨recordsChecked_eq, fun fuel key hfuel => lookupChecked_eq hfuel key⟩

/-- Two surfaces of a key, the rarer one first. -/
def teas : List WordRecord :=
  [⟨utf8 "tea", utf8 "tea", 3, 0⟩, ⟨utf8 "tea", utf8 "Tea", 5, 0⟩]

/-- The image of the two is read back. -/
theorem englishBase_spec_teas :
    ∃ image sorted, BaseImage.fromBytes (encodeEnglishBase teas 7) = some image
      ∧ IsStableSort sorted teas ∧ image.records = sorted
      ∧ image.lookup (utf8 "tea") = sorted.filter (fun r => r.key = utf8 "tea")
      ∧ image.lookupChecked image.header.entryCount (utf8 "tea")
        = some (image.lookup (utf8 "tea")) := by
  have hstorable : ∀ r ∈ teas, r.Storable := by
    intro r hr
    simp only [teas, List.mem_cons, List.not_mem_nil, or_false] at hr
    obtain rfl | rfl := hr
    · exact ⟨by decide, by decide, by decide, by decide, .of_all_ascii (by decide), by decide⟩
    · exact ⟨by decide, by decide, by decide, by decide, .of_all_ascii (by decide), by decide⟩
  have hsize : (encodeEnglishBase teas 7).length ≤ maxBaseBytes := by
    rw [encodeEnglishBase, length_imageOf]
    decide
  obtain ⟨image, sorted, hbytes, hsort, hrecords, hlookup⟩ :=
    englishBase_spec.1 teas 7 hstorable (by decide) hsize
  exact ⟨image, sorted, hbytes, hsort, hrecords, hlookup _,
    (englishBase_spec.2 _ image hbytes).2 _ _ Nat.lt_two_pow_self⟩

/-- A record with a key that is too long for its field. -/
def longKey : WordRecord := ⟨List.replicate 65536 0x61, [0x61], 1, 0⟩

/-- A key that is too long is not written. -/
theorem records_longKey :
    (longKey.key ≠ [] ∧ longKey.surface ≠ [] ∧ longKey.surface.length ≤ 0xFFFF
        ∧ ValidUtf8 longKey.surface ∧ 0 ∉ longKey.surface)
      ∧ (encodeEnglishBase [longKey] 0).length ≤ maxBaseBytes
      ∧ ∃ image, BaseImage.fromBytes (encodeEnglishBase [longKey] 0) = some image
        ∧ image.records = [] := by
  have hlength : longKey.key.length = 65536 := List.length_replicate
  have hlong : longKey.encodable = false := by
    unfold WordRecord.encodable
    rw [hlength]
    simp
  have hencode : encodeEnglishBase [longKey] 0 = imageOf [] 0 := by
    rw [encodeEnglishBase, List.filter_cons_of_neg (by rw [hlong]; exact Bool.false_ne_true)]
    rfl
  have hsize : (imageOf [] 0).length ≤ maxBaseBytes := by
    rw [length_imageOf]
    decide
  have hkey : longKey.key ≠ [] := by
    rw [← List.length_pos_iff, hlength]
    norm_num
  refine ⟨⟨hkey, List.cons_ne_nil _ _, by decide, .of_all_ascii (by decide), by decide⟩,
    by rw [hencode]; exact hsize, ?_⟩
  rw [hencode]
  have hvalid : validate (imageOf [] 0) = some (imageHeader [] 0) :=
    validate_imageOf (by decide) hsize
  refine ⟨_, fromBytes_of_validate hvalid, ?_⟩
  rw [records_eq rfl rfl (fun r hr => absurd hr List.not_mem_nil) hsize]
  rfl

end AzooKey.Host.English

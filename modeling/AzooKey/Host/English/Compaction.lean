import AzooKey.Host.English.Dictionary

/-!
# Compaction

A compaction puts the operations of the overlay into a new base and empties the
overlay, one write after the other. At every one of these steps the two files
are read as the old dictionary or as the new one, which means the same
(`lookups_survive_compaction`).

What is not checked is the size: readers refuse a base or a log that is too
large, and no writer asks whether it makes one. When a write is followed by a
file that can be read is said exactly by `writes_readable_iff`.
-/

namespace AzooKey.Host.English

open LittleEndian RawFile
open Core.Dictionary (isValidUtf8)

/-! ## The old base and the new one -/

/-- An image that is mapped is the file, with its header. -/
theorem of_map {file : Bytes} {image : BaseImage} (h : BaseImage.map file = some image) :
    image.data = file := by
  unfold BaseImage.map at h
  split at h
  · cases h
  unfold BaseImage.fromBytes at h
  split at h
  · cases h
  · cases h
    rfl

/-- What an accepted image has passed. -/
theorem BaseImage.checked (image : BaseImage) :
    image.data.length ≤ maxBaseBytes ∧ parseBaseHeader image.data = some image.header
      ∧ image.header.entryCount ≤ maxEnglishBaseEntries := by
  have hvalid := image.valid
  unfold validate at hvalid
  split at hvalid
  · cases hvalid
  rename_i hsize
  split at hvalid
  · cases hvalid
  rename_i header hheader
  split at hvalid
  · cases hvalid
  rename_i hbounds
  split at hvalid
  · cases hvalid
  cases hvalid
  exact ⟨not_lt.mp hsize, hheader, not_lt.mp (fun hlt => hbounds (Or.inl hlt))⟩

/-- The hash of an image is in its bytes. -/
theorem BaseImage.contentHash_eq (image : BaseImage) :
    image.header.contentHash = baseContentHash image.data := by
  have hparse := image.checked.2.1
  unfold parseBaseHeader at hparse
  split at hparse
  · cases hparse
  dsimp only at hparse
  split at hparse
  · cases hparse
  · rw [← Option.some.inj hparse]
    rfl

/-- The sorted records of a base. -/
theorem perm_sortRecords (records : List WordRecord) : (sortRecords records).Perm records :=
  List.perm_insertionSort _ _

/-- **A base that is accepted is the image of its sorted records.** -/
theorem isImage_of_map {records : List WordRecord} {generation : UInt32} {image : BaseImage}
    (h : BaseImage.map (encodeEnglishBase records generation) = some image) :
    IsImage image (sortRecords (records.filter WordRecord.encodable)) generation := by
  have hdata := of_map h
  obtain ⟨hsize, hparse, -⟩ := image.checked
  rw [hdata] at hsize hparse
  unfold encodeEnglishBase at hsize hparse hdata
  rw [parseBaseHeader_imageOf hsize] at hparse
  refine ⟨hdata, (Option.some.inj hparse).symm, fun r hr => ?_, hsize, pairwise_sortRecords _⟩
  exact (List.mem_filter.mp ((perm_sortRecords _).mem_iff.mp hr)).2

/-- Records in another order mean the same. -/
theorem Represents.perm {records records' : List WordRecord} {m : Meaning} (h : Represents records m)
    (hperm : records'.Perm records) : Represents records' m :=
  ⟨(hperm.map _).nodup_iff.mpr h.distinct, fun r hr => h.surface r (hperm.mem_iff.mp hr),
    fun r => hperm.mem_iff.trans (h.mem r)⟩

/-- The records of a base with distinct entries have a meaning. -/
theorem exists_represents_image {records : List WordRecord} {generation : UInt32}
    {image : BaseImage} (hdistinct : (records.map (fun r => (r.key, r.surface))).Nodup)
    (h : IsImage image (sortRecords (records.filter WordRecord.encodable)) generation) :
    ∃ m, Represents image.records m := by
  rw [records_eq h.data h.header h.encodable h.size]
  refine exists_represents ?_ (fun r hr => ?_)
  · have hperm := (perm_sortRecords (records.filter WordRecord.encodable)).map
      (fun r => (r.key, r.surface))
    refine List.Nodup.sublist (List.filter_sublist.map _) (hperm.nodup_iff.mpr ?_)
    exact hdistinct.sublist (List.filter_sublist.map _)
  · have hreadable := (List.mem_filter.mp hr).2
    unfold WordRecord.readable at hreadable
    rw [Bool.and_eq_true, Bool.not_eq_true', List.isEmpty_eq_false_iff] at hreadable
    exact hreadable.1

/-- The operations that count for a base can be logged. -/
theorem wellFormed_overlayOps {overlay : Bytes} {hash : UInt32} :
    ∀ op ∈ overlayOps overlay hash, op.WellFormed := by
  intro op hop
  unfold overlayOps at hop
  split at hop
  · cases hop
  · rename_i c hread
    split at hop
    · obtain ⟨-, tail, hlog⟩ := readEnglishOverlay_eq_some_iff.mp hread
      exact hlog.wellFormed op hop
    · cases hop

/-- **A merged record is one of the base or one of an operation.** -/
theorem mem_mergeOverlayOps {records : List WordRecord} {ops : List OverlayOp} {r : WordRecord}
    (hr : r ∈ mergeOverlayOps records ops) :
    r ∈ records ∨ ∃ op ∈ ops, op.surface ≠ [] ∧ r = op.record := by
  have hslots : ∀ slot ∈ ops.foldl mergeOp (records.map (·, false)),
      slot.1 ∈ records ∨ ∃ op ∈ ops, op.surface ≠ [] ∧ slot.1 = op.record := by
    clear hr
    induction ops using List.reverseRecOn with
    | nil =>
      intro slot hslot
      obtain ⟨r, hr, rfl⟩ := List.mem_map.mp hslot
      exact Or.inl hr
    | append_singleton ops op ih =>
      have hold : ∀ slot ∈ ops.foldl mergeOp (records.map (·, false)), slot.1 ∈ records
          ∨ ∃ op' ∈ ops ++ [op], op'.surface ≠ [] ∧ slot.1 = op'.record := fun slot hslot =>
        (ih slot hslot).imp_right (fun ⟨op', hop', h⟩ => ⟨op', List.mem_append_left _ hop', h⟩)
      -- a slot that is changed keeps its record or gets that of the operation
      have hchanged : ∀ {f : WordRecord × Bool → WordRecord × Bool} {slots' slot},
          (∀ a, (f a).1 = a.1 ∨ op.surface ≠ [] ∧ (f a).1 = op.record) →
          modifyLast (isEntryOf op) f (ops.foldl mergeOp (records.map (·, false))) = some slots' →
          slot ∈ slots' → slot.1 ∈ records
            ∨ ∃ op' ∈ ops ++ [op], op'.surface ≠ [] ∧ slot.1 = op'.record := by
        intro f slots' slot hf hmodify hslot
        obtain ⟨pre, a, post, hslots, -, rfl⟩ := modifyLast_eq_some hmodify
        have hin : ∀ slot, slot ∈ pre ∨ slot = a ∨ slot ∈ post →
            slot ∈ ops.foldl mergeOp (records.map (·, false)) := by
          intro slot h
          rw [hslots, List.mem_append, List.mem_cons]
          exact h
        rcases List.mem_append.mp hslot with hpre | hrest
        · exact hold slot (hin slot (Or.inl hpre))
        rcases List.mem_cons.mp hrest with rfl | hpost
        · rcases hf a with hsame | ⟨hsurface, hrecord⟩
          · rw [hsame]
            exact hold a (hin a (Or.inr (Or.inl rfl)))
          · exact Or.inr ⟨op, List.mem_append_right _ List.mem_cons_self, hsurface, hrecord⟩
        · exact hold slot (hin slot (Or.inr (Or.inr hpost)))
      intro slot hslot
      rw [List.foldl_append, List.foldl_cons, List.foldl_nil, mergeOp] at hslot
      split at hslot
      · cases hmodify : modifyLast (isEntryOf op) (fun slot => (slot.1, true))
            (ops.foldl mergeOp (records.map (·, false))) with
        | none =>
          rw [hmodify] at hslot
          exact hold slot hslot
        | some slots' =>
          rw [hmodify] at hslot
          exact hchanged (f := fun slot => (slot.1, true)) (fun a => Or.inl rfl) hmodify hslot
      split at hslot
      · exact hold slot hslot
      rename_i hsurface
      cases hmodify : modifyLast (isEntryOf op) (fun _ => (op.record, false))
          (ops.foldl mergeOp (records.map (·, false))) with
      | none =>
        rw [hmodify, Option.getD_none, List.mem_append, List.mem_singleton] at hslot
        rcases hslot with hslot | rfl
        · exact hold slot hslot
        · exact Or.inr ⟨op, List.mem_append_right _ List.mem_cons_self, hsurface, rfl⟩
      | some slots' =>
        rw [hmodify] at hslot
        exact hchanged (f := fun _ => (op.record, false)) (fun a => Or.inr ⟨hsurface, rfl⟩) hmodify hslot
  obtain ⟨slot, hslot, rfl⟩ := List.mem_map.mp hr
  exact hslots slot (List.mem_of_mem_filter hslot)

/-- A record that is read fits its fields and has a surface that is text. -/
theorem of_recordAt {image : BaseImage} {index : ℕ} {r : WordRecord}
    (h : image.recordAt index = some r) : r.encodable = true ∧ r.readable = true := by
  have hslice : ∀ offset place : ℕ,
      (image.slice offset (read image.data place 2)).length ≤ 0xFFFF := by
    intro offset place
    unfold BaseImage.slice
    have hlt := decode_lt ((image.data.drop place).take 2)
    have hpow : 256 ^ ((image.data.drop place).take 2).length ≤ 256 ^ 2 :=
      Nat.pow_le_pow_right (by norm_num) (List.length_take_le _ _)
    have hread : read image.data place 2 < 256 ^ 2 := hlt.trans_le hpow
    exact (List.length_take_le _ _).trans (by omega)
  have hkeyAt : (image.keyAt index).length ≤ 0xFFFF := by
    unfold BaseImage.keyAt
    dsimp only
    split
    · exact Nat.zero_le _
    · exact hslice _ _
  unfold BaseImage.recordAt at h
  dsimp only at h
  split at h
  · cases h
  rename_i hrange
  split at h
  · cases h
  rename_i hsurface
  cases h
  rw [not_or] at hrange hsurface
  constructor
  · simp [WordRecord.encodable, hrange.1, hkeyAt, hslice]
  · simpa [WordRecord.readable, hsurface.1] using hsurface.2

/-- **The records that a compaction writes are all kept and read.** -/
theorem encodable_readable_mergedRecords (image : BaseImage) (overlay : Bytes) :
    ∀ r ∈ mergedRecords image overlay, r.encodable = true ∧ r.readable = true := by
  intro r hr
  rcases mem_mergeOverlayOps hr with hr | ⟨op, hop, hsurface, rfl⟩
  · obtain ⟨index, -, hindex⟩ := List.mem_filterMap.mp hr
    exact of_recordAt hindex
  · have hwell := wellFormed_overlayOps op hop
    constructor
    · simp [WordRecord.encodable, OverlayOp.record, hwell.key_ne, hwell.key_length,
        hwell.surface_length]
    · simp [WordRecord.readable, OverlayOp.record, hsurface, hwell.surface_valid]

/-- A compaction writes all the records that it has merged. -/
theorem filter_encodable_mergedRecords (image : BaseImage) (overlay : Bytes) :
    (mergedRecords image overlay).filter WordRecord.encodable = mergedRecords image overlay :=
  List.filter_eq_self.mpr (fun r hr => (encodable_readable_mergedRecords image overlay r hr).1)

/-- **The new base means what the operations mean over the old one.** -/
theorem represents_newBase {image image' : BaseImage} {generation' : UInt32} {m : Meaning}
    (hm : Represents image.records m) {overlay : Bytes}
    (hmap : BaseImage.map (encodeEnglishBase (mergedRecords image overlay) generation')
      = some image') :
    Represents image'.records (m.after (overlayOps overlay image.header.contentHash)) := by
  have hall := encodable_readable_mergedRecords image overlay
  have himage := isImage_of_map hmap
  rw [records_eq himage.data himage.header himage.encodable himage.size,
    filter_encodable_mergedRecords]
  have hperm := perm_sortRecords (mergedRecords image overlay)
  have hread : (sortRecords (mergedRecords image overlay)).filter WordRecord.readable
      = sortRecords (mergedRecords image overlay) :=
    List.filter_eq_self.mpr (fun r hr => (hall r (hperm.mem_iff.mp hr)).2)
  rw [hread]
  exact (represents_mergeOverlayOps hm _).perm hperm

/-! ## Lookups during a compaction -/

/-- An overlay that is read has its header. -/
theorem header_of_readEnglishOverlay {overlay : Bytes} {c : OverlayContents}
    (h : readEnglishOverlay overlay = some c) :
    readEnglishOverlayHeader overlay = some c.header := by
  obtain ⟨hcount, tail, hlog⟩ := readEnglishOverlay_eq_some_iff.mp h
  refine readEnglishOverlayHeader_eq_some_iff.mpr ⟨encodeFrames c.ops ++ tail, ?_⟩
  rw [hcount]
  exact hlog.file_eq

/-- **No operation counts for the new base**, however far its overlay is emptied. -/
theorem overlayOps_stopped {overlay : Bytes} {hash hash' : UInt32}
    (hoverlay : ∀ header, readEnglishOverlayHeader overlay = some header →
      header.baseFingerprint = hash) (hne : hash' ≠ hash) (n : ℕ) :
    overlayOps (stopped overlay (reinitWrites hash') n) hash' = [] := by
  unfold overlayOps
  split
  · rfl
  · rename_i c hread
    by_cases hn : n = 0
    · rw [hn, stopped_zero] at hread
      have hold := hoverlay c.header (header_of_readEnglishOverlay hread)
      rw [if_neg (fun heq => hne (heq.symm.trans hold))]
    · rw [(stopped_reinitWrites overlay hash').1 n c (Nat.pos_of_ne_zero hn) hread]
      exact ite_self _

/-- **What a compaction has found when it writes.** -/
theorem compactEnglishDictionary_eq_some {stale : Bool} {base overlay bytes : Bytes}
    {writes : List Write}
    (h : compactEnglishDictionary stale base overlay = some (bytes, writes)) :
    ∃ image, BaseImage.map base = some image
      ∧ (mergedRecords image overlay).length ≤ maxEnglishBaseEntries
      ∧ bytes = encodeEnglishBase (mergedRecords image overlay) (image.header.generation + 1)
      ∧ writes = reinitWrites (baseContentHash bytes) := by
  unfold compactEnglishDictionary at h
  split at h
  · cases h
  split at h
  · cases h
  rename_i image hmap
  split at h
  · cases h
  split at h
  · cases h
  rename_i hcount
  cases h
  exact ⟨image, hmap, not_lt.mp hcount, rfl, rfl⟩

/-- A base is accepted unless it is too large or has too many records. -/
theorem exists_map_encodeEnglishBase {records : List WordRecord} {generation : UInt32}
    (hcount : records.length ≤ maxEnglishBaseEntries)
    (hsize : (encodeEnglishBase records generation).length ≤ maxBaseBytes) :
    ∃ image, BaseImage.map (encodeEnglishBase records generation) = some image := by
  have hlength : (sortRecords (records.filter WordRecord.encodable)).length ≤ maxEnglishBaseEntries := by
    rw [(perm_sortRecords _).length_eq]
    exact (List.length_filter_le _ _).trans hcount
  obtain ⟨image, hmap, -, -⟩ := exists_map_imageOf hlength hsize
  exact ⟨image, hmap⟩

/-- **A lookup survives a compaction**, wherever it stops: the same entries are
found, in the order of their frequencies. -/
theorem lookups_survive_compaction (records : List WordRecord) (generation : UInt32)
    (overlay : Bytes) (stale : Bool) (key : Bytes) (n : ℕ)
    (hdistinct : (records.map (fun r => (r.key, r.surface))).Nodup)
    (hoverlay : ∀ header, readEnglishOverlayHeader overlay = some header →
      header.baseFingerprint = baseContentHash (encodeEnglishBase records generation))
    (hmerged : ∀ bytes writes,
      compactEnglishDictionary stale (encodeEnglishBase records generation) overlay
        = some (bytes, writes) →
      bytes.length ≤ maxBaseBytes
        ∧ baseContentHash bytes ≠ baseContentHash (encodeEnglishBase records generation)) :
    let base := encodeEnglishBase records generation
    let files := stoppedCompaction stale base overlay n
    (lookupFiles files.1 files.2 key).Perm (lookupFiles base overlay key)
      ∧ OrderedByFrequency (lookupFiles files.1 files.2 key) := by
  intro base files
  have hordered : ∀ overlay' : Bytes, OrderedByFrequency (lookupFiles base overlay' key) := by
    intro overlay'
    unfold lookupFiles
    cases hmap : BaseImage.map base with
    | none => exact List.Pairwise.nil
    | some image => exact ordered_lookup (isImage_of_map hmap) _ key
  have hsame : files = (base, overlay) → (lookupFiles files.1 files.2 key).Perm
      (lookupFiles base overlay key) ∧ OrderedByFrequency (lookupFiles files.1 files.2 key) := by
    intro hfiles
    rw [hfiles]
    exact ⟨List.Perm.refl _, hordered overlay⟩
  cases n with
  | zero => exact hsame rfl
  | succ n =>
    cases hcompact : compactEnglishDictionary stale base overlay with
    | none =>
      refine hsame ?_
      show stoppedCompaction stale base overlay (n + 1) = _
      unfold stoppedCompaction
      rw [hcompact]
    | some result =>
      obtain ⟨bytes, writes⟩ := result
      obtain ⟨hsize, hhash⟩ := hmerged bytes writes hcompact
      have hfiles : files = (bytes, stopped overlay writes n) := by
        show stoppedCompaction stale base overlay (n + 1) = _
        unfold stoppedCompaction
        rw [hcompact]
      obtain ⟨image, hmap, hcount, hbytes, hwrites⟩ := compactEnglishDictionary_eq_some hcompact
      have himage := isImage_of_map hmap
      obtain ⟨m, hm⟩ := exists_represents_image hdistinct himage
      rw [hbytes] at hsize
      obtain ⟨image', hmap'⟩ := exists_map_encodeEnglishBase hcount hsize
      have himage' := isImage_of_map hmap'
      have hm' := represents_newBase hm hmap'
      have hnewHash : image'.header.contentHash = baseContentHash bytes := by
        rw [image'.contentHash_eq, of_map hmap', hbytes]
      have holdHash : image.header.contentHash = baseContentHash base := by
        rw [image.contentHash_eq, of_map hmap]
      -- the two dictionaries that a reader can meet
      have hold : lookupFiles base overlay key = (EnglishDictionary.new (some image)
          (overlayOps overlay image.header.contentHash)).lookup key := by
        unfold lookupFiles
        rw [hmap]
      have hnew : lookupFiles files.1 files.2 key
          = (EnglishDictionary.new (some image') []).lookup key := by
        have hops : overlayOps (stopped overlay writes n) image'.header.contentHash = [] := by
          rw [hnewHash, hwrites]
          exact overlayOps_stopped hoverlay hhash n
        rw [hfiles]
        unfold lookupFiles
        rw [hbytes, hmap']
        dsimp only
        rw [hops]
      rw [hold, hnew]
      refine ⟨?_, ordered_lookup himage' [] key⟩
      rw [List.perm_ext_iff_of_nodup (nodup_lookup himage' hm' [] key) (nodup_lookup himage hm _ key)]
      intro e
      rw [mem_lookup himage' hm', mem_lookup himage hm]
      rfl

/-- A compaction of one word, of which the overlay changes the surface, that is
stopped when the new base is in place and the overlay was not emptied. -/
theorem lookups_survive_compaction_oneWord :
    let base := encodeEnglishBase [⟨utf8 "go", utf8 "Go", 5, 0⟩] 0
    let overlay := logHead overlayMagic (baseContentHash base) 1
      ++ encodeFrames [⟨.upsert, 0, utf8 "go", utf8 "GO", 7⟩]
    let files := stoppedCompaction false base overlay 1
    (lookupFiles files.1 files.2 (utf8 "go")).Perm (lookupFiles base overlay (utf8 "go"))
      ∧ OrderedByFrequency (lookupFiles files.1 files.2 (utf8 "go")) := by
  intro base overlay
  refine lookups_survive_compaction [⟨utf8 "go", utf8 "Go", 5, 0⟩] 0 overlay false (utf8 "go") 1
    (by decide) (fun header hheader => ?_) (fun bytes writes hcompact => ?_)
  · have hown : readEnglishOverlayHeader overlay = some ⟨baseContentHash base, 1⟩ :=
      readEnglishOverlayHeader_eq_some_iff.mpr ⟨_, rfl⟩
    rw [← Option.some.inj (hown.symm.trans hheader)]
  · have hchecked : (compactEnglishDictionary false base overlay).all (fun result =>
        decide (result.1.length ≤ maxBaseBytes
          ∧ baseContentHash result.1 ≠ baseContentHash base)) = true := by
      decide +kernel
    rw [hcompact] at hchecked
    exact of_decide_eq_true hchecked

/-! ## Files that their writers make too large -/

/-- An overlay whose frames do not fit cannot be read. -/
theorem readEnglishOverlay_of_lt {field count : UInt32} {body : Bytes}
    (h : maxOverlayBytes < body.length) :
    readEnglishOverlay (logHead overlayMagic field count ++ body) = none := by
  unfold readEnglishOverlay
  rw [(take_logHead_append length_overlayMagic field count body).2]
  split
  · rfl
  · exact if_pos h

/-- **An overlay can be read after an append if and only if the frames fit.** -/
theorem isSome_readEnglishOverlay_after_iff {file : Bytes} {hash : UInt32} {op : OverlayOp}
    (hop : op.WellFormed) {ws : List Write} (hws : appendEnglishOverlayOp file hash op = some ws) :
    (readEnglishOverlay (after file ws)).isSome ↔ OverlayFits file hash op := by
  have hlast : ∀ (g : Bytes) (ws : List Write), after g ws = stopped g ws ws.length :=
    fun g ws => (stopped_of_le (Nat.le_refl _)).symm
  by_cases hmatches : Matches file hash
  · obtain ⟨c, hread, hhash⟩ := hmatches
    obtain ⟨-, tail, hlog⟩ := readEnglishOverlay_eq_some_iff.mp hread
    rw [hhash] at hlog
    rw [overlayFits_iff hlog]
    constructor
    · intro hsome
      by_contra hlarge
      rw [appendEnglishOverlayOp_of_isLog hlog hop.accepted] at hws
      rw [← Option.some.inj hws, hlast,
        (stopped_appendWrites hlog length_overlayMagic op _ _).2.2 (Nat.le_refl _),
        readEnglishOverlay_of_lt (not_le.mp hlarge)] at hsome
      cases hsome
    · intro hfits
      rw [hlast, readEnglishOverlay_stopped hread hhash hop hfits hws]
      rfl
  · -- the overlay is emptied first, and one frame always fits
    have hfits : OverlayFits file hash op :=
      fun c hread hhash => absurd ⟨c, hread, hhash⟩ hmatches
    refine iff_of_true ?_ hfits
    have hempty := isLog_empty hash
    have happend := appendEnglishOverlayOp_of_isLog hempty hop.accepted
    have hone : (encodeFrames ([] ++ [op])).length ≤ maxOverlayBytes := by
      rw [List.nil_append, encodeFrames_singleton]
      exact length_encodeFrame_le hop
    have hstep := readEnglishOverlay_stopped hempty.read rfl hop hone happend
      (appendWrites (logHead overlayMagic hash 0).length (16 + (encodeFrames []).length) op
        (UInt32.ofNat ([] : List OverlayOp).length + 1)).length
    rw [length_logHead length_overlayMagic] at hstep
    rw [appendEnglishOverlayOp_of_not_matches hmatches hws, after_append,
      (stopped_reinitWrites file hash).2, hlast]
    exact Option.isSome_iff_exists.mpr ⟨_, hstep⟩

/-- **A journal can be read after an append if and only if the frames fit.** -/
theorem exists_load_after_iff {file : Bytes} {op : OverlayOp} (hop : op.WellFormed)
    {ws : List Write} (hws : appendEnglishJournalOp file op = .appended ws) :
    (∃ ops endOffset, loadEnglishJournal (after file ws) = .ok ops endOffset)
      ↔ JournalFits file (.append op) := by
  have hencode : ∀ {ops : List OverlayOp}, (∀ o ∈ ops, o.WellFormed) →
      ((∃ ops' endOffset, loadEnglishJournal (encodeJournal ops) = .ok ops' endOffset)
        ↔ (encodeFrames ops).length ≤ maxOverlayBytes) := by
    intro ops hops
    refine ⟨fun ⟨ops', endOffset, hload⟩ => not_lt.mp fun hlarge => ?_,
      fun hfits => ⟨ops, _, (isLog_encodeJournal hops hfits).load⟩⟩
    have hlost : loadEnglishJournal (encodeJournal ops) = .unavailable :=
      loadEnglishJournal_of_lt hlarge
    exact absurd (hlost.symm.trans hload) (by simp)
  unfold appendEnglishJournalOp at hws
  rw [hop.accepted] at hws
  cases hload : loadEnglishJournal file with
  | unavailable => simp [hload] at hws
  | corrupt => simp [hload] at hws
  | missing =>
    rw [hload] at hws
    obtain rfl := JournalAppend.appended.inj hws
    have hfits : JournalFits file (.append op) := by
      intro ops endOffset hok
      rw [hload] at hok
      cases hok
    refine iff_of_true ((hencode (wellFormed_rewritten (by simp) hop)).mpr ?_) hfits
    show (encodeFrames [op]).length ≤ maxOverlayBytes
    rw [encodeFrames_singleton]
    exact length_encodeFrame_le hop
  | ok ops endOffset =>
    have hfits : JournalFits file (.append op) ↔ journalFull ops op = true
        ∨ (encodeFrames (journalAfter ops op)).length ≤ maxOverlayBytes := by
      refine ⟨fun h => h ops endOffset hload, fun h ops' endOffset' hload' => ?_⟩
      obtain ⟨rfl, -⟩ := JournalLoad.ok.inj (hload.symm.trans hload')
      exact h
    obtain ⟨rfl, field, tail, hlog⟩ := loadEnglishJournal_eq_ok_iff.mp hload
    rw [hload] at hws
    dsimp only at hws
    by_cases hfull : journalFull ops op = true
    · rw [hfull] at hws
      cases hws
    rw [hfits, or_iff_right hfull]
    unfold journalAfter
    rw [Bool.not_eq_true] at hfull
    rw [hfull] at hws
    by_cases hgrown : journalOutgrown ops op = true
    · rw [hgrown] at hws
      rw [if_pos hgrown, ← JournalAppend.appended.inj hws]
      exact hencode (wellFormed_rewritten hlog.wellFormed hop)
    · rw [Bool.not_eq_true] at hgrown
      rw [hgrown] at hws
      rw [hgrown, if_neg Bool.false_ne_true, ← JournalAppend.appended.inj hws,
        ← stopped_of_le (Nat.le_refl _)]
      refine ⟨fun ⟨ops', endOffset', hload'⟩ => not_lt.mp fun hlarge => ?_, fun hfit =>
        ⟨_, _, ((isLog_stopped_appendWrites hlog length_journalMagic hop hfit _).2
          (Nat.le_refl _)).load⟩⟩
      rw [(stopped_appendWrites hlog length_journalMagic op _ _).2.2 (Nat.le_refl _),
        loadEnglishJournal_of_lt hlarge] at hload'
      cases hload'

/-- The size of the image of some records. -/
def imageSize (records : List WordRecord) : ℕ :=
  (records.map (fun r => recordSize + (poolTexts r).length)).sum + englishBaseHeaderSize

/-- The records in another order take as much. -/
theorem imageSize_perm {records records' : List WordRecord} (h : records.Perm records') :
    imageSize records = imageSize records' := by
  unfold imageSize
  rw [(h.map _).sum_eq]

/-- An image has its size. -/
theorem length_imageOf_eq_imageSize (records : List WordRecord) (generation : UInt32) :
    (imageOf records generation).length = imageSize records := by
  rw [length_imageOf]
  unfold stringsOffsetOf imageSize
  induction records with
  | nil => rfl
  | cons r records ih =>
    rw [List.flatMap_cons, List.length_append, List.length_cons, List.map_cons, List.sum_cons,
      Nat.succ_mul]
    omega

/-- **The base that a compaction writes is accepted if and only if its records
fit.** -/
theorem isSome_map_iff {stale : Bool} {base overlay bytes : Bytes} {writes : List Write}
    (h : compactEnglishDictionary stale base overlay = some (bytes, writes)) :
    (BaseImage.map bytes).isSome ↔ ∀ image, BaseImage.map base = some image →
      imageSize (mergedRecords image overlay) ≤ maxBaseBytes := by
  obtain ⟨image, hmap, hcount, rfl, -⟩ := compactEnglishDictionary_eq_some h
  have hlength : (encodeEnglishBase (mergedRecords image overlay) (image.header.generation + 1)).length
      = imageSize (mergedRecords image overlay) := by
    unfold encodeEnglishBase
    rw [length_imageOf_eq_imageSize, filter_encodable_mergedRecords,
      imageSize_perm (perm_sortRecords _)]
  rw [hmap]
  constructor
  · rintro hsome image' ⟨rfl⟩
    refine not_lt.mp fun hlarge => ?_
    rw [← hlength] at hlarge
    unfold encodeEnglishBase at hlarge hsome
    rw [map_imageOf_of_lt hlarge] at hsome
    cases hsome
  · intro hfits
    obtain ⟨image', hmap'⟩ := @exists_map_encodeEnglishBase _ (image.header.generation + 1)
      hcount (hlength.le.trans (hfits image rfl))
    exact Option.isSome_iff_exists.mpr ⟨image', hmap'⟩

/-- **When a file can be read after it was written.** No writer checks the size
of what it makes, so each of them does so exactly when that fits. -/
theorem writes_readable_iff (overlay journal base : Bytes) (hash : UInt32) (op : OverlayOp)
    (stale : Bool) (hop : isValidUtf8 op.key = true ∧ isValidUtf8 op.surface = true) :
    (∀ ws, appendEnglishOverlayOp overlay hash op = some ws →
      ((readEnglishOverlay (after overlay ws)).isSome ↔ OverlayFits overlay hash op))
    ∧ (∀ ws, appendEnglishJournalOp journal op = .appended ws →
      ((∃ ops endOffset, loadEnglishJournal (after journal ws) = .ok ops endOffset)
        ↔ JournalFits journal (.append op)))
    ∧ (∀ bytes ws, compactEnglishDictionary stale base overlay = some (bytes, ws) →
      ((BaseImage.map bytes).isSome ↔ ∀ image, BaseImage.map base = some image →
        imageSize (mergedRecords image overlay) ≤ maxBaseBytes)) := by
  have hwell : op.accepted = true → op.WellFormed := by
    intro haccepted
    simp only [OverlayOp.accepted, Bool.and_eq_true, Bool.not_eq_true', List.isEmpty_eq_false_iff,
      decide_eq_true_eq] at haccepted
    exact ⟨haccepted.1.1, haccepted.1.2, haccepted.2, hop.1, hop.2⟩
  refine ⟨fun ws hws => ?_, fun ws hws => ?_, fun bytes ws h => isSome_map_iff h⟩
  · refine isSome_readEnglishOverlay_after_iff (hwell ?_) hws
    by_contra hrefused
    simp [appendEnglishOverlayOp, hrefused] at hws
  · refine exists_load_after_iff (hwell ?_) hws
    by_contra hrefused
    rw [Bool.not_eq_true] at hrefused
    simp [appendEnglishJournalOp, hrefused] at hws

/-- An overlay that is filled to the limit. -/
def largeOverlay : Bytes := logHead overlayMagic 0 (UInt32.ofNat largeOps.length) ++ encodeFrames largeOps

/-- It is a log. -/
theorem isLog_largeOverlay : IsLog overlayMagic 0 largeOps [] largeOverlay := by
  refine ⟨by rw [List.append_nil]; rfl, fun op hop => ?_, ?_⟩
  · obtain ⟨i, hi, rfl⟩ := List.mem_map.mp hop
    have hi := List.mem_range.mp hi
    exact wellFormed_largeOp (by omega)
  · unfold largeOps
    rw [List.append_nil, length_encodeFrames_largeOp, List.length_range]
    decide

/-- One frame more does not fit into it. -/
theorem not_overlayFits_largeOverlay : ¬ OverlayFits largeOverlay 0 (largeOp 512) := by
  have hframes : largeOps ++ [largeOp 512] = (List.range 512 ++ [512]).map largeOp := by
    rw [List.map_append, List.map_singleton]
    unfold largeOps
    rfl
  rw [overlayFits_iff isLog_largeOverlay, hframes, length_encodeFrames_largeOp, List.length_append,
    List.length_range]
  decide

/-- A word is accepted for an overlay that holds one and has room, and can be read
behind it. -/
theorem writes_readable_iff_oneOp :
    (∀ ws, appendEnglishOverlayOp goOverlay 0 goOp = some ws →
        ((readEnglishOverlay (after goOverlay ws)).isSome ↔ OverlayFits goOverlay 0 goOp))
      ∧ ∃ ws, appendEnglishOverlayOp goOverlay 0 goOp = some ws
        ∧ (readEnglishOverlay (after goOverlay ws)).isSome := by
  have hop := wellFormed_goOp
  have hreadable := (writes_readable_iff goOverlay [] [] 0 goOp false ⟨hop.key_valid, hop.surface_valid⟩).1
  have happend := appendEnglishOverlayOp_of_isLog isLog_goOverlay hop.accepted
  exact ⟨hreadable, _, happend,
    (hreadable _ happend).mpr ((overlayFits_iff isLog_goOverlay).mpr (by decide))⟩

/-- **An overlay that is filled to the limit is lost with the next word**: the
append answers that all is well. -/
theorem not_readable_largeOverlay :
    ¬ ∀ (file : Bytes) (hash : UInt32) (op : OverlayOp) (ws : List Write), op.WellFormed →
      appendEnglishOverlayOp file hash op = some ws →
      (readEnglishOverlay (after file ws)).isSome := by
  intro h
  have hop : (largeOp 512).WellFormed := wellFormed_largeOp (by omega)
  have happend := appendEnglishOverlayOp_of_isLog isLog_largeOverlay hop.accepted
  exact not_overlayFits_largeOverlay
    ((isSome_readEnglishOverlay_after_iff hop happend).mp (h _ _ _ _ hop happend))

end AzooKey.Host.English

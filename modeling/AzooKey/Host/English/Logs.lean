import AzooKey.Host.English.Frames

/-!
# The overlay and the journal

`inference-host/src/EnglishDictionaryFiles.cpp`: how the two logs are read and
how an operation is appended to them. An append writes the frame first and the
number of frames last, so that a writer that stops in between leaves bytes
behind the counted frames, which no reader looks at and which the next append
cuts off. The overlay names the base it belongs to; one that belongs to another
base is emptied before anything is appended. The journal is rewritten, with the
latest operation of each entry, when it has grown too long.

`IsLog` is the shape that all of this has in common, and the lemmas about
`appendWrites` say what an append makes of it, at each point where it may stop.
-/

namespace AzooKey.Host.English

open LittleEndian RawFile

/-! ## The shape of a log -/

/-- The header of a log: its magic, its version, a field, and the number of its
frames. -/
def logHead (magic : Bytes) (field count : UInt32) : Bytes :=
  magic ++ u32 1 ++ u32 field ++ u32 count

/-- The field and the count of a header, if it is one. -/
def parseLogHead (magic head : Bytes) : Option (UInt32 × UInt32) :=
  if head.take 4 ≠ magic ∨ getU32 (head.drop 4) ≠ 1 then none
  else some (getU32 (head.drop 8), getU32 (head.drop 12))

/-- **A log with some operations**, and bytes behind them. -/
structure IsLog (magic : Bytes) (field : UInt32) (ops : List OverlayOp) (tail file : Bytes) :
    Prop where
  file_eq : file = logHead magic field (UInt32.ofNat ops.length) ++ (encodeFrames ops ++ tail)
  wellFormed : ∀ op ∈ ops, op.WellFormed
  length_le : (encodeFrames ops ++ tail).length ≤ maxOverlayBytes

/-- `kOverlayMagic`. -/
def overlayMagic : Bytes := utf8 "AZEO"

/-- `kJournalMagic`. -/
def journalMagic : Bytes := utf8 "AZEJ"

/-! ## Reading -/

/-- `EnglishOverlayHeader`. -/
structure OverlayHeader where
  baseFingerprint : UInt32
  opCount : UInt32
deriving DecidableEq

/-- `EnglishOverlayContents`. -/
structure OverlayContents where
  header : OverlayHeader
  ops : List OverlayOp

/-- `ParseOverlayHeader`. -/
def parseOverlayHeader (head : Bytes) : Option OverlayHeader :=
  (parseLogHead overlayMagic head).map (fun h => ⟨h.1, h.2⟩)

/-- **`ReadEnglishOverlayHeader`.** -/
def readEnglishOverlayHeader (file : Bytes) : Option OverlayHeader :=
  (readAt file 0 16).bind parseOverlayHeader

/-- **`ReadEnglishOverlay`.** -/
def readEnglishOverlay (file : Bytes) : Option OverlayContents :=
  match readEnglishOverlayHeader file with
  | none => none
  | some header =>
    if maxOverlayBytes < (file.drop 16).length then none
    else (walkFrames header.opCount.toNat (file.drop 16)).map (fun r => ⟨header, r.1⟩)

/-- `EnglishJournalLoad`: a journal that can be read comes with its operations
and with the offset where their frames end. -/
inductive JournalLoad
  | missing | unavailable | corrupt
  | ok (ops : List OverlayOp) (endOffset : ℕ)
deriving DecidableEq

/-- **`LoadEnglishJournal`.** -/
def loadEnglishJournal (file : Bytes) : JournalLoad :=
  if file.length = 0 then .missing
  else if 16 + maxOverlayBytes < file.length then .unavailable
  else if file.length < 16 then .corrupt
  else
    match parseLogHead journalMagic (file.take 16) with
    | none => .corrupt
    | some (_, count) =>
      match walkFrames count.toNat (file.drop 16) with
      | none => .corrupt
      | some (ops, rest) => .ok ops (file.length - rest.length)

/-! ## Writing -/

/-- The writes of `Reinit`. -/
def reinitWrites (baseContentHash : UInt32) : List Write :=
  [.writeAt 12 (u32 0), .truncate 16, .writeAt 0 (overlayMagic ++ u32 1 ++ u32 baseContentHash)]

/-- The writes that put a frame at the end of the frames of a log, whose number
is then `count`: bytes behind the frames are cut off first. -/
def appendWrites (size endOffset : ℕ) (op : OverlayOp) (count : UInt32) : List Write :=
  (if endOffset < size then [Write.truncate endOffset] else [])
    ++ [.writeAt endOffset (encodeFrame op), .writeAt 12 (u32 count)]

/-- The operations that a writer accepts. -/
def OverlayOp.accepted (op : OverlayOp) : Bool :=
  !op.key.isEmpty && op.key.length ≤ 0xffff && op.surface.length ≤ 0xffff

/-- What the attach check of an append finds: an overlay that must not be
touched, one that has to be emptied, or one of the base, with the number of its
frames and the offset where they end. -/
inductive Attachment
  | refused | stale
  | attached (opCount : UInt32) (endOffset : ℕ)

/-- The attach check of `AppendEnglishOverlayOp`. -/
def attach (file : Bytes) (baseContentHash : UInt32) : Attachment :=
  match readEnglishOverlayHeader file with
  | none => .stale
  | some header =>
    if header.baseFingerprint ≠ baseContentHash then .stale
    else if maxOverlayBytes < file.length - 16 then .refused
    else
      match walkFrames header.opCount.toNat (file.drop 16) with
      | none => .stale
      | some (_, rest) => .attached header.opCount (file.length - rest.length)

/-- **`AppendEnglishOverlayOp`**: its writes. It answers `true` when it has made
all of them, and `false` without a write when there are none. -/
def appendEnglishOverlayOp (file : Bytes) (baseContentHash : UInt32) (op : OverlayOp) :
    Option (List Write) :=
  if !op.accepted then none
  else
    match attach file baseContentHash with
    | .refused => none
    | .stale => some (reinitWrites baseContentHash ++ appendWrites 16 16 op 1)
    | .attached opCount endOffset => some (appendWrites file.length endOffset op (opCount + 1))

/-- `SameEntry`. -/
def sameEntry (a b : OverlayOp) : Bool := a.key = b.key && a.surface = b.surface

/-- `LatestJournalOps`: the latest operation of each entry, in the order in
which these arrived. -/
def latestJournalOps : List OverlayOp → List OverlayOp
  | [] => []
  | op :: ops => if ops.any (sameEntry op) then latestJournalOps ops else op :: latestJournalOps ops

/-- **`LatestEnglishJournalOp`.** -/
def latestEnglishJournalOp (ops : List OverlayOp) (key surface : Bytes) : Option OverlayOp :=
  ops.reverse.find? (fun op => op.key = key && op.surface = surface)

/-- `EncodeJournal`. -/
def encodeJournal (ops : List OverlayOp) : Bytes :=
  logHead journalMagic 0 (UInt32.ofNat ops.length) ++ encodeFrames ops

/-- `kMaxEnglishJournalEntries`. -/
def maxEnglishJournalEntries : ℕ := 10000

/-- `kMinEnglishJournalRewriteOps`. -/
def minEnglishJournalRewriteOps : ℕ := 256

/-- The operations without those of an entry. -/
def dropEntry (key surface : Bytes) (ops : List OverlayOp) : List OverlayOp :=
  ops.filter (fun op => !(op.key = key && op.surface = surface))

/-- The answer of `AppendEnglishJournalOp`, with its writes; `appended` and
`reset` are the answers when it has made all of them. -/
inductive JournalAppend
  | failed | full
  | appended (writes : List Write)
  | reset (writes : List Write)

/-- The operation would be an entry too many. -/
def journalFull (ops : List OverlayOp) (op : OverlayOp) : Bool :=
  !(latestJournalOps ops).any (sameEntry op)
    && decide (maxEnglishJournalEntries ≤ (latestJournalOps ops).length)

/-- The journal has grown well past its distinct entries. -/
def journalOutgrown (ops : List OverlayOp) (op : OverlayOp) : Bool :=
  let latest := latestJournalOps ops
  let distinct := latest.length + if latest.any (sameEntry op) then 0 else 1
  decide (max minEnglishJournalRewriteOps (2 * distinct) < ops.length + 1)

/-- The operations of a journal that is rewritten with one operation more. -/
def rewritten (ops : List OverlayOp) (op : OverlayOp) : List OverlayOp :=
  dropEntry op.key op.surface (latestJournalOps ops) ++ [op]

/-- **`AppendEnglishJournalOp`.** A corrupt journal is moved aside. -/
def appendEnglishJournalOp (file : Bytes) (op : OverlayOp) : JournalAppend :=
  if !op.accepted then .failed
  else
    match loadEnglishJournal file with
    | .unavailable => .failed
    | .missing => .appended [.replace (encodeJournal (rewritten [] op))]
    | .corrupt => .reset [.replace [], .replace (encodeJournal (rewritten [] op))]
    | .ok ops endOffset =>
      if journalFull ops op then .full
      else if journalOutgrown ops op then
        .appended [.replace (encodeJournal (rewritten ops op))]
      else
        .appended (appendWrites file.length endOffset op (UInt32.ofNat (ops.length + 1)))

/-- The answer of `RetractEnglishJournalEntry`, with its writes. -/
inductive JournalRetract
  | failed | notAdded
  | retracted (writes : List Write)

/-- **`RetractEnglishJournalEntry`.** -/
def retractEnglishJournalEntry (file key surface : Bytes) : JournalRetract :=
  match loadEnglishJournal file with
  | .unavailable => .failed
  | .ok ops _ =>
    match latestEnglishJournalOp ops key surface with
    | none => .notAdded
    | some op =>
      if op.kind ≠ .upsert then .notAdded
      else .retracted [.replace (encodeJournal (dropEntry key surface (latestJournalOps ops)))]
  | _ => .notAdded

/-! ## What a reader accepts -/

section Heads

variable {magic : Bytes}

/-- A header has sixteen bytes. -/
theorem length_logHead (hmagic : magic.length = 4) (field count : UInt32) :
    (logHead magic field count).length = 16 := by
  simp only [logHead, List.length_append, length_u32, hmagic]

/-- **A header is read as it was written**, and what is read as a header is
one. -/
theorem parseLogHead_eq_some_iff (hmagic : magic.length = 4) {head : Bytes}
    (hhead : head.length = 16) {field count : UInt32} :
    parseLogHead magic head = some (field, count) ↔ head = logHead magic field count := by
  unfold parseLogHead
  constructor
  · intro h
    split at h
    · cases h
    · rename_i hok
      rw [not_or, not_not, not_not] at hok
      obtain ⟨rfl, rfl⟩ := Prod.mk.inj (Option.some.inj h)
      have hfield : ∀ k, k + 4 ≤ 16 → u32 (getU32 (head.drop k)) = (head.drop k).take 4 := by
        intro k hk
        have hlength : ((head.drop k).take 4).length = 4 := by
          rw [List.length_take, List.length_drop, hhead]
          omega
        have hget : getU32 (head.drop k) = getU32 ((head.drop k).take 4) := by
          unfold getU32
          rw [List.take_take, Nat.min_self]
        rw [hget, u32_getU32 hlength]
      have hversion : u32 1 = (head.drop 4).take 4 := by rw [← hok.2, hfield 4 (by omega)]
      have hlast : (head.drop 12).take 4 = head.drop 12 :=
        List.take_of_length_le (by rw [List.length_drop, hhead])
      unfold logHead
      rw [hfield 8 (by omega), hfield 12 (by omega), hversion, ← hok.1, hlast]
      calc head = head.take 4 ++ ((head.drop 4).take 4 ++ ((head.drop 8).take 4 ++ head.drop 12)) := by
            have h₈ : head.drop 12 = (head.drop 8).drop 4 := by rw [List.drop_drop]
            have h₄ : head.drop 8 = (head.drop 4).drop 4 := by rw [List.drop_drop]
            rw [h₈, List.take_append_drop, h₄, List.take_append_drop, List.take_append_drop]
        _ = _ := by simp only [List.append_assoc]
  · rintro rfl
    have htake : (logHead magic field count).take 4 = magic := by
      unfold logHead
      simp only [List.append_assoc]
      exact List.take_left' hmagic
    have hdrop₄ : (logHead magic field count).drop 4 = u32 1 ++ (u32 field ++ u32 count) := by
      unfold logHead
      simp only [List.append_assoc]
      exact List.drop_left' hmagic
    have hdrop₈ : (logHead magic field count).drop 8 = u32 field ++ u32 count := by
      rw [show 8 = 4 + 4 from rfl, ← List.drop_drop, hdrop₄, List.drop_left' (length_u32 1)]
    have hdrop₁₂ : (logHead magic field count).drop 12 = u32 count ++ [] := by
      rw [show 12 = 8 + 4 from rfl, ← List.drop_drop, hdrop₈, List.drop_left' (length_u32 field),
        List.append_nil]
    rw [htake, hdrop₄, hdrop₈, hdrop₁₂, getU32_u32_append, getU32_u32_append, getU32_u32_append,
      if_neg (by simp)]

/-- A file that starts with a header. -/
theorem take_logHead_append (hmagic : magic.length = 4) (field count : UInt32) (rest : Bytes) :
    (logHead magic field count ++ rest).take 16 = logHead magic field count
      ∧ (logHead magic field count ++ rest).drop 16 = rest :=
  ⟨List.take_left' (length_logHead hmagic field count),
    List.drop_left' (length_logHead hmagic field count)⟩

variable {field : UInt32} {ops : List OverlayOp} {tail file : Bytes}

/-- The number of frames of a log fits into its header. -/
theorem IsLog.toNat_count (h : IsLog magic field ops tail file) :
    (UInt32.ofNat ops.length).toNat = ops.length := by
  refine UInt32.toNat_ofNat_of_lt' ?_
  have hframes := length_le_encodeFrames h.wellFormed
  have hlength := h.length_le
  rw [List.length_append] at hlength
  unfold maxOverlayBytes at hlength
  have hsize : UInt32.size = 4294967296 := rfl
  omega

/-- The size of a log. -/
theorem IsLog.length_eq (h : IsLog magic field ops tail file) (hmagic : magic.length = 4) :
    file.length = 16 + (encodeFrames ops).length + tail.length := by
  rw [h.file_eq, List.length_append, length_logHead hmagic, List.length_append]
  omega

/-- A log may have other bytes behind its frames. -/
theorem IsLog.with_tail (h : IsLog magic field ops tail file) {tail' file' : Bytes}
    (hfile : file' = logHead magic field (UInt32.ofNat ops.length) ++ (encodeFrames ops ++ tail'))
    (hlength : (encodeFrames ops ++ tail').length ≤ maxOverlayBytes) :
    IsLog magic field ops tail' file' := ⟨hfile, h.wellFormed, hlength⟩

end Heads

/-- The magic of the overlay has four bytes. -/
theorem length_overlayMagic : overlayMagic.length = 4 := by decide

/-- The magic of the journal has four bytes. -/
theorem length_journalMagic : journalMagic.length = 4 := by decide

/-- The header of an overlay. -/
theorem readEnglishOverlayHeader_eq_some_iff {file : Bytes} {header : OverlayHeader} :
    readEnglishOverlayHeader file = some header
      ↔ ∃ rest, file = logHead overlayMagic header.baseFingerprint header.opCount ++ rest := by
  unfold readEnglishOverlayHeader readAt parseOverlayHeader
  constructor
  · intro h
    split at h
    · rename_i hlength
      have hhead : ((file.drop 0).take 16).length = 16 := by
        rw [List.drop_zero, List.length_take]
        omega
      obtain ⟨⟨field, count⟩, hparse, rfl⟩ := Option.map_eq_some_iff.mp h
      have heq := (parseLogHead_eq_some_iff length_overlayMagic hhead).mp hparse
      refine ⟨file.drop 16, ?_⟩
      rw [← heq, List.drop_zero, List.take_append_drop]
    · cases h
  · rintro ⟨rest, rfl⟩
    have hlength := length_logHead length_overlayMagic header.baseFingerprint header.opCount
    rw [if_pos (by rw [List.length_append, hlength]; omega), Option.bind_some, List.drop_zero,
      (take_logHead_append length_overlayMagic _ _ rest).1,
      (parseLogHead_eq_some_iff length_overlayMagic hlength).mpr rfl]
    rfl

/-- **What `ReadEnglishOverlay` accepts.** -/
theorem readEnglishOverlay_eq_some_iff {file : Bytes} {c : OverlayContents} :
    readEnglishOverlay file = some c ↔ c.header.opCount = UInt32.ofNat c.ops.length
      ∧ ∃ tail, IsLog overlayMagic c.header.baseFingerprint c.ops tail file := by
  unfold readEnglishOverlay
  constructor
  · intro h
    split at h
    · cases h
    · rename_i header hheader
      obtain ⟨rest, rfl⟩ := readEnglishOverlayHeader_eq_some_iff.mp hheader
      rw [(take_logHead_append length_overlayMagic _ _ rest).2] at h
      split at h
      · cases h
      · rename_i hsize
        obtain ⟨⟨ops, tail⟩, hwalk, rfl⟩ := Option.map_eq_some_iff.mp h
        obtain ⟨hcount, hops, rfl⟩ := walkFrames_eq_some_iff.mp hwalk
        have hopCount : header.opCount = UInt32.ofNat ops.length := by
          rw [hcount, UInt32.ofNat_toNat]
        refine ⟨hopCount, tail, ?_, hops, not_lt.mp hsize⟩
        rw [← hopCount]
  · rintro ⟨hcount, tail, hlog⟩
    have hheader : readEnglishOverlayHeader file = some c.header := by
      refine readEnglishOverlayHeader_eq_some_iff.mpr ⟨encodeFrames c.ops ++ tail, ?_⟩
      rw [hcount]
      exact hlog.file_eq
    have hdrop : file.drop 16 = encodeFrames c.ops ++ tail := by
      rw [hlog.file_eq, (take_logHead_append length_overlayMagic _ _ _).2]
    have hwalk : walkFrames c.header.opCount.toNat (encodeFrames c.ops ++ tail)
        = some (c.ops, tail) :=
      walkFrames_eq_some_iff.mpr ⟨by rw [hcount, hlog.toNat_count], hlog.wellFormed, rfl⟩
    rw [hheader]
    dsimp only
    rw [hdrop, if_neg (not_lt.mpr hlog.length_le), hwalk, Option.map_some]

/-- **What `LoadEnglishJournal` accepts.** -/
theorem loadEnglishJournal_eq_ok_iff {file : Bytes} {ops : List OverlayOp} {endOffset : ℕ} :
    loadEnglishJournal file = .ok ops endOffset ↔ endOffset = 16 + (encodeFrames ops).length
      ∧ ∃ field tail, IsLog journalMagic field ops tail file := by
  unfold loadEnglishJournal
  constructor
  · intro h
    split at h
    · cases h
    · split at h
      · cases h
      · rename_i hlarge
        split at h
        · cases h
        · rename_i hsmall
          have hhead : (file.take 16).length = 16 := by
            rw [List.length_take]
            omega
          split at h
          · cases h
          · rename_i field count hparse
            have heq := (parseLogHead_eq_some_iff length_journalMagic hhead).mp hparse
            split at h
            · cases h
            · rename_i ops' rest hwalk
              cases h
              obtain ⟨hcount, hops, hdrop⟩ := walkFrames_eq_some_iff.mp hwalk
              have hlength : (file.drop 16).length = file.length - 16 := List.length_drop
              rw [hdrop, List.length_append] at hlength
              refine ⟨by omega, field, rest, ?_, hops, ?_⟩
              · rw [hcount, UInt32.ofNat_toNat, ← heq, ← hdrop, List.take_append_drop]
              · rw [List.length_append]
                omega
  · rintro ⟨hend, field, tail, hlog⟩
    have hlength := hlog.length_eq length_journalMagic
    have hbound := hlog.length_le
    rw [List.length_append] at hbound
    have htake : file.take 16 = logHead journalMagic field (UInt32.ofNat ops.length) := by
      rw [hlog.file_eq, (take_logHead_append length_journalMagic _ _ _).1]
    have hdrop : file.drop 16 = encodeFrames ops ++ tail := by
      rw [hlog.file_eq, (take_logHead_append length_journalMagic _ _ _).2]
    have hparse := (parseLogHead_eq_some_iff length_journalMagic
      (length_logHead length_journalMagic field (UInt32.ofNat ops.length))).mpr rfl
    have hwalk : walkFrames (UInt32.ofNat ops.length).toNat (encodeFrames ops ++ tail)
        = some (ops, tail) :=
      walkFrames_eq_some_iff.mpr ⟨hlog.toNat_count.symm, hlog.wellFormed, rfl⟩
    rw [if_neg (by omega), if_neg (by omega), if_neg (by omega), htake, hparse]
    dsimp only
    rw [hdrop, hwalk]
    dsimp only
    congr 1
    omega

end AzooKey.Host.English

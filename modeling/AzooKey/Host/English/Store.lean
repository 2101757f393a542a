import AzooKey.Host.English.Compaction
import AzooKey.Host.English.Tsv

/-!
# The store of the English dictionary

`inference-host/src/EnglishDictionaryStore.cpp`. The words come from four files:
a TSV that the user edits, the base that was compiled from it, the overlay with
the operations since then, and the journal, which outlives the base. A store
holds a snapshot of them together with a sample of their headers, and makes
another one when the sample has changed.

Everything a store does to the files is a list of `DiskWrite`s, each of which
happens as a whole. A step that may fail in the source takes what happens to it
from `Faults`: whether the lock is taken in time, and after how many of its
writes a writer fails. What no result here is about is left out: the report to
the listener, exceptions when memory runs out, and the removal of temporary
files.
-/

namespace AzooKey.Host.English

open LittleEndian RawFile
open Core.Dictionary (isValidUtf8)

/-! ## The files -/

/-- **The files of a dictionary**: the TSV with the time when it was written, the
base with the time it was stamped with, if it was, the overlay and the
journal. -/
structure Disk where
  tsv : Option (ℕ × Bytes)
  base : Option (Option ℕ × Bytes)
  overlay : Bytes
  journal : Bytes

/-- A write to one of the files. -/
inductive DiskWrite
  | base (stamp : Option ℕ) (bytes : Bytes)
  | overlay (w : Write)
  | journal (w : Write)

/-- The files after a write. -/
def DiskWrite.apply (d : Disk) : DiskWrite → Disk
  | .base stamp bytes => { d with base := some (stamp, bytes) }
  | .overlay w => { d with overlay := w.apply d.overlay }
  | .journal w => { d with journal := w.apply d.journal }

namespace Disk

/-- The files when a writer has made the first `n` of its writes. -/
def stopped (d : Disk) (writes : List DiskWrite) (n : ℕ) : Disk :=
  (writes.take n).foldl DiskWrite.apply d

/-- What a writer leaves and answers. It fails after some of its writes or makes
all of them. -/
def written (d : Disk) (writes : List DiskWrite) (fault : Option ℕ) : Disk × Bool :=
  let n := fault.getD writes.length
  (d.stopped writes n, decide (writes.length ≤ n))

/-- The bytes of the base; none if it is missing. -/
def baseBytes (d : Disk) : Bytes := (d.base.map Prod.snd).getD []

/-- `ReadEnglishBaseHeader`. -/
def baseHeader (d : Disk) : Option BaseHeader := parseBaseHeader d.baseBytes

/-- `EnglishBaseImage::Map` of the base. -/
def mapBase (d : Disk) : Option BaseImage := BaseImage.map d.baseBytes

/-- `TsvTime`. -/
def tsvTime (d : Disk) : Option ℕ := d.tsv.map Prod.fst

/-- `BaseMatchesTsv`. -/
def baseMatchesTsv (d : Disk) (time : ℕ) : Bool := d.base.any (fun base => base.1 = some time)

/-- The generation of the next base. -/
def nextGeneration (d : Disk) : UInt32 := (d.baseHeader.map (·.generation + 1)).getD 1

/-- The writes of `CompactEnglishDictionary`; none if it refuses. -/
def compactWrites (d : Disk) : Option (List DiskWrite) :=
  let stale := d.tsvTime.any (fun time => !d.baseMatchesTsv time)
  (compactEnglishDictionary stale d.baseBytes d.overlay).map
    (fun r => .base d.tsvTime r.1 :: r.2.map .overlay)

/-- **`CompactEnglishDictionary`.** -/
def compact (d : Disk) (fault : Option ℕ) : Disk × Bool :=
  match d.compactWrites with
  | none => (d, false)
  | some writes => d.written writes fault

/-- A writer that has not begun. -/
@[simp] theorem stopped_zero (d : Disk) (writes : List DiskWrite) : d.stopped writes 0 = d := rfl

/-- A writer that has nothing to write. -/
@[simp] theorem stopped_nil (d : Disk) (n : ℕ) : d.stopped [] n = d := by
  rw [stopped, List.take_nil, List.foldl_nil]

/-- A writer that has made its first write. -/
@[simp] theorem stopped_cons_succ (d : Disk) (w : DiskWrite) (writes : List DiskWrite) (n : ℕ) :
    d.stopped (w :: writes) (n + 1) = (w.apply d).stopped writes n := rfl

/-- No writer changes the TSV. -/
theorem tsv_stopped (d : Disk) (writes : List DiskWrite) (n : ℕ) :
    (d.stopped writes n).tsv = d.tsv := by
  induction writes generalizing d n with
  | nil => rw [stopped_nil]
  | cons w writes ih =>
    rcases n with _ | n
    · rw [stopped_zero]
    · rw [stopped_cons_succ, ih]
      cases w with
      | base => rfl
      | overlay => rfl
      | journal => rfl

/-- A writer of the overlay changes nothing else. -/
theorem stopped_map_overlay (d : Disk) (writes : List Write) (n : ℕ) :
    d.stopped (writes.map .overlay) n
      = { d with overlay := RawFile.stopped d.overlay writes n } := by
  induction writes generalizing d n with
  | nil => rw [List.map_nil, stopped_nil, RawFile.stopped_nil]
  | cons w writes ih =>
    rcases n with _ | n
    · rw [stopped_zero, RawFile.stopped_zero]
    · rw [List.map_cons, stopped_cons_succ, ih, RawFile.stopped_cons_succ]
      rfl

end Disk

/-- `ApplyEnglishJournal`, one operation: the definition of the TSV wins over an
operation that adds the word, and not over one that deletes it. -/
def applyJournalOp (slots : List (WordRecord × Bool)) (op : OverlayOp) : List (WordRecord × Bool) :=
  if op.kind = .delete then
    (modifyLast (isEntryOf op) (fun slot => (slot.1, true)) slots).getD slots
  else if slots.any (isEntryOf op) ∨ op.surface = [] then slots
  else slots ++ [(op.record, false)]

/-- **`ApplyEnglishJournal`.** -/
def applyEnglishJournal (records : List WordRecord) (ops : List OverlayOp) : List WordRecord :=
  let latest := (latestJournalOps ops).take maxEnglishJournalEntries
  ((latest.foldl applyJournalOp (records.map (·, false))).filter (fun slot => !slot.2)).map Prod.fst

/-- The records of a base that a reset keeps: without the words that a deletion
of the overlay hides, and without those that the journal says were added. -/
def resetRecords (image : BaseImage) (overlay : Bytes) (journal : JournalLoad) : List WordRecord :=
  let deletes := (overlayOps overlay image.header.contentHash).filter (·.kind = .delete)
  let records := mergeOverlayOps image.records deletes
  match journal with
  | .ok ops _ =>
    let added := (latestJournalOps ops).filter (·.kind = .upsert)
    records.filter (fun r => !added.any (fun op => op.key = r.key && op.surface = r.surface))
  | _ => records

/-- The writes that put a base in place and empty the overlay for it. -/
def replaceBaseWrites (stamp : Option ℕ) (bytes : Bytes) : List DiskWrite :=
  .base stamp bytes :: (reinitWrites (baseContentHash bytes)).map .overlay

/-- The base that a reset writes: that of the TSV, or what it keeps of the base
that is there. -/
def resetBytes (d : Disk) (tsvRecords : Option (List WordRecord)) (journal : JournalLoad) :
    Option Bytes :=
  match tsvRecords with
  | some records => some (encodeEnglishBase records d.nextGeneration)
  | none => d.mapBase.map (fun image =>
      encodeEnglishBase (resetRecords image d.overlay journal) d.nextGeneration)

/-- The writes of `ResetEnglishRuntimeFiles`; none if it refuses. -/
def resetWrites (d : Disk) (tsvRecords : Option (List WordRecord)) (tsvTime : Option ℕ) :
    Option (List DiskWrite) :=
  let journal := loadEnglishJournal d.journal
  if journal = .unavailable then none
  else
    match resetBytes d tsvRecords journal with
    | some bytes => some (replaceBaseWrites tsvTime bytes ++ [.journal (.replace [])])
    | none =>
      if d.base.isSome then none
      else some [.overlay (.replace []), .journal (.replace [])]

/-- **`ResetEnglishRuntimeFiles`.** -/
def resetEnglishRuntimeFiles (d : Disk) (tsvRecords : Option (List WordRecord))
    (tsvTime : Option ℕ) (fault : Option ℕ) : Disk × Bool :=
  match resetWrites d tsvRecords tsvTime with
  | none => (d, false)
  | some writes => d.written writes fault

/-! ## Snapshots -/

/-- `Sample`: the time and the size of the TSV, and the headers of the base and
of the overlay. -/
structure Sample where
  tsv : Option (ℕ × ℕ)
  base : Option BaseHeader
  overlay : Option OverlayHeader
deriving DecidableEq

/-- **`TakeSample`.** The overlay is read after the rest. -/
def takeSample (d d' : Disk) : Sample where
  tsv := d.tsv.map (fun tsv => (tsv.1, tsv.2.length))
  base := d.baseHeader
  overlay := readEnglishOverlayHeader d'.overlay

/-- The fields of `EnglishDictionaryStore`. -/
structure Store where
  snapshot : Option EnglishDictionary
  snapshotSample : Option Sample
  base : Option BaseImage
  baseInMemory : Bool
  baseWriteFailed : Bool
  journalUnavailable : Bool
  compiledTsv : Option (ℕ × ℕ)
  memoryOps : List OverlayOp

/-- What happens to the steps that may fail: the lock that a writer waits for, the
lock that a compilation tries once, the writing of a compiled base, and the
writers of the overlay, of the journal and of a compaction. -/
structure Faults where
  lock : Bool
  tryLock : Bool
  base : Bool
  overlay : Option ℕ
  journal : Option ℕ
  compaction : Option ℕ

namespace Store

/-- A store that was opened. -/
def opened : Store := ⟨none, none, none, false, false, false, none, []⟩

/-- `Invalidate`. -/
def invalidate (s : Store) : Store := { s with snapshotSample := none }

/-- The base was mapped or compiled as it should be. -/
def settled (s : Store) : Store :=
  { s with baseInMemory := false, baseWriteFailed := false, journalUnavailable := false }

/-- The records of a compilation. -/
def compiledRecords (text : Bytes) (journal : JournalLoad) : List WordRecord :=
  match journal with
  | .ok ops _ => applyEnglishJournal (parseEnglishTsv text) ops
  | _ => parseEnglishTsv text

/-- **`CompileTsvLocked`.** -/
def compileTsvLocked (s : Store) (d : Disk) (time : ℕ) (force fileLocked : Bool)
    (faults : Faults) : Store × Disk × Option BaseImage :=
  match d.tsv.bind (fun tsv => readEnglishTsvFile tsv.2) with
  | none => (s.settled, d, none)
  | some text =>
    let locked := fileLocked || faults.tryLock
    let current := locked && !force && d.baseHeader.isSome && d.baseMatchesTsv time
    match if current then d.mapBase else none with
    | some image => (s.settled, d, some image)
    | none =>
      let journal := loadEnglishJournal d.journal
      let bytes := encodeEnglishBase (compiledRecords text journal) d.nextGeneration
      let inMemory := { s.settled with
        baseInMemory := true, journalUnavailable := decide (journal = .unavailable) }
      if locked && decide (journal ≠ .unavailable) then
        if faults.base then
          let d' := (DiskWrite.base (some time) bytes).apply d
          match d'.mapBase with
          | some image => (s.settled, d', some image)
          | none => (inMemory, d', BaseImage.fromBytes bytes)
        else ({ inMemory with baseWriteFailed := true }, d, BaseImage.fromBytes bytes)
      else (inMemory, d, BaseImage.fromBytes bytes)

/-- **`RebuildLocked`, until it reads the overlay**: the base, and whether it is
the one of the sample. -/
def rebuildBase (s : Store) (sample : Sample) (fileLocked : Bool) (faults : Faults) (d : Disk) :
    Store × Disk × Option BaseImage × Bool :=
  let tsvChanged := sample.tsv.isSome && s.compiledTsv.isSome && decide (s.compiledTsv ≠ sample.tsv)
  let binMatches := sample.base.isSome && !tsvChanged
    && sample.tsv.all (fun tsv => d.baseMatchesTsv tsv.1)
  let compiled := s.base.isSome && sample.tsv.isSome && decide (s.compiledTsv = sample.tsv)
  let found : Store × Option BaseImage :=
    if compiled && s.baseWriteFailed then (s, s.base)
    else if compiled && s.journalUnavailable && !binMatches then (s, s.base)
    else if binMatches then
      (s.settled,
        if s.base.any (fun image => some image.header = sample.base) then s.base else d.mapBase)
    else (s, none)
  let mapped := !(compiled && s.baseWriteFailed) && binMatches
  let consistent := !mapped || found.2.all (fun image => some image.header = sample.base)
  match found.2, sample.tsv with
  | none, some tsv =>
    let (s', d', base) := found.1.compileTsvLocked d tsv.1 tsvChanged fileLocked faults
    ({ s' with compiledTsv := sample.tsv }, d', base, consistent)
  | base, _ => ({ found.1 with compiledTsv := sample.tsv }, d, base, consistent)

/-- The operations of an overlay that was read, if they count for a base. -/
def opsFor (overlay : Option OverlayContents) (hash : UInt32) : List OverlayOp :=
  match overlay with
  | none => []
  | some c => if c.header.baseFingerprint = hash then c.ops else []

/-- **`RebuildLocked`, from the overlay on**: the snapshot, which is kept for the
sample unless a part of it was not the one of the sample. -/
def rebuildSnapshot (s : Store) (sample : Sample) (base : Option BaseImage) (consistent : Bool)
    (overlay : Option OverlayContents) : Store :=
  let snapshot := base.map (fun image => EnglishDictionary.new (some image)
    (opsFor overlay image.header.contentHash ++ s.memoryOps))
  let unread := base.isSome && overlay.isNone && sample.overlay.isSome
  { s with
    base := base
    snapshot := snapshot
    snapshotSample := if consistent && !unread then some sample else none }

/-- **`RebuildLocked`.** -/
def rebuildLocked (s : Store) (sample : Sample) (fileLocked : Bool) (faults : Faults) (d : Disk) :
    Store × Disk :=
  let (s', d', base, consistent) := s.rebuildBase sample fileLocked faults d
  (s'.rebuildSnapshot sample base consistent (readEnglishOverlay d'.overlay), d')

/-- **`SnapshotFor`**, when no other thread rebuilds. -/
def snapshotFor (s : Store) (sample : Sample) (faults : Faults) (d : Disk) : Store × Disk :=
  if s.snapshotSample = some sample then (s, d) else s.rebuildLocked sample false faults d

/-- **`Read`**, when nobody else writes: the store with the snapshot that the
result is computed from, after some attempts. -/
def readAttempts (faults : Faults) : ℕ → Store → Disk → Store × Disk
  | 0, s, d => (s, d)
  | attempts + 1, s, d =>
    let before := takeSample d d
    let (s', d') := s.snapshotFor before faults d
    if attempts = 0 ∨ takeSample d' d' = before then (s', d') else readAttempts faults attempts s' d'

/-- `kMaxReadAttempts`. -/
def maxReadAttempts : ℕ := 4

/-- **`Lookup`**, when nobody else writes. -/
def lookup (s : Store) (d : Disk) (faults : Faults) (key : Bytes) :
    Store × Disk × List DictionaryEntry :=
  let (s', d') := readAttempts faults maxReadAttempts s d
  (s', d', s'.snapshot.elim [] (fun dictionary => dictionary.lookup key))

/-! ## Writers -/

/-- `SettleBaseLocked`. -/
def settleBaseLocked (s : Store) (d : Disk) (fileLocked : Bool) (faults : Faults) : Store × Disk :=
  let sample := takeSample d d
  let readable := fileLocked && s.baseInMemory && s.journalUnavailable
    && decide (loadEnglishJournal d.journal ≠ .unavailable)
  let s := if readable then { s with journalUnavailable := false } else s
  if s.snapshotSample ≠ some sample
      || (fileLocked && s.baseInMemory && !s.baseWriteFailed && !s.journalUnavailable) then
    s.rebuildLocked sample fileLocked faults d
  else (s, d)

/-- The hash of the base on disk, if an operation may be attached to it: not if
the store has its base in memory, and not if the two differ. -/
def attachHash (s : Store) (d : Disk) (locked : Bool) : Option UInt32 :=
  match s.base, d.baseHeader with
  | some image, some header =>
    if locked && !s.baseInMemory && header.contentHash = image.header.contentHash
    then some header.contentHash else none
  | _, _ => none

/-- An operation, appended to the overlay if it may be. -/
def appendOverlay (s : Store) (d : Disk) (locked : Bool) (op : OverlayOp) (fault : Option ℕ) :
    Disk × Bool :=
  match (s.attachHash d locked).bind (fun hash => appendEnglishOverlayOp d.overlay hash op) with
  | none => (d, false)
  | some writes => d.written (writes.map .overlay) fault

/-- `EnglishWriteResult`. -/
inductive WriteResult
  | persisted | journalReset | journalFull | journalFailed | memoryOnly | dropped | cancelled
deriving DecidableEq

/-- An operation, appended to the journal. -/
def appendJournal (d : Disk) (op : OverlayOp) (fault : Option ℕ) : Disk × WriteResult :=
  match appendEnglishJournalOp d.journal op with
  | .failed => (d, .journalFailed)
  | .full => (d, .journalFull)
  | .appended writes =>
    let (d', done) := d.written (writes.map .journal) fault
    (d', if done then .persisted else .journalFailed)
  | .reset writes =>
    let (d', done) := d.written (writes.map .journal) fault
    (d', if done then .journalReset else .journalFailed)

/-- `kMinCompactionOps`. -/
def minCompactionOps : ℕ := 64

/-- Whether the overlay has outgrown a tenth of the base. -/
def overlayOutgrown (d : Disk) (header : Option BaseHeader) : Bool :=
  (readEnglishOverlayHeader d.overlay).any (fun overlay =>
    max minCompactionOps (header.elim 0 (·.entryCount) / 10) < overlay.opCount.toNat)

/-- The operations in memory without those of an entry. -/
def forget (s : Store) (op : OverlayOp) : Store :=
  { s with memoryOps := s.memoryOps.filter (fun m => !sameEntry m op) }

/-- **`AppendLocked`.** -/
def appendLocked (s : Store) (d : Disk) (op : OverlayOp) (faults : Faults) :
    Store × Disk × WriteResult :=
  let (s, d) := s.settleBaseLocked d faults.lock faults
  if s.base.isNone then (s, d, .dropped)
  else
    let header := d.baseHeader
    let (d, persisted) := s.appendOverlay d faults.lock op faults.overlay
    if persisted then
      let (d, result) := appendJournal d op faults.journal
      let d := if overlayOutgrown d header then (d.compact faults.compaction).1 else d
      ((s.forget op).invalidate, d, result)
    else
      ({ s.forget op with memoryOps := (s.forget op).memoryOps ++ [op] }.invalidate, d, .memoryOnly)

/-- The texts that `Upsert`, `Retract` and `Remove` accept. -/
def acceptsWord (surface : Bytes) : Bool :=
  !surface.isEmpty && surface.length ≤ 0xFFFF && isValidUtf8 surface

/-- The operation of an upsert. -/
def upsertOp (surface : Bytes) (frequency : UInt32) (flags : UInt8) : OverlayOp :=
  ⟨.upsert, flags, englishLookupKey surface, surface, frequency⟩

/-- The operation that hides a word. -/
def deleteOp (surface : Bytes) : OverlayOp := ⟨.delete, 0, englishLookupKey surface, surface, 0⟩

/-- **`Upsert`.** -/
def upsert (s : Store) (d : Disk) (surface : Bytes) (frequency : UInt32) (flags : UInt8)
    (stillCurrent : Bool) (faults : Faults) : Store × Disk × WriteResult :=
  if !acceptsWord surface then (s, d, .dropped)
  else if !stillCurrent then (s, d, .cancelled)
  else s.appendLocked d (upsertOp surface frequency flags) faults

/-- **`Remove`.** -/
def remove (s : Store) (d : Disk) (surface : Bytes) (faults : Faults) :
    Store × Disk × WriteResult :=
  if !acceptsWord surface then (s, d, .dropped) else s.appendLocked d (deleteOp surface) faults

/-- `EnglishRetractResult`. -/
inductive RetractResult
  | retracted | memoryOnly | notAdded | failed
deriving DecidableEq

/-- The entry of a word, taken out of the journal. -/
def retractJournal (d : Disk) (op : OverlayOp) (fault : Option ℕ) : Disk × RetractResult :=
  match retractEnglishJournalEntry d.journal op.key op.surface with
  | .failed => (d, .failed)
  | .notAdded => (d, .retracted)
  | .retracted writes =>
    let (d', done) := d.written (writes.map .journal) fault
    (d', if done then .retracted else .failed)

/-- Whether the TSV has a word; none if it is there and cannot be read. -/
def inTsv (d : Disk) (op : OverlayOp) : Option Bool :=
  match d.tsv with
  | none => some false
  | some tsv => (readEnglishTsvFile tsv.2).map (fun text =>
      (parseEnglishTsv text).any (fun r => r.key = op.key && r.surface = op.surface))

/-- The latest operation of an entry in a journal that was loaded adds it. -/
def addedIn (journal : JournalLoad) (op : OverlayOp) : Bool :=
  match journal with
  | .ok ops _ => (latestEnglishJournalOp ops op.key op.surface).any (·.kind = .upsert)
  | _ => false

/-- **`Retract`.** -/
def retract (s : Store) (d : Disk) (surface : Bytes) (stillCurrent : Bool) (faults : Faults) :
    Store × Disk × RetractResult :=
  let op := deleteOp surface
  if !acceptsWord surface || !stillCurrent then (s, d, .notAdded)
  else
    let inMemory := (latestEnglishJournalOp s.memoryOps op.key op.surface).any (·.kind = .upsert)
    let s := if inMemory then s.forget op else s
    if !faults.lock then (s.invalidate, d, if inMemory then .memoryOnly else .failed)
    else
      let (s, d) := s.settleBaseLocked d true faults
      let journal := loadEnglishJournal d.journal
      if journal = .unavailable then (s.invalidate, d, .failed)
      else if !addedIn journal op then
        (s.invalidate, d, if inMemory then .retracted else .notAdded)
      else
        match inTsv d op with
        | none => (s.invalidate, d, .failed)
        | some true =>
          let (d, result) := retractJournal d op faults.journal
          (s.invalidate, d, result)
        | some false =>
          let (d, hidden) := s.appendOverlay d true op faults.overlay
          if hidden then
            let (d, result) := retractJournal d op faults.journal
            (s.invalidate, d, result)
          else ({ s with memoryOps := s.memoryOps ++ [op] }.invalidate, d, .memoryOnly)

/-- **`Compact`.** -/
def compact (s : Store) (d : Disk) (faults : Faults) : Store × Disk × Bool :=
  if faults.lock then
    let (d, done) := d.compact faults.compaction
    (s.invalidate, d, done)
  else (s.invalidate, d, false)

/-- **`ResetRuntimeAdditions`.** `fault` is about the writes to the files. -/
def resetRuntimeAdditions (s : Store) (d : Disk) (lock : Bool) (fault : Option ℕ) :
    Store × Disk × Bool :=
  let s := { s.settled.invalidate with memoryOps := [], base := none, compiledTsv := none }
  if !lock then (s, d, false)
  else
    match d.tsv with
    | none =>
      let (d, done) := resetEnglishRuntimeFiles d none none fault
      (s, d, done)
    | some (time, file) =>
      match readEnglishTsvFile file with
      | none => (s, d, false)
      | some text =>
        let (d, done) := resetEnglishRuntimeFiles d (some (parseEnglishTsv text)) (some time) fault
        (s, d, done)

end Store

end AzooKey.Host.English

import AzooKey.Lib.LittleEndian
import Mathlib.Data.List.Infix
import Mathlib.Data.List.Sort

/-!
# The container of a backup

`BuildStoreOnlyZip` writes a ZIP archive without compression and
`ParseStoreOnlyZip` reads it. The reader trusts nothing: it looks for the end
record from the end of the file, walks the directory that the end record
points at, then walks the entries in the order of the file so that none
reaches into the next. The results are that it reads back what the writer
wrote, and that the names of what it reads are distinct.
-/

namespace AzooKey.Host.Backup

open LittleEndian

/-- `ZipEntry`. -/
structure ZipEntry where
  name : Bytes
  data : Bytes
deriving DecidableEq

/-- `ZipLimits`. -/
structure ZipLimits where
  maxEntries : ℕ := 16
  maxEntryBytes : ℕ := 32 * 1024 * 1024
  maxTotalBytes : ℕ := 64 * 1024 * 1024

/-- `ZipError`, less `None`. -/
inductive ZipError
  | missingEndOfCentralDirectory
  | multiDisk
  | badCentralDirectory
  | badLocalHeader
  | unsupportedMethod
  | unsupportedFlags
  | sizeMismatch
  | headerMismatch
  | crcMismatch
  | badOffset
  | overlappingEntries
  | invalidName
  | duplicateName
  | tooManyEntries
  | entryTooLarge
  | totalTooLarge
deriving DecidableEq

/-! ## The source's constants -/

/-- `kLocalHeaderSignature`. -/
def localHeaderSignature : ℕ := 0x04034b50

/-- `kCentralHeaderSignature`. -/
def centralHeaderSignature : ℕ := 0x02014b50

/-- `kEndOfCentralDirectorySignature`. -/
def endOfCentralDirectorySignature : ℕ := 0x06054b50

/-- `kLocalHeaderSize`. -/
def localHeaderSize : ℕ := 30

/-- `kCentralHeaderSize`. -/
def centralHeaderSize : ℕ := 46

/-- `kEndOfCentralDirectorySize`. -/
def endOfCentralDirectorySize : ℕ := 22

/-- `kMaxCommentSize`. -/
def maxCommentSize : ℕ := 0xFFFF

/-- `kVersion`. -/
def zipVersion : ℕ := 20

/-- `kUtf8NameFlag`. -/
def utf8NameFlag : ℕ := 0x0800

/-- `kMethodStore`. -/
def methodStore : ℕ := 0

/-- `kDosTime`. -/
def dosTime : ℕ := 0x0000

/-- `kDosDate`. -/
def dosDate : ℕ := 0x0021

/-! ## The check sum -/

/-- One of the eight rounds of `MakeCrcTable` for an entry. -/
def crcRound (c : UInt32) : UInt32 := if c &&& 1 ≠ 0 then (0xEDB88320 : UInt32) ^^^ (c >>> 1) else c >>> 1

/-- An entry of `kCrcTable`. -/
def crcTable (i : UInt32) : UInt32 := crcRound^[8] i

/-- `Crc32`. -/
def crc32 (data : Bytes) : UInt32 :=
  let step := fun (crc : UInt32) (ch : UInt8) =>
    crcTable ((crc ^^^ ch.toUInt32) &&& 0xFF) ^^^ (crc >>> 8)
  data.foldl step 0xFFFFFFFF ^^^ 0xFFFFFFFF

/-- The check value of the algorithm. -/
example : crc32 (utf8 "123456789") = 0xCBF43926 := by decide +kernel

/-! ## Writing -/

/-- The fields of the header of an entry. -/
def localFields (entry : ZipEntry) : List (ℕ × ℕ) :=
  [(4, localHeaderSignature), (2, zipVersion), (2, utf8NameFlag), (2, methodStore), (2, dosTime),
    (2, dosDate), (4, (crc32 entry.data).toNat), (4, entry.data.length), (4, entry.data.length),
    (2, entry.name.length), (2, 0)]

/-- The fields of the directory for an entry at an offset. -/
def centralFields (offset : ℕ) (entry : ZipEntry) : List (ℕ × ℕ) :=
  [(4, centralHeaderSignature), (2, zipVersion), (2, zipVersion), (2, utf8NameFlag),
    (2, methodStore), (2, dosTime), (2, dosDate), (4, (crc32 entry.data).toNat),
    (4, entry.data.length), (4, entry.data.length), (2, entry.name.length), (2, 0), (2, 0), (2, 0),
    (2, 0), (4, 0), (4, offset)]

/-- The fields of the record at the end. -/
def endFields (count cdSize cdOffset : ℕ) : List (ℕ × ℕ) :=
  [(4, endOfCentralDirectorySignature), (2, 0), (2, 0), (2, count), (2, count), (4, cdSize),
    (4, cdOffset), (2, 0)]

/-- What is written for an entry. -/
def localRecord (entry : ZipEntry) : Bytes :=
  fields (localFields entry) ++ (entry.name ++ entry.data)

/-- What is written to the directory for an entry. -/
def centralRecord (offset : ℕ) (entry : ZipEntry) : Bytes :=
  fields (centralFields offset entry) ++ entry.name

/-- One round of the loop of `BuildStoreOnlyZip`: the entries and the directory
so far. -/
def addEntry (parts : Bytes × Bytes) (entry : ZipEntry) : Bytes × Bytes :=
  (parts.1 ++ localRecord entry, parts.2 ++ centralRecord parts.1.length entry)

/-- **`BuildStoreOnlyZip`.** -/
def buildStoreOnlyZip (entries : List ZipEntry) : Bytes :=
  let parts := entries.foldl addEntry ([], [])
  parts.1 ++ (parts.2 ++ fields (endFields entries.length parts.2.length parts.1.length))

/-! ## Reading -/

/-- `IsSafeEntryName`. -/
def isSafeEntryName (name : Bytes) : Bool :=
  !name.isEmpty && !decide ([0x2e, 0x2e] <:+: name)
    && !name.any (fun ch => ch = 0x2f || ch = 0x5c || ch = 0x3a || ch < 0x20)

/-- `CentralEntry`. -/
structure CentralEntry where
  flags : ℕ
  method : ℕ
  crc : ℕ
  size : ℕ
  localOffset : ℕ
  name : Bytes
deriving DecidableEq

/-- `EndOfCentralDirectory`. -/
structure EndOfCentralDirectory where
  cdOffset : ℕ
  cdSize : ℕ
  entryCount : ℕ
  position : ℕ
deriving DecidableEq

/-- The end record at a place where there is one. -/
def endOfCentralDirectoryAt (bytes : Bytes) (pos : ℕ) : Except ZipError EndOfCentralDirectory :=
  if read bytes (pos + 4) 2 ≠ 0 ∨ read bytes (pos + 6) 2 ≠ 0
      ∨ read bytes (pos + 8) 2 ≠ read bytes (pos + 10) 2 then .error .multiDisk
  else if read bytes (pos + 16) 4 + read bytes (pos + 12) 4 > pos then .error .badOffset
  else .ok ⟨read bytes (pos + 16) 4, read bytes (pos + 12) 4, read bytes (pos + 10) 2, pos⟩

/-- The loop of `FindEndOfCentralDirectory`, down to the place `first`. -/
def searchEndOfCentralDirectory (bytes : Bytes) (first : ℕ) :
    ℕ → Except ZipError EndOfCentralDirectory
  | 0 => .error .missingEndOfCentralDirectory
  | n + 1 =>
    if read bytes (first + n) 4 ≠ endOfCentralDirectorySignature then
      searchEndOfCentralDirectory bytes first n
    -- the comment must end where the file does
    else if first + n + endOfCentralDirectorySize + read bytes (first + n + 20) 2 ≠ bytes.length then
      searchEndOfCentralDirectory bytes first n
    else endOfCentralDirectoryAt bytes (first + n)

/-- `FindEndOfCentralDirectory`. -/
def findEndOfCentralDirectory (bytes : Bytes) : Except ZipError EndOfCentralDirectory :=
  if bytes.length < endOfCentralDirectorySize then .error .missingEndOfCentralDirectory
  else
    let last := bytes.length - endOfCentralDirectorySize
    let first := last - maxCommentSize
    searchEndOfCentralDirectory bytes first (last + 1 - first)

/-- The directory's entry at a place. -/
def centralEntryAt (bytes : Bytes) (pos : ℕ) : CentralEntry where
  flags := read bytes (pos + 8) 2
  method := read bytes (pos + 10) 2
  crc := read bytes (pos + 16) 4
  size := read bytes (pos + 24) 4
  localOffset := read bytes (pos + 42) 4
  name := (bytes.drop (pos + centralHeaderSize)).take (read bytes (pos + 28) 2)

/-- The bytes that follow the fixed part of the directory's entry at a place. -/
def variableSize (bytes : Bytes) (pos : ℕ) : ℕ :=
  read bytes (pos + 28) 2 + read bytes (pos + 30) 2 + read bytes (pos + 32) 2

/-- What the loop of `ReadCentralDirectory` asks of an entry: of its header, of
the total size with it, and of its name among those before it. -/
def checkCentralEntry (bytes : Bytes) (limits : ZipLimits) (pos total : ℕ) (names : List Bytes)
    (entry : CentralEntry) : Except ZipError Unit :=
  if read bytes (pos + 34) 2 ≠ 0 then .error .multiDisk
  else if entry.flags &&& (0xFFFF ^^^ utf8NameFlag) ≠ 0 then .error .unsupportedFlags
  else if entry.method ≠ methodStore then .error .unsupportedMethod
  else if read bytes (pos + 20) 4 ≠ entry.size then .error .sizeMismatch
  else if limits.maxEntryBytes < entry.size then .error .entryTooLarge
  else if limits.maxTotalBytes < total + entry.size then .error .totalTooLarge
  else if !isSafeEntryName entry.name then .error .invalidName
  else if entry.name ∈ names then .error .duplicateName
  else .ok ()

/-- The loop of `ReadCentralDirectory`: the entries still to read, the place, the
total size and the names so far. -/
def readCentralEntries (bytes : Bytes) (limits : ZipLimits) (cdEnd : ℕ) :
    ℕ → ℕ → ℕ → List Bytes → Except ZipError (List CentralEntry)
  | 0, pos, _, _ => if pos ≠ cdEnd then .error .badCentralDirectory else .ok []
  | n + 1, pos, total, names =>
    if cdEnd - pos < centralHeaderSize ∨ read bytes pos 4 ≠ centralHeaderSignature then
      .error .badCentralDirectory
    else if cdEnd - pos - centralHeaderSize < variableSize bytes pos then
      .error .badCentralDirectory
    else
      let entry := centralEntryAt bytes pos
      match checkCentralEntry bytes limits pos total names entry with
      | .error e => .error e
      | .ok () =>
        (readCentralEntries bytes limits cdEnd n
          (pos + (centralHeaderSize + variableSize bytes pos)) (total + entry.size)
          (entry.name :: names)).map (entry :: ·)

/-- `ReadCentralDirectory`. -/
def readCentralDirectory (bytes : Bytes) (eocd : EndOfCentralDirectory) (limits : ZipLimits) :
    Except ZipError (List CentralEntry) :=
  if limits.maxEntries < eocd.entryCount then .error .tooManyEntries
  else
    readCentralEntries bytes limits (eocd.cdOffset + eocd.cdSize) eocd.entryCount eocd.cdOffset 0 []

/-- **`CheckLocalEntry`**: where the data of an entry begins. -/
def checkLocalEntry (bytes : Bytes) (entry : CentralEntry) (dataLimit : ℕ) : Except ZipError ℕ :=
  let pos := entry.localOffset
  if dataLimit < pos ∨ dataLimit - pos < localHeaderSize then .error .badOffset
  else if read bytes pos 4 ≠ localHeaderSignature then .error .badLocalHeader
  else
    let nameLength := read bytes (pos + 26) 2
    let dataStart := pos + localHeaderSize + nameLength + read bytes (pos + 28) 2
    if dataLimit < dataStart ∨ dataLimit - dataStart < entry.size then .error .overlappingEntries
    else if read bytes (pos + 6) 2 ≠ entry.flags ∨ read bytes (pos + 8) 2 ≠ entry.method
        ∨ read bytes (pos + 14) 4 ≠ entry.crc ∨ read bytes (pos + 18) 4 ≠ entry.size
        ∨ read bytes (pos + 22) 4 ≠ entry.size
        ∨ (bytes.drop (pos + localHeaderSize)).take nameLength ≠ entry.name then
      .error .headerMismatch
    else if (crc32 ((bytes.drop dataStart).take entry.size)).toNat ≠ entry.crc then
      .error .crcMismatch
    else .ok dataStart

/-- The loop over the entries in the order of the file: where the data of each
begins, by its place in the directory. -/
def walkLocalEntries (bytes : Bytes) (cdOffset : ℕ) :
    List (CentralEntry × ℕ) → Except ZipError (List (ℕ × ℕ))
  | [] => .ok []
  | (entry, i) :: rest =>
    let limit := (rest.head?.map (fun next => next.1.localOffset)).getD cdOffset
    match checkLocalEntry bytes entry limit with
    | .error e => .error e
    | .ok offset => (walkLocalEntries bytes cdOffset rest).map ((i, offset) :: ·)

/-- **`ParseStoreOnlyZip`.** The sort of the library is not stable; two entries
at one place are refused in either order, the first of them for its bounds. -/
def parseStoreOnlyZip (bytes : Bytes) (limits : ZipLimits) : Except ZipError (List ZipEntry) :=
  match findEndOfCentralDirectory bytes with
  | .error e => .error e
  | .ok eocd =>
    match readCentralDirectory bytes eocd limits with
    | .error e => .error e
    | .ok central =>
      let order := central.zipIdx.mergeSort (fun a b => a.1.localOffset ≤ b.1.localOffset)
      match walkLocalEntries bytes eocd.cdOffset order with
      | .error e => .error e
      | .ok offsets =>
        .ok (central.zipIdx.map (fun e =>
          ⟨e.1.name, (bytes.drop ((offsets.lookup e.2).getD 0)).take e.1.size⟩))

/-! ## What the writer leaves -/

/-- The directory of entries of which the first is at an offset. -/
def directory : ℕ → List ZipEntry → Bytes
  | _, [] => []
  | offset, entry :: entries =>
    centralRecord offset entry ++ directory (offset + (localRecord entry).length) entries

/-- What the loop leaves. -/
theorem foldl_addEntry (entries : List ZipEntry) (parts : Bytes × Bytes) :
    entries.foldl addEntry parts
      = (parts.1 ++ entries.flatMap localRecord, parts.2 ++ directory parts.1.length entries) := by
  induction entries generalizing parts with
  | nil => simp [directory]
  | cons entry entries ih =>
    rw [List.foldl_cons, ih]
    simp only [addEntry, List.flatMap_cons, directory, List.length_append, List.append_assoc]

/-- **An archive is its entries, its directory and the end record.** -/
theorem buildStoreOnlyZip_eq (entries : List ZipEntry) :
    buildStoreOnlyZip entries = entries.flatMap localRecord ++ (directory 0 entries
      ++ fields (endFields entries.length (directory 0 entries).length
        (entries.flatMap localRecord).length)) := by
  unfold buildStoreOnlyZip
  rw [foldl_addEntry]
  rfl

/-- The size of what is written for an entry. -/
theorem length_localRecord (entry : ZipEntry) :
    (localRecord entry).length = localHeaderSize + entry.name.length + entry.data.length := by
  unfold localRecord
  rw [List.length_append, List.length_append, length_fields, ← Nat.add_assoc]
  rfl

/-- The size of what is written to the directory for an entry. -/
theorem length_centralRecord (offset : ℕ) (entry : ZipEntry) :
    (centralRecord offset entry).length = centralHeaderSize + entry.name.length := by
  unfold centralRecord
  rw [List.length_append, length_fields]
  rfl

/-- The size of the end record. -/
theorem length_endFields (count cdSize cdOffset : ℕ) :
    (fields (endFields count cdSize cdOffset)).length = endOfCentralDirectorySize := by
  rw [length_fields]
  rfl

/-! ## Reading what was written -/

/-- **The end record is found at once**, since it has no comment. -/
theorem findEndOfCentralDirectory_append {front : Bytes} {count cdSize cdOffset : ℕ}
    (hcount : count < 256 ^ 2) (hsize : cdSize < 256 ^ 4) (hoffset : cdOffset < 256 ^ 4)
    (hfront : cdOffset + cdSize = front.length) :
    findEndOfCentralDirectory (front ++ fields (endFields count cdSize cdOffset))
      = .ok ⟨cdOffset, cdSize, count, front.length⟩ := by
  set bytes := front ++ fields (endFields count cdSize cdOffset) with hbytes
  have hlength : bytes.length = front.length + endOfCentralDirectorySize := by
    rw [hbytes, List.length_append, length_endFields]
  have hread : ∀ (i : ℕ) {width n offset : ℕ},
      (endFields count cdSize cdOffset)[i]? = some (width, n) →
      widths ((endFields count cdSize cdOffset).take i) = offset →
      read bytes (front.length + offset) width = n % 256 ^ width := by
    intro i width n offset h hoffset
    have hfield := read_fields front [] (endFields count cdSize cdOffset) i h hoffset
    rwa [List.append_nil] at hfield
  have h0 : read bytes front.length 4 = endOfCentralDirectorySignature := hread 0 rfl rfl
  have h4 : read bytes (front.length + 4) 2 = 0 := hread 1 rfl rfl
  have h6 : read bytes (front.length + 6) 2 = 0 := hread 2 rfl rfl
  have h8 : read bytes (front.length + 8) 2 = count % 256 ^ 2 := hread 3 rfl rfl
  have h10 : read bytes (front.length + 10) 2 = count % 256 ^ 2 := hread 4 rfl rfl
  have h12 : read bytes (front.length + 12) 4 = cdSize % 256 ^ 4 := hread 5 rfl rfl
  have h16 : read bytes (front.length + 16) 4 = cdOffset % 256 ^ 4 := hread 6 rfl rfl
  have h20 : read bytes (front.length + 20) 2 = 0 := hread 7 rfl rfl
  rw [Nat.mod_eq_of_lt hcount] at h8 h10
  rw [Nat.mod_eq_of_lt hsize] at h12
  rw [Nat.mod_eq_of_lt hoffset] at h16
  have hlast : bytes.length - endOfCentralDirectorySize = front.length := by omega
  have hstart : front.length + 1 - (front.length - maxCommentSize)
      = (front.length - (front.length - maxCommentSize)) + 1 := by omega
  have hpos : front.length - maxCommentSize + (front.length - (front.length - maxCommentSize))
      = front.length := by omega
  unfold findEndOfCentralDirectory
  rw [if_neg (by omega)]
  simp only [hlast]
  rw [hstart, searchEndOfCentralDirectory, hpos, if_neg (not_not.mpr h0), h20,
    Nat.add_zero, if_neg (not_not.mpr hlength.symm), endOfCentralDirectoryAt, h4, h6, h8, h10, h12, h16,
    if_neg (by simp), if_neg (by omega)]

/-- What the directory says about an entry at an offset. -/
def centralEntry (offset : ℕ) (entry : ZipEntry) : CentralEntry where
  flags := utf8NameFlag
  method := methodStore
  crc := (crc32 entry.data).toNat
  size := entry.data.length
  localOffset := offset
  name := entry.name

/-- What the directory says about entries of which the first is at an offset. -/
def centralEntries : ℕ → List ZipEntry → List CentralEntry
  | _, [] => []
  | offset, entry :: entries =>
    centralEntry offset entry :: centralEntries (offset + (localRecord entry).length) entries

/-- The sizes of an entry that its headers have room for. -/
structure ZipEntry.Fits (entry : ZipEntry) : Prop where
  name : entry.name.length < 256 ^ 2
  data : entry.data.length < 256 ^ 4

/-- A check sum fits its field. -/
theorem crc32_lt (data : Bytes) : (crc32 data).toNat < 256 ^ 4 := (crc32 data).toNat_lt

section CentralRecord

variable {offset : ℕ} {entry : ZipEntry} (before after : Bytes)

/-- The fields of the directory, in a file. -/
theorem read_centralRecord (i : ℕ) {width n place : ℕ}
    (h : (centralFields offset entry)[i]? = some (width, n))
    (hplace : widths ((centralFields offset entry).take i) = place) :
    read (before ++ (centralRecord offset entry ++ after)) (before.length + place) width
      = n % 256 ^ width := by
  unfold centralRecord
  rw [List.append_assoc]
  exact read_fields before (entry.name ++ after) (centralFields offset entry) i h hplace

/-- The name of an entry, in the directory. -/
theorem name_centralRecord :
    ((before ++ (centralRecord offset entry ++ after)).drop (before.length + centralHeaderSize)).take
      entry.name.length = entry.name := by
  have hsplit : before ++ (centralRecord offset entry ++ after)
      = (before ++ fields (centralFields offset entry)) ++ (entry.name ++ after) := by
    simp only [centralRecord, List.append_assoc]
  have hlength : (before ++ fields (centralFields offset entry)).length
      = before.length + centralHeaderSize := by
    rw [List.length_append, length_fields]
    rfl
  rw [hsplit, ← hlength, List.drop_left, List.take_left]

/-- **The directory's entry is read as it was written.** -/
theorem centralEntryAt_centralRecord (hoffset : offset < 256 ^ 4) (hfits : entry.Fits) :
    centralEntryAt (before ++ (centralRecord offset entry ++ after)) before.length
        = centralEntry offset entry
      ∧ variableSize (before ++ (centralRecord offset entry ++ after)) before.length
        = entry.name.length := by
  have hread := @read_centralRecord offset entry before after
  set bytes := before ++ (centralRecord offset entry ++ after) with hbytes
  have h8 : read bytes (before.length + 8) 2 = utf8NameFlag := hread 3 rfl rfl
  have h10 : read bytes (before.length + 10) 2 = methodStore := hread 4 rfl rfl
  have h16 : read bytes (before.length + 16) 4 = (crc32 entry.data).toNat % 256 ^ 4 := hread 7 rfl rfl
  have h24 : read bytes (before.length + 24) 4 = entry.data.length % 256 ^ 4 := hread 9 rfl rfl
  have h28 : read bytes (before.length + 28) 2 = entry.name.length % 256 ^ 2 := hread 10 rfl rfl
  have h30 : read bytes (before.length + 30) 2 = 0 := hread 11 rfl rfl
  have h32 : read bytes (before.length + 32) 2 = 0 := hread 12 rfl rfl
  have h42 : read bytes (before.length + 42) 4 = offset % 256 ^ 4 := hread 16 rfl rfl
  rw [Nat.mod_eq_of_lt (crc32_lt entry.data)] at h16
  rw [Nat.mod_eq_of_lt hfits.data] at h24
  rw [Nat.mod_eq_of_lt hfits.name] at h28
  rw [Nat.mod_eq_of_lt hoffset] at h42
  unfold centralEntryAt variableSize centralEntry
  rw [h8, h10, h16, h24, h28, h30, h32, h42, hbytes, name_centralRecord before after]
  exact ⟨rfl, rfl⟩

end CentralRecord

/-- **What the reader asks of the entries**: the limits, and that each name is
safe and given once. -/
structure Zippable (limits : ZipLimits) (entries : List ZipEntry) : Prop where
  count : entries.length ≤ limits.maxEntries
  size : ∀ entry ∈ entries, entry.data.length ≤ limits.maxEntryBytes
  total : (entries.map (fun entry => entry.data.length)).sum ≤ limits.maxTotalBytes
  safe : ∀ entry ∈ entries, isSafeEntryName entry.name = true
  distinct : (entries.map ZipEntry.name).Nodup
  fits : ∀ entry ∈ entries, entry.Fits

/-- An entry passes the checks of the directory. -/
theorem checkCentralEntry_centralRecord {limits : ZipLimits} {offset total : ℕ}
    {names : List Bytes} {entry : ZipEntry} (before after : Bytes) (hfits : entry.Fits)
    (hsize : entry.data.length ≤ limits.maxEntryBytes)
    (htotal : total + entry.data.length ≤ limits.maxTotalBytes)
    (hsafe : isSafeEntryName entry.name = true) (hnames : entry.name ∉ names) :
    checkCentralEntry (before ++ (centralRecord offset entry ++ after)) limits before.length total
      names (centralEntry offset entry) = .ok () := by
  have hread := @read_centralRecord offset entry before after
  set bytes := before ++ (centralRecord offset entry ++ after)
  have h20 : read bytes (before.length + 20) 4 = entry.data.length % 256 ^ 4 := hread 8 rfl rfl
  have h34 : read bytes (before.length + 34) 2 = 0 := hread 13 rfl rfl
  rw [Nat.mod_eq_of_lt hfits.data] at h20
  unfold checkCentralEntry centralEntry
  dsimp only
  rw [h20, h34, if_neg (by decide), if_neg (by decide), if_neg (by decide), if_neg (not_not.mpr rfl),
    if_neg (by omega), if_neg (by omega), hsafe, if_neg (by decide), if_neg hnames]

/-- **The directory is read as it was written.** -/
theorem readCentralEntries_directory {limits : ZipLimits} {entries : List ZipEntry}
    (before after : Bytes) (offset total : ℕ) (names : List Bytes)
    (hoffset : offset + (entries.flatMap localRecord).length ≤ 256 ^ 4)
    (hsize : ∀ entry ∈ entries, entry.data.length ≤ limits.maxEntryBytes)
    (htotal : total + (entries.map (fun entry => entry.data.length)).sum ≤ limits.maxTotalBytes)
    (hsafe : ∀ entry ∈ entries, isSafeEntryName entry.name = true)
    (hdistinct : (entries.map ZipEntry.name).Nodup) (hfits : ∀ entry ∈ entries, entry.Fits)
    (hnames : ∀ entry ∈ entries, entry.name ∉ names) :
    readCentralEntries (before ++ (directory offset entries ++ after)) limits
      (before.length + (directory offset entries).length) entries.length before.length total names
      = .ok (centralEntries offset entries) := by
  induction entries generalizing before offset total names with
  | nil => simp [readCentralEntries, directory, centralEntries]
  | cons entry entries ih =>
    have hentry := hfits entry List.mem_cons_self
    have hlocal := length_localRecord entry
    have hcentral := length_centralRecord offset entry
    simp only [List.flatMap_cons, List.length_append] at hoffset
    simp only [List.map_cons, List.sum_cons] at htotal
    rw [List.map_cons, List.nodup_cons] at hdistinct
    have hlt : offset < 256 ^ 4 := by
      have hpos : 0 < localHeaderSize := by decide
      omega
    have hbytes : before ++ (directory offset (entry :: entries) ++ after)
        = before ++ (centralRecord offset entry
          ++ (directory (offset + (localRecord entry).length) entries ++ after)) := by
      rw [directory, List.append_assoc]
    have hrest : before ++ (directory offset (entry :: entries) ++ after)
        = (before ++ centralRecord offset entry)
          ++ (directory (offset + (localRecord entry).length) entries ++ after) := by
      rw [hbytes, List.append_assoc]
    have hsignature : read (before ++ (directory offset (entry :: entries) ++ after)) before.length 4
        = centralHeaderSignature := by
      rw [hbytes]
      exact read_centralRecord before _ 0 rfl rfl
    obtain ⟨hat, hvariable⟩ := centralEntryAt_centralRecord before
      (directory (offset + (localRecord entry).length) entries ++ after) hlt hentry
    have hcheck := @checkCentralEntry_centralRecord _ offset total _ _ before
      (directory (offset + (localRecord entry).length) entries ++ after) hentry
      (hsize entry List.mem_cons_self) (by omega) (hsafe entry List.mem_cons_self)
      (hnames entry List.mem_cons_self)
    rw [← hbytes] at hat hvariable hcheck
    have hlength : (directory offset (entry :: entries)).length = centralHeaderSize
        + entry.name.length
        + (directory (offset + (localRecord entry).length) entries).length := by
      rw [directory, List.length_append, hcentral]
    have htail := ih (before ++ centralRecord offset entry) (offset + (localRecord entry).length)
      (total + entry.data.length) (entry.name :: names) (by omega)
      (fun e he => hsize e (List.mem_cons_of_mem _ he)) (by omega)
      (fun e he => hsafe e (List.mem_cons_of_mem _ he)) hdistinct.2
      (fun e he => hfits e (List.mem_cons_of_mem _ he)) (fun e he => by
        rw [List.mem_cons, not_or]
        refine ⟨fun heq => hdistinct.1 ?_, hnames e (List.mem_cons_of_mem _ he)⟩
        rw [← heq]
        exact List.mem_map_of_mem he)
    rw [← hrest, List.length_append, hcentral] at htail
    have hend : before.length + (directory offset (entry :: entries)).length
        = before.length + (centralHeaderSize + entry.name.length)
          + (directory (offset + (localRecord entry).length) entries).length := by
      rw [hlength]
      omega
    rw [List.length_cons, readCentralEntries, if_neg (by rw [hsignature]; omega), hvariable,
      if_neg (by omega)]
    simp only [hat, hcheck]
    show Except.map _ (readCentralEntries _ limits _ entries.length
      (before.length + (centralHeaderSize + entry.name.length)) (total + entry.data.length)
      (entry.name :: names)) = _
    rw [hend, htail, centralEntries]
    rfl

section LocalRecord

variable {entry : ZipEntry} (before after : Bytes)

/-- The fields of an entry's header, in a file. -/
theorem read_localRecord (i : ℕ) {width n place : ℕ}
    (h : (localFields entry)[i]? = some (width, n))
    (hplace : widths ((localFields entry).take i) = place) :
    read (before ++ (localRecord entry ++ after)) (before.length + place) width
      = n % 256 ^ width := by
  unfold localRecord
  rw [List.append_assoc]
  exact read_fields before _ (localFields entry) i h hplace

/-- The name of an entry, in a file. -/
theorem name_localRecord :
    ((before ++ (localRecord entry ++ after)).drop (before.length + localHeaderSize)).take
      entry.name.length = entry.name := by
  have hsplit : before ++ (localRecord entry ++ after)
      = (before ++ fields (localFields entry)) ++ (entry.name ++ (entry.data ++ after)) := by
    simp only [localRecord, List.append_assoc]
  have hlength : (before ++ fields (localFields entry)).length
      = before.length + localHeaderSize := by
    rw [List.length_append, length_fields]
    rfl
  rw [hsplit, ← hlength, List.drop_left, List.take_left]

/-- The data of an entry, in a file. -/
theorem data_localRecord :
    ((before ++ (localRecord entry ++ after)).drop
      (before.length + localHeaderSize + entry.name.length)).take entry.data.length = entry.data := by
  have hsplit : before ++ (localRecord entry ++ after)
      = (before ++ (fields (localFields entry) ++ entry.name)) ++ (entry.data ++ after) := by
    simp only [localRecord, List.append_assoc]
  have hlength : (before ++ (fields (localFields entry) ++ entry.name)).length
      = before.length + localHeaderSize + entry.name.length := by
    rw [List.length_append, List.length_append, length_fields, ← Nat.add_assoc]
    rfl
  rw [hsplit, ← hlength, List.drop_left, List.take_left]

/-- **An entry that was written passes the check**, up to where it ends. -/
theorem checkLocalEntry_localRecord (hfits : entry.Fits) :
    checkLocalEntry (before ++ (localRecord entry ++ after)) (centralEntry before.length entry)
        (before.length + (localRecord entry).length)
      = .ok (before.length + localHeaderSize + entry.name.length) := by
  have hread := @read_localRecord entry before after
  have hname := @name_localRecord entry before after
  have hdata := @data_localRecord entry before after
  have hlength := length_localRecord entry
  set bytes := before ++ (localRecord entry ++ after)
  have h0 : read bytes before.length 4 = localHeaderSignature := hread 0 rfl rfl
  have h6 : read bytes (before.length + 6) 2 = utf8NameFlag := hread 2 rfl rfl
  have h8 : read bytes (before.length + 8) 2 = methodStore := hread 3 rfl rfl
  have h14 : read bytes (before.length + 14) 4 = (crc32 entry.data).toNat % 256 ^ 4 :=
    hread 6 rfl rfl
  have h18 : read bytes (before.length + 18) 4 = entry.data.length % 256 ^ 4 := hread 7 rfl rfl
  have h22 : read bytes (before.length + 22) 4 = entry.data.length % 256 ^ 4 := hread 8 rfl rfl
  have h26 : read bytes (before.length + 26) 2 = entry.name.length % 256 ^ 2 := hread 9 rfl rfl
  have h28 : read bytes (before.length + 28) 2 = 0 := hread 10 rfl rfl
  rw [Nat.mod_eq_of_lt (crc32_lt entry.data)] at h14
  rw [Nat.mod_eq_of_lt hfits.data] at h18 h22
  rw [Nat.mod_eq_of_lt hfits.name] at h26
  unfold checkLocalEntry centralEntry
  dsimp only
  rw [h0, h6, h8, h14, h18, h22, h26, h28, hname, Nat.add_zero, hdata, if_neg (by omega),
    if_neg (not_not.mpr rfl), if_neg (by omega), if_neg (by simp), if_neg (not_not.mpr rfl)]

end LocalRecord

/-- Where the data of entries begins, of which the first is at an offset and has a
place in the directory. -/
def dataOffsets : ℕ → ℕ → List ZipEntry → List (ℕ × ℕ)
  | _, _, [] => []
  | offset, i, entry :: entries =>
    (i, offset + localHeaderSize + entry.name.length)
      :: dataOffsets (offset + (localRecord entry).length) (i + 1) entries

/-- **The walk over entries that were written one after the other succeeds.** -/
theorem walkLocalEntries_localRecords {entries : List ZipEntry} (before after : Bytes) (i : ℕ)
    (hfits : ∀ entry ∈ entries, entry.Fits) :
    walkLocalEntries (before ++ (entries.flatMap localRecord ++ after))
        (before.length + (entries.flatMap localRecord).length)
        ((centralEntries before.length entries).zipIdx i)
      = .ok (dataOffsets before.length i entries) := by
  induction entries generalizing before i with
  | nil => rfl
  | cons entry entries ih =>
    have hbytes : before ++ ((entry :: entries).flatMap localRecord ++ after)
        = before ++ (localRecord entry ++ (entries.flatMap localRecord ++ after)) := by
      rw [List.flatMap_cons, List.append_assoc]
    have hend : before.length + ((entry :: entries).flatMap localRecord).length
        = (before ++ localRecord entry).length + (entries.flatMap localRecord).length := by
      rw [List.flatMap_cons, List.length_append, List.length_append, Nat.add_assoc]
    -- an entry is followed by the next one, the last one by the directory
    have hlimit : ((((centralEntries (before.length + (localRecord entry).length) entries).zipIdx
        (i + 1)).head?.map (fun next => next.1.localOffset)).getD
          (before.length + ((entry :: entries).flatMap localRecord).length))
        = before.length + (localRecord entry).length := by
      cases entries with
      | nil => simp [centralEntries]
      | cons next entries => simp [centralEntries, centralEntry]
    have hcheck := checkLocalEntry_localRecord before (entries.flatMap localRecord ++ after)
      (hfits entry List.mem_cons_self)
    have htail := ih (before ++ localRecord entry) (i + 1)
      (fun e he => hfits e (List.mem_cons_of_mem _ he))
    rw [List.append_assoc, ← hbytes, ← hend, List.length_append] at htail
    rw [← hbytes] at hcheck
    rw [centralEntries, List.zipIdx_cons, walkLocalEntries]
    simp only [hlimit, hcheck, htail, dataOffsets]
    rfl

/-- The offsets in the directory do not decrease, and the first is the least. -/
theorem le_of_mem_centralEntries {entries : List ZipEntry} {offset : ℕ} {e : CentralEntry}
    (h : e ∈ centralEntries offset entries) : offset ≤ e.localOffset := by
  induction entries generalizing offset with
  | nil => cases h
  | cons entry entries ih =>
    rcases List.mem_cons.mp h with rfl | h
    · exact le_rfl
    · exact (Nat.le_add_right _ _).trans (ih h)

/-- The directory is in the order of the file. -/
theorem pairwise_centralEntries (entries : List ZipEntry) (offset i : ℕ) :
    ((centralEntries offset entries).zipIdx i).Pairwise
      (fun a b => a.1.localOffset ≤ b.1.localOffset) := by
  induction entries generalizing offset i with
  | nil => exact .nil
  | cons entry entries ih =>
    rw [centralEntries, List.zipIdx_cons, List.pairwise_cons]
    refine ⟨fun e he => ?_, ih _ _⟩
    have hmem := le_of_mem_centralEntries (List.fst_mem_of_mem_zipIdx he)
    exact (Nat.le_add_right _ _).trans hmem

/-- **What is cut out of the file is what was put into it.** -/
theorem map_slice_centralEntries {entries : List ZipEntry} (before after : Bytes) (i : ℕ)
    (offsets : List (ℕ × ℕ))
    (hoffsets : ∀ j, i ≤ j → offsets.lookup j = (dataOffsets before.length i entries).lookup j) :
    ((centralEntries before.length entries).zipIdx i).map (fun e => (⟨e.1.name,
        ((before ++ (entries.flatMap localRecord ++ after)).drop ((offsets.lookup e.2).getD 0)).take
          e.1.size⟩ : ZipEntry)) = entries := by
  induction entries generalizing before i with
  | nil => rfl
  | cons entry entries ih =>
    have hbytes : before ++ ((entry :: entries).flatMap localRecord ++ after)
        = before ++ (localRecord entry ++ (entries.flatMap localRecord ++ after)) := by
      rw [List.flatMap_cons, List.append_assoc]
    have hhead : offsets.lookup i
        = some (before.length + localHeaderSize + entry.name.length) := by
      rw [hoffsets i le_rfl, dataOffsets, List.lookup_cons_self]
    have htail := ih (before ++ localRecord entry) (i + 1) (fun j hj => by
      rw [hoffsets j (by omega), dataOffsets, List.lookup_cons,
        show (j == i) = false from beq_eq_false_iff_ne.mpr (by omega), List.length_append])
    rw [List.append_assoc, ← hbytes, List.length_append] at htail
    rw [centralEntries, List.zipIdx_cons, List.map_cons, htail]
    simp only [hhead, Option.getD_some, centralEntry, List.cons.injEq, and_true]
    rw [hbytes, data_localRecord]

/-- **An archive is read as it was written.** -/
theorem parseStoreOnlyZip_buildStoreOnlyZip {limits : ZipLimits} {entries : List ZipEntry}
    (h : Zippable limits entries) (hcount : entries.length < 256 ^ 2)
    (hsize : (buildStoreOnlyZip entries).length ≤ 256 ^ 4) :
    parseStoreOnlyZip (buildStoreOnlyZip entries) limits = .ok entries := by
  have hlength := congrArg List.length (buildStoreOnlyZip_eq entries)
  rw [List.length_append, List.length_append, length_endFields] at hlength
  have hpos : 0 < endOfCentralDirectorySize := by decide
  have hfind : findEndOfCentralDirectory (buildStoreOnlyZip entries)
      = .ok ⟨(entries.flatMap localRecord).length, (directory 0 entries).length, entries.length,
          (entries.flatMap localRecord ++ directory 0 entries).length⟩ := by
    rw [buildStoreOnlyZip_eq, ← List.append_assoc]
    exact findEndOfCentralDirectory_append hcount (by omega) (by omega) List.length_append.symm
  have hcentral : readCentralDirectory (buildStoreOnlyZip entries)
      ⟨(entries.flatMap localRecord).length, (directory 0 entries).length, entries.length,
        (entries.flatMap localRecord ++ directory 0 entries).length⟩ limits
      = .ok (centralEntries 0 entries) := by
    unfold readCentralDirectory
    rw [if_neg (not_lt.mpr h.count), buildStoreOnlyZip_eq]
    exact readCentralEntries_directory (entries.flatMap localRecord) _ 0 0 [] (by omega) h.size
      (by rw [Nat.zero_add]; exact h.total) h.safe h.distinct h.fits
      (fun _ _ => List.not_mem_nil)
  have hsorted : ((centralEntries 0 entries).zipIdx).mergeSort
      (fun a b => a.1.localOffset ≤ b.1.localOffset) = (centralEntries 0 entries).zipIdx := by
    refine List.mergeSort_of_pairwise ((pairwise_centralEntries entries 0 0).imp ?_)
    intro a b hab
    exact decide_eq_true hab
  have hwalk := @walkLocalEntries_localRecords entries [] (directory 0 entries
    ++ fields (endFields entries.length (directory 0 entries).length
      (entries.flatMap localRecord).length)) 0 h.fits
  have hmap := @map_slice_centralEntries entries [] (directory 0 entries
    ++ fields (endFields entries.length (directory 0 entries).length
      (entries.flatMap localRecord).length)) 0 (dataOffsets 0 0 entries) (fun _ _ => rfl)
  simp only [List.nil_append, List.length_nil, Nat.zero_add, ← buildStoreOnlyZip_eq] at hwalk hmap
  unfold parseStoreOnlyZip
  simp only [hfind, hcentral, hsorted, hwalk, hmap]

/-! ## What is read has distinct names -/

/-- The names in the directory are distinct, and none was seen before it. -/
theorem nodup_of_readCentralEntries {bytes : Bytes} {limits : ZipLimits} {cdEnd n pos total : ℕ}
    {names : List Bytes} {central : List CentralEntry}
    (h : readCentralEntries bytes limits cdEnd n pos total names = .ok central) :
    (central.map CentralEntry.name).Nodup ∧ ∀ e ∈ central, e.name ∉ names := by
  induction n generalizing pos total names central with
  | zero =>
    unfold readCentralEntries at h
    split at h
    · cases h
    · cases h
      exact ⟨List.nodup_nil, fun e he => absurd he List.not_mem_nil⟩
  | succ n ih =>
    unfold readCentralEntries at h
    split at h
    · cases h
    split at h
    · cases h
    dsimp only at h
    split at h
    · cases h
    rename_i hcheck
    cases hrest : readCentralEntries bytes limits cdEnd n
        (pos + (centralHeaderSize + variableSize bytes pos))
        (total + (centralEntryAt bytes pos).size) ((centralEntryAt bytes pos).name :: names) with
    | error e => rw [hrest] at h; cases h
    | ok rest =>
      rw [hrest] at h
      cases h
      obtain ⟨hnodup, hnew⟩ := ih hrest
      have hhead : (centralEntryAt bytes pos).name ∉ names := by
        intro hmem
        unfold checkCentralEntry at hcheck
        split_ifs at hcheck
      refine ⟨?_, fun e he => ?_⟩
      · rw [List.map_cons, List.nodup_cons]
        refine ⟨fun hmem => ?_, hnodup⟩
        obtain ⟨e, he, hname⟩ := List.mem_map.mp hmem
        exact hnew e he (by rw [hname]; exact List.mem_cons_self)
      · rcases List.mem_cons.mp he with rfl | he
        · exact hhead
        · exact fun hmem => hnew e he (List.mem_cons_of_mem _ hmem)

/-- **The names of what is read are distinct.** -/
theorem nodup_of_parseStoreOnlyZip {bytes : Bytes} {limits : ZipLimits} {entries : List ZipEntry}
    (h : parseStoreOnlyZip bytes limits = .ok entries) : (entries.map ZipEntry.name).Nodup := by
  unfold parseStoreOnlyZip at h
  split at h
  · cases h
  rename_i eocd heocd
  split at h
  · cases h
  rename_i central hcentral
  dsimp only at h
  split at h
  · cases h
  cases h
  have hnames : ((central.zipIdx.map (fun e => e.1.name))) = central.map CentralEntry.name := by
    nth_rewrite 2 [← List.zipIdx_map_fst 0 central]
    rw [List.map_map]
    rfl
  unfold readCentralDirectory at hcentral
  split at hcentral
  · cases hcentral
  rw [List.map_map]
  show (central.zipIdx.map (fun e => e.1.name)).Nodup
  rw [hnames]
  exact (nodup_of_readCentralEntries hcentral).1

end AzooKey.Host.Backup

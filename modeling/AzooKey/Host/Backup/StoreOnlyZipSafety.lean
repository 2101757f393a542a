import AzooKey.Host.Backup.StoreOnlyZip

/-!
# What the reader of archives reads

`ParseStoreOnlyZip` reads an archive from anywhere. Every offset, every length
and every count in it is the archive's own, and the end of an entry is where the
next one says that it begins.

The first part of this module is the reader again, with every access checked: a
read outside of the bytes is a fault, and so are a part that begins outside of
them and a difference of two offsets that would wrap around. The search for the
end record and the walk over the directory never fault. The walk over the
entries does, for an archive whose directory names two places behind its end:
the end of the first entry is then the second place, and nothing says that the
first place lies in the archive. `WalksInside` is when it does not.

The second part is what an archive that is accepted is like: its entries have
names that are no paths, keep to the limits, and lie apart from each other
before the directory. The library's sort is not stable, so that everything is
said for every way of sorting the entries by their offsets
(`parseStoreOnlyZip_inside_iff`).
-/

namespace AzooKey.Host.Backup

open LittleEndian

/-! ## Checked accesses -/

/-- **A reader that may fault**: nothing, for a fault, or what it answers. -/
abbrev Checked (α : Type) := Option (Except ZipError α)

namespace Checked

variable {α β : Type}

/-- One reader after another. -/
def bind (x : Checked α) (f : α → Checked β) : Checked β :=
  match x with
  | none => none
  | some (.error e) => some (.error e)
  | some (.ok a) => f a

/-- Two or four bytes at an offset, `GetU16` and `GetU32`. -/
def get (bytes : Bytes) (offset width : ℕ) : Checked ℕ :=
  if offset + width ≤ bytes.length then some (.ok (read bytes offset width)) else none

/-- `substr`, which throws if the part begins outside of the bytes. -/
def substr (bytes : Bytes) (offset length : ℕ) : Checked Bytes :=
  if offset ≤ bytes.length then some (.ok ((bytes.drop offset).take length)) else none

/-- A difference of two `size_t`. -/
def minus (a b : ℕ) : Checked ℕ := if b ≤ a then some (.ok (a - b)) else none

/-- A reader that answers goes on. -/
@[simp] theorem bind_ok (a : α) (f : α → Checked β) : bind (some (.ok a)) f = f a := rfl

/-- An access inside of the bytes. -/
theorem get_of_le {bytes : Bytes} {offset width : ℕ} (h : offset + width ≤ bytes.length) :
    get bytes offset width = some (.ok (read bytes offset width)) := if_pos h

/-- A part that begins inside of the bytes. -/
theorem substr_of_le {bytes : Bytes} {offset length : ℕ} (h : offset ≤ bytes.length) :
    substr bytes offset length = some (.ok ((bytes.drop offset).take length)) := if_pos h

/-- A difference that does not wrap around. -/
theorem minus_of_le {a b : ℕ} (h : b ≤ a) : minus a b = some (.ok (a - b)) := if_pos h

end Checked

open Checked

/-- The end record at a place, checked. -/
def endOfCentralDirectoryAtChecked (bytes : Bytes) (pos : ℕ) : Checked EndOfCentralDirectory :=
  (get bytes (pos + 4) 2).bind fun disk =>
  (get bytes (pos + 6) 2).bind fun cdDisk =>
  (get bytes (pos + 8) 2).bind fun entriesOnDisk =>
  (get bytes (pos + 10) 2).bind fun entriesTotal =>
  if disk ≠ 0 ∨ cdDisk ≠ 0 ∨ entriesOnDisk ≠ entriesTotal then some (.error .multiDisk)
  else
    (get bytes (pos + 12) 4).bind fun cdSize =>
    (get bytes (pos + 16) 4).bind fun cdOffset =>
    if cdOffset + cdSize > pos then some (.error .badOffset)
    else some (.ok ⟨cdOffset, cdSize, entriesTotal, pos⟩)

/-- The search for the end record, checked. -/
def searchEndOfCentralDirectoryChecked (bytes : Bytes) (first : ℕ) :
    ℕ → Checked EndOfCentralDirectory
  | 0 => some (.error .missingEndOfCentralDirectory)
  | n + 1 =>
    (get bytes (first + n) 4).bind fun signature =>
    if signature ≠ endOfCentralDirectorySignature then
      searchEndOfCentralDirectoryChecked bytes first n
    else
      (get bytes (first + n + 20) 2).bind fun comment =>
      if first + n + endOfCentralDirectorySize + comment ≠ bytes.length then
        searchEndOfCentralDirectoryChecked bytes first n
      else endOfCentralDirectoryAtChecked bytes (first + n)

/-- `FindEndOfCentralDirectory`, checked. -/
def findEndOfCentralDirectoryChecked (bytes : Bytes) : Checked EndOfCentralDirectory :=
  if bytes.length < endOfCentralDirectorySize then some (.error .missingEndOfCentralDirectory)
  else
    (minus bytes.length endOfCentralDirectorySize).bind fun last =>
    let first := last - maxCommentSize
    searchEndOfCentralDirectoryChecked bytes first (last + 1 - first)

/-- The fields of the directory's entry at a place, checked. -/
def centralEntryAtChecked (bytes : Bytes) (pos cdEnd : ℕ) :
    Checked (CentralEntry × ℕ × ℕ × ℕ) :=
  (get bytes (pos + 8) 2).bind fun flags =>
  (get bytes (pos + 10) 2).bind fun method =>
  (get bytes (pos + 16) 4).bind fun crc =>
  (get bytes (pos + 20) 4).bind fun compressed =>
  (get bytes (pos + 24) 4).bind fun size =>
  (get bytes (pos + 28) 2).bind fun nameLength =>
  (get bytes (pos + 30) 2).bind fun extraLength =>
  (get bytes (pos + 32) 2).bind fun commentLength =>
  (get bytes (pos + 34) 2).bind fun startDisk =>
  (get bytes (pos + 42) 4).bind fun localOffset =>
  let variablePart := nameLength + extraLength + commentLength
  (minus (cdEnd - pos) centralHeaderSize).bind fun room =>
  if room < variablePart then some (.error .badCentralDirectory)
  else
    (substr bytes (pos + centralHeaderSize) nameLength).bind fun name =>
    some (.ok (⟨flags, method, crc, size, localOffset, name⟩, compressed, startDisk, variablePart))

/-- What is asked of the directory's entry, of which the fields were read. -/
def checkCentralFields (limits : ZipLimits) (total : ℕ) (names : List Bytes) (entry : CentralEntry)
    (compressed startDisk : ℕ) : Except ZipError Unit :=
  if startDisk ≠ 0 then .error .multiDisk
  else if entry.flags &&& (0xFFFF ^^^ utf8NameFlag) ≠ 0 then .error .unsupportedFlags
  else if entry.method ≠ methodStore then .error .unsupportedMethod
  else if compressed ≠ entry.size then .error .sizeMismatch
  else if limits.maxEntryBytes < entry.size then .error .entryTooLarge
  else if limits.maxTotalBytes < total + entry.size then .error .totalTooLarge
  else if !isSafeEntryName entry.name then .error .invalidName
  else if entry.name ∈ names then .error .duplicateName
  else .ok ()

/-- The loop of `ReadCentralDirectory`, checked. -/
def readCentralEntriesChecked (bytes : Bytes) (limits : ZipLimits) (cdEnd : ℕ) :
    ℕ → ℕ → ℕ → List Bytes → Checked (List CentralEntry)
  | 0, pos, _, _ => if pos ≠ cdEnd then some (.error .badCentralDirectory) else some (.ok [])
  | n + 1, pos, total, names =>
    (minus cdEnd pos).bind fun room =>
    if room < centralHeaderSize then some (.error .badCentralDirectory)
    else
      (get bytes pos 4).bind fun signature =>
      if signature ≠ centralHeaderSignature then some (.error .badCentralDirectory)
      else
        (centralEntryAtChecked bytes pos cdEnd).bind fun read =>
        match checkCentralFields limits total names read.1 read.2.1 read.2.2.1 with
        | .error e => some (.error e)
        | .ok () =>
          (readCentralEntriesChecked bytes limits cdEnd n
            (pos + (centralHeaderSize + read.2.2.2)) (total + read.1.size)
            (read.1.name :: names)).bind fun rest => some (.ok (read.1 :: rest))

/-- `ReadCentralDirectory`, checked. -/
def readCentralDirectoryChecked (bytes : Bytes) (eocd : EndOfCentralDirectory)
    (limits : ZipLimits) : Checked (List CentralEntry) :=
  if limits.maxEntries < eocd.entryCount then some (.error .tooManyEntries)
  else
    readCentralEntriesChecked bytes limits (eocd.cdOffset + eocd.cdSize) eocd.entryCount
      eocd.cdOffset 0 []

/-- `CheckLocalEntry`, checked. -/
def checkLocalEntryChecked (bytes : Bytes) (entry : CentralEntry) (dataLimit : ℕ) : Checked ℕ :=
  let pos := entry.localOffset
  if dataLimit < pos then some (.error .badOffset)
  else
    (minus dataLimit pos).bind fun room =>
    if room < localHeaderSize then some (.error .badOffset)
    else
      (get bytes pos 4).bind fun signature =>
      if signature ≠ localHeaderSignature then some (.error .badLocalHeader)
      else
        (get bytes (pos + 26) 2).bind fun nameLength =>
        (get bytes (pos + 28) 2).bind fun extraLength =>
        let dataStart := pos + localHeaderSize + nameLength + extraLength
        if dataLimit < dataStart then some (.error .overlappingEntries)
        else
          (minus dataLimit dataStart).bind fun room =>
          if room < entry.size then some (.error .overlappingEntries)
          else
            (substr bytes (pos + localHeaderSize) nameLength).bind fun localName =>
            (get bytes (pos + 6) 2).bind fun flags =>
            (get bytes (pos + 8) 2).bind fun method =>
            (get bytes (pos + 14) 4).bind fun crc =>
            (get bytes (pos + 18) 4).bind fun compressed =>
            (get bytes (pos + 22) 4).bind fun size =>
            if flags ≠ entry.flags ∨ method ≠ entry.method ∨ crc ≠ entry.crc
                ∨ compressed ≠ entry.size ∨ size ≠ entry.size ∨ localName ≠ entry.name then
              some (.error .headerMismatch)
            else
              (substr bytes dataStart entry.size).bind fun data =>
              if (crc32 data).toNat ≠ entry.crc then some (.error .crcMismatch)
              else some (.ok dataStart)

/-- The loop over the entries in the order of the file, checked. -/
def walkLocalEntriesChecked (bytes : Bytes) (cdOffset : ℕ) :
    List (CentralEntry × ℕ) → Checked (List (ℕ × ℕ))
  | [] => some (.ok [])
  | (entry, i) :: rest =>
    let limit := (rest.head?.map (fun next => next.1.localOffset)).getD cdOffset
    (checkLocalEntryChecked bytes entry limit).bind fun offset =>
    (walkLocalEntriesChecked bytes cdOffset rest).bind fun offsets =>
    some (.ok ((i, offset) :: offsets))

/-- The entries, cut out of the archive. -/
def cutEntries (bytes : Bytes) (offsets : List (ℕ × ℕ)) :
    List (CentralEntry × ℕ) → Checked (List ZipEntry)
  | [] => some (.ok [])
  | (entry, i) :: rest =>
    (substr bytes ((offsets.lookup i).getD 0) entry.size).bind fun data =>
    (cutEntries bytes offsets rest).bind fun entries => some (.ok (⟨entry.name, data⟩ :: entries))

/-- **`std::sort` by the offsets**: the same entries, in an order of their
offsets. -/
structure SortsByOffset (sort : List (CentralEntry × ℕ) → List (CentralEntry × ℕ)) : Prop where
  perm : ∀ entries, (sort entries).Perm entries
  sorted : ∀ entries, (sort entries).Pairwise (fun a b => a.1.localOffset ≤ b.1.localOffset)

/-- **`ParseStoreOnlyZip`, checked.** -/
def parseChecked (sort : List (CentralEntry × ℕ) → List (CentralEntry × ℕ)) (bytes : Bytes)
    (limits : ZipLimits) : Checked (List ZipEntry) :=
  (findEndOfCentralDirectoryChecked bytes).bind fun eocd =>
  (readCentralDirectoryChecked bytes eocd limits).bind fun central =>
  (walkLocalEntriesChecked bytes eocd.cdOffset (sort central.zipIdx)).bind fun offsets =>
  cutEntries bytes offsets central.zipIdx

/-! ## The directory -/

section Directory

variable {bytes : Bytes} {limits : ZipLimits}

/-- The end record is read inside. -/
theorem endOfCentralDirectoryAtChecked_eq {pos : ℕ}
    (h : pos + endOfCentralDirectorySize ≤ bytes.length) :
    endOfCentralDirectoryAtChecked bytes pos = some (endOfCentralDirectoryAt bytes pos) := by
  have hget : ∀ {k width : ℕ}, k + width ≤ 22 →
      get bytes (pos + k) width = some (.ok (read bytes (pos + k) width)) := by
    intro k width hk
    refine get_of_le ?_
    have hsize : endOfCentralDirectorySize = 22 := rfl
    omega
  unfold endOfCentralDirectoryAtChecked endOfCentralDirectoryAt
  rw [hget (by decide), hget (by decide), hget (by decide), hget (by decide), hget (by decide),
    hget (by decide)]
  simp only [bind_ok]
  split_ifs
  · rfl
  · rfl
  · rfl

/-- **The search for the end record stays inside.** -/
theorem searchEndOfCentralDirectoryChecked_eq {first n : ℕ}
    (h : first + n + 21 ≤ bytes.length) :
    searchEndOfCentralDirectoryChecked bytes first n
      = some (searchEndOfCentralDirectory bytes first n) := by
  induction n with
  | zero => rfl
  | succ n ih =>
    have hnext := ih (by omega)
    have hrecord : first + n + endOfCentralDirectorySize ≤ bytes.length := by
      have hsize : endOfCentralDirectorySize = 22 := rfl
      omega
    unfold searchEndOfCentralDirectoryChecked searchEndOfCentralDirectory
    rw [get_of_le (by omega), bind_ok]
    split_ifs with hsignature hcomment
    · exact hnext
    · rw [get_of_le (by omega), bind_ok, if_pos hcomment]
      exact hnext
    · rw [get_of_le (by omega), bind_ok, if_neg hcomment]
      exact endOfCentralDirectoryAtChecked_eq hrecord

/-- The end record is found inside. -/
theorem findEndOfCentralDirectoryChecked_eq (bytes : Bytes) :
    findEndOfCentralDirectoryChecked bytes = some (findEndOfCentralDirectory bytes) := by
  unfold findEndOfCentralDirectoryChecked findEndOfCentralDirectory
  split
  · rfl
  · rename_i hlong
    rw [minus_of_le (by omega), bind_ok]
    have hsize : endOfCentralDirectorySize = 22 := rfl
    exact searchEndOfCentralDirectoryChecked_eq (by omega)

/-- **The directory lies in the archive**, before the end record. -/
theorem directory_le_of_findEndOfCentralDirectory {eocd : EndOfCentralDirectory}
    (h : findEndOfCentralDirectory bytes = .ok eocd) :
    eocd.cdOffset + eocd.cdSize + endOfCentralDirectorySize ≤ bytes.length := by
  have hat : ∀ {pos : ℕ}, pos + endOfCentralDirectorySize ≤ bytes.length →
      endOfCentralDirectoryAt bytes pos = .ok eocd →
      eocd.cdOffset + eocd.cdSize + endOfCentralDirectorySize ≤ bytes.length := by
    intro pos hpos hok
    unfold endOfCentralDirectoryAt at hok
    split at hok
    · cases hok
    split at hok
    · cases hok
    · cases hok
      show read bytes (pos + 16) 4 + read bytes (pos + 12) 4 + _ ≤ _
      omega
  have hsearch : ∀ {first n : ℕ}, first + n + 21 ≤ bytes.length →
      searchEndOfCentralDirectory bytes first n = .ok eocd →
      eocd.cdOffset + eocd.cdSize + endOfCentralDirectorySize ≤ bytes.length := by
    intro first n hn hok
    induction n with
    | zero => cases hok
    | succ n ih =>
      unfold searchEndOfCentralDirectory at hok
      split at hok
      · exact ih (by omega) hok
      split at hok
      · exact ih (by omega) hok
      · have hsize : endOfCentralDirectorySize = 22 := rfl
        exact hat (by omega) hok
  unfold findEndOfCentralDirectory at h
  split at h
  · cases h
  · have hsize : endOfCentralDirectorySize = 22 := rfl
    exact hsearch (by omega) h

/-- The fields of the directory's entry at a place are read inside. -/
theorem centralEntryAtChecked_eq {pos cdEnd : ℕ} (hpos : pos + centralHeaderSize ≤ cdEnd)
    (hend : cdEnd ≤ bytes.length) :
    centralEntryAtChecked bytes pos cdEnd
      = if cdEnd - pos - centralHeaderSize < variableSize bytes pos
        then some (.error .badCentralDirectory)
        else some (.ok (centralEntryAt bytes pos, read bytes (pos + 20) 4, read bytes (pos + 34) 2,
          variableSize bytes pos)) := by
  have hsize : centralHeaderSize = 46 := rfl
  have hget : ∀ {k width : ℕ}, k + width ≤ 46 →
      get bytes (pos + k) width = some (.ok (read bytes (pos + k) width)) := by
    intro k width hk
    exact get_of_le (by omega)
  unfold centralEntryAtChecked
  rw [hget (by decide), hget (by decide), hget (by decide), hget (by decide), hget (by decide),
    hget (by decide), hget (by decide), hget (by decide), hget (by decide), hget (by decide)]
  simp only [bind_ok]
  rw [minus_of_le (by omega), bind_ok, substr_of_le (by omega), bind_ok]
  rfl

/-- **The walk over the directory stays inside.** -/
theorem readCentralEntriesChecked_eq {cdEnd : ℕ} (hend : cdEnd ≤ bytes.length)
    (n : ℕ) {pos total : ℕ} {names : List Bytes} (hpos : pos ≤ cdEnd) :
    readCentralEntriesChecked bytes limits cdEnd n pos total names
      = some (readCentralEntries bytes limits cdEnd n pos total names) := by
  induction n generalizing pos total names with
  | zero =>
    unfold readCentralEntriesChecked readCentralEntries
    split_ifs
    · rfl
    · rfl
  | succ n ih =>
    have hsize : centralHeaderSize = 46 := rfl
    unfold readCentralEntriesChecked readCentralEntries
    rw [minus_of_le hpos, bind_ok]
    by_cases hroom : cdEnd - pos < centralHeaderSize
    · rw [if_pos hroom, if_pos (Or.inl hroom)]
    rw [if_neg hroom, get_of_le (by omega), bind_ok]
    by_cases hsignature : read bytes pos 4 ≠ centralHeaderSignature
    · rw [if_pos hsignature, if_pos (Or.inr hsignature)]
    rw [if_neg hsignature, if_neg (not_or.mpr ⟨hroom, hsignature⟩),
      centralEntryAtChecked_eq (by omega) hend]
    by_cases hvariable : cdEnd - pos - centralHeaderSize < variableSize bytes pos
    · rw [if_pos hvariable, if_pos hvariable]
      rfl
    rw [if_neg hvariable, if_neg hvariable, bind_ok]
    have hsame : checkCentralFields limits total names (centralEntryAt bytes pos)
        (read bytes (pos + 20) 4) (read bytes (pos + 34) 2)
        = checkCentralEntry bytes limits pos total names (centralEntryAt bytes pos) := rfl
    dsimp only
    rw [hsame, ih (by omega)]
    cases checkCentralEntry bytes limits pos total names (centralEntryAt bytes pos) with
    | error e => rfl
    | ok =>
      cases readCentralEntries bytes limits cdEnd n
          (pos + (centralHeaderSize + variableSize bytes pos))
          (total + (centralEntryAt bytes pos).size) ((centralEntryAt bytes pos).name :: names) with
      | error e => rfl
      | ok rest => rfl

/-- The directory is read inside. -/
theorem readCentralDirectoryChecked_eq {eocd : EndOfCentralDirectory}
    (h : findEndOfCentralDirectory bytes = .ok eocd) :
    readCentralDirectoryChecked bytes eocd limits
      = some (readCentralDirectory bytes eocd limits) := by
  have hle := directory_le_of_findEndOfCentralDirectory h
  unfold readCentralDirectoryChecked readCentralDirectory
  split
  · rfl
  · exact readCentralEntriesChecked_eq (by omega) _ (Nat.le_add_right _ _)

end Directory

/-! ## The entries -/

/-- Where the data of an entry begins, by its own header. -/
def dataStart (bytes : Bytes) (entry : CentralEntry) : ℕ :=
  entry.localOffset + localHeaderSize + read bytes (entry.localOffset + 26) 2
    + read bytes (entry.localOffset + 28) 2

/-- Where the record of an entry ends. -/
def localEnd (bytes : Bytes) (entry : CentralEntry) : ℕ := dataStart bytes entry + entry.size

/-- The header of an entry says what the directory says. -/
def HeaderMatches (bytes : Bytes) (entry : CentralEntry) : Prop :=
  read bytes (entry.localOffset + 6) 2 = entry.flags
    ∧ read bytes (entry.localOffset + 8) 2 = entry.method
    ∧ read bytes (entry.localOffset + 14) 4 = entry.crc
    ∧ read bytes (entry.localOffset + 18) 4 = entry.size
    ∧ read bytes (entry.localOffset + 22) 4 = entry.size
    ∧ (bytes.drop (entry.localOffset + localHeaderSize)).take
        (read bytes (entry.localOffset + 26) 2) = entry.name

/-- **What `CheckLocalEntry` reads of an entry lies in the archive**: if a header
fits before the limit, its signature does; if it is one, the header does; and if
the record fits before the limit and its header matches, its data begins in the
archive. -/
def LocalInside (bytes : Bytes) (entry : CentralEntry) (limit : ℕ) : Prop :=
  entry.localOffset + localHeaderSize ≤ limit →
    entry.localOffset + 4 ≤ bytes.length
      ∧ (read bytes entry.localOffset 4 = localHeaderSignature →
        entry.localOffset + localHeaderSize ≤ bytes.length
          ∧ (localEnd bytes entry ≤ limit → HeaderMatches bytes entry →
            dataStart bytes entry ≤ bytes.length))

/-- The limit of an entry: the place of the next one, or the directory. -/
def limitBefore (cdOffset : ℕ) (rest : List (CentralEntry × ℕ)) : ℕ :=
  (rest.head?.map (fun next => next.1.localOffset)).getD cdOffset

/-- **Every entry that the walk comes to is read inside of the archive.** The walk
comes to an entry if the ones before it were accepted. -/
def WalksInside (bytes : Bytes) (cdOffset : ℕ) : List (CentralEntry × ℕ) → Prop
  | [] => True
  | (entry, _) :: rest =>
    LocalInside bytes entry (limitBefore cdOffset rest)
      ∧ ((checkLocalEntry bytes entry (limitBefore cdOffset rest)).isOk →
        WalksInside bytes cdOffset rest)

section Entries

variable {bytes : Bytes} {entry : CentralEntry} {limit cdOffset : ℕ}

/-- The bounds of `CheckLocalEntry` on the header, without a difference. -/
theorem header_fits_iff (pos limit : ℕ) :
    ¬ (limit < pos ∨ limit - pos < localHeaderSize) ↔ pos + localHeaderSize ≤ limit := by
  have hsize : localHeaderSize = 30 := rfl
  omega

/-- The bounds of `CheckLocalEntry` on the record, without a difference. -/
theorem record_fits_iff (bytes : Bytes) (entry : CentralEntry) (limit : ℕ) :
    ¬ (limit < dataStart bytes entry ∨ limit - dataStart bytes entry < entry.size)
      ↔ localEnd bytes entry ≤ limit := by
  unfold localEnd
  omega

/-- The comparison of the headers, as one condition. -/
theorem header_matches_iff (bytes : Bytes) (entry : CentralEntry) :
    ¬ (read bytes (entry.localOffset + 6) 2 ≠ entry.flags
        ∨ read bytes (entry.localOffset + 8) 2 ≠ entry.method
        ∨ read bytes (entry.localOffset + 14) 4 ≠ entry.crc
        ∨ read bytes (entry.localOffset + 18) 4 ≠ entry.size
        ∨ read bytes (entry.localOffset + 22) 4 ≠ entry.size
        ∨ (bytes.drop (entry.localOffset + localHeaderSize)).take
            (read bytes (entry.localOffset + 26) 2) ≠ entry.name)
      ↔ HeaderMatches bytes entry := by
  unfold HeaderMatches
  simp only [not_or, not_not]

/-- Behind the header, when it lies in the archive: the reader of an entry faults
if its data begins outside. -/
theorem checkLocalEntryChecked_of_header
    [Decidable (localEnd bytes entry ≤ limit → HeaderMatches bytes entry →
      dataStart bytes entry ≤ bytes.length)]
    (hfits : entry.localOffset + localHeaderSize ≤ limit)
    (hsignature : read bytes entry.localOffset 4 = localHeaderSignature)
    (hheader : entry.localOffset + localHeaderSize ≤ bytes.length) :
    checkLocalEntryChecked bytes entry limit
      = if localEnd bytes entry ≤ limit → HeaderMatches bytes entry →
          dataStart bytes entry ≤ bytes.length
        then some (checkLocalEntry bytes entry limit) else none := by
  have hsize : localHeaderSize = 30 := rfl
  have hgood := (header_fits_iff entry.localOffset limit).mpr hfits
  unfold checkLocalEntryChecked checkLocalEntry
  dsimp only
  rw [if_neg (not_or.mp hgood).1, minus_of_le (by omega), bind_ok, if_neg (not_or.mp hgood).2,
    if_neg hgood, get_of_le (by omega), bind_ok, if_neg (not_not.mpr hsignature),
    if_neg (not_not.mpr hsignature), get_of_le (by omega), bind_ok, get_of_le (by omega), bind_ok,
    show entry.localOffset + localHeaderSize + read bytes (entry.localOffset + 26) 2
      + read bytes (entry.localOffset + 28) 2 = dataStart bytes entry from rfl]
  by_cases hrecord : localEnd bytes entry ≤ limit
  swap
  · have hbad : limit < dataStart bytes entry ∨ limit - dataStart bytes entry < entry.size := by
      by_contra h
      exact hrecord ((record_fits_iff bytes entry limit).mp h)
    rw [if_pos (fun h => absurd h hrecord), if_pos hbad]
    by_cases hbefore : limit < dataStart bytes entry
    · rw [if_pos hbefore]
    · rw [if_neg hbefore, minus_of_le (not_lt.mp hbefore), bind_ok,
        if_pos (hbad.resolve_left hbefore)]
  have hgood := (record_fits_iff bytes entry limit).mpr hrecord
  rw [if_neg (not_or.mp hgood).1, minus_of_le (not_lt.mp (not_or.mp hgood).1), bind_ok,
    if_neg (not_or.mp hgood).2, if_neg hgood, substr_of_le hheader, bind_ok,
    get_of_le (by omega), bind_ok, get_of_le (by omega), bind_ok, get_of_le (by omega), bind_ok,
    get_of_le (by omega), bind_ok, get_of_le (by omega), bind_ok]
  by_cases hmatches : HeaderMatches bytes entry
  swap
  · have hbad := (not_congr (header_matches_iff bytes entry)).mpr hmatches
    rw [not_not] at hbad
    rw [if_pos (fun _ h => absurd h hmatches), if_pos hbad, if_pos hbad]
  have hsame := (header_matches_iff bytes entry).mpr hmatches
  rw [if_neg hsame, if_neg hsame]
  by_cases hdata : dataStart bytes entry ≤ bytes.length
  · rw [if_pos (fun _ _ => hdata), substr_of_le hdata, bind_ok]
    split_ifs
    · rfl
    · rfl
  · rw [if_neg (fun h => hdata (h hrecord hmatches)),
      show substr bytes (dataStart bytes entry) entry.size = none from if_neg hdata]
    rfl

open Classical in
/-- **One entry**: the checked reader of it faults if it leaves the archive, and
is the reader otherwise. -/
theorem checkLocalEntryChecked_eq (bytes : Bytes) (entry : CentralEntry) (limit : ℕ) :
    checkLocalEntryChecked bytes entry limit
      = if LocalInside bytes entry limit then some (checkLocalEntry bytes entry limit)
        else none := by
  have hsize : localHeaderSize = 30 := rfl
  by_cases hfits : entry.localOffset + localHeaderSize ≤ limit
  swap
  · -- the header does not fit before the limit: nothing is read
    have hinside : LocalInside bytes entry limit := fun h => absurd h hfits
    have hbad : limit < entry.localOffset ∨ limit - entry.localOffset < localHeaderSize := by
      by_contra h
      exact hfits ((header_fits_iff entry.localOffset limit).mp h)
    unfold checkLocalEntryChecked checkLocalEntry
    dsimp only
    rw [if_pos hinside, if_pos hbad]
    by_cases hbefore : limit < entry.localOffset
    · rw [if_pos hbefore]
    · rw [if_neg hbefore, minus_of_le (not_lt.mp hbefore), bind_ok,
        if_pos (hbad.resolve_left hbefore)]
  have hgood := (header_fits_iff entry.localOffset limit).mpr hfits
  by_cases hheader : read bytes entry.localOffset 4 = localHeaderSignature
      ∧ entry.localOffset + localHeaderSize ≤ bytes.length
  · obtain ⟨hsignature, hheader⟩ := hheader
    rw [checkLocalEntryChecked_of_header hfits hsignature hheader]
    have hiff : LocalInside bytes entry limit ↔ (localEnd bytes entry ≤ limit →
        HeaderMatches bytes entry → dataStart bytes entry ≤ bytes.length) :=
      ⟨fun h => ((h hfits).2 hsignature).2, fun h _ => ⟨by omega, fun _ => ⟨hheader, h⟩⟩⟩
    exact (if_congr hiff rfl rfl).symm
  unfold checkLocalEntryChecked checkLocalEntry
  dsimp only
  rw [if_neg (not_or.mp hgood).1, minus_of_le (by omega), bind_ok, if_neg (not_or.mp hgood).2,
    if_neg hgood]
  by_cases hfour : entry.localOffset + 4 ≤ bytes.length
  swap
  · have hout : ¬ LocalInside bytes entry limit := fun h => hfour (h hfits).1
    rw [if_neg hout, show get bytes entry.localOffset 4 = none from if_neg hfour]
    rfl
  rw [get_of_le hfour, bind_ok]
  by_cases hsignature : read bytes entry.localOffset 4 = localHeaderSignature
  swap
  · have hinside : LocalInside bytes entry limit := fun _ => ⟨hfour, fun h => absurd h hsignature⟩
    rw [if_pos hinside, if_pos hsignature, if_pos hsignature]
  have hshort := fun h => hheader ⟨hsignature, h⟩
  have hout : ¬ LocalInside bytes entry limit := fun h => hshort ((h hfits).2 hsignature).1
  rw [if_neg hout, if_neg (not_not.mpr hsignature)]
  by_cases hname : entry.localOffset + 26 + 2 ≤ bytes.length
  · rw [get_of_le hname, bind_ok,
      show get bytes (entry.localOffset + 28) 2 = none from if_neg (by omega)]
    rfl
  · rw [show get bytes (entry.localOffset + 26) 2 = none from if_neg hname]
    rfl

/-- **The walk over the entries** faults exactly if it leaves the archive, and is
the reader's walk otherwise. -/
theorem walkLocalEntriesChecked_spec (bytes : Bytes) (cdOffset : ℕ)
    (order : List (CentralEntry × ℕ)) :
    (WalksInside bytes cdOffset order →
        walkLocalEntriesChecked bytes cdOffset order = some (walkLocalEntries bytes cdOffset order))
      ∧ (¬ WalksInside bytes cdOffset order →
        walkLocalEntriesChecked bytes cdOffset order = none) := by
  induction order with
  | nil => exact ⟨fun _ => rfl, fun h => absurd trivial h⟩
  | cons head rest ih =>
    obtain ⟨entry, i⟩ := head
    have hchecked := checkLocalEntryChecked_eq bytes entry (limitBefore cdOffset rest)
    unfold walkLocalEntriesChecked walkLocalEntries WalksInside
    dsimp only
    rw [show (rest.head?.map (fun next => next.1.localOffset)).getD cdOffset
      = limitBefore cdOffset rest from rfl, hchecked]
    by_cases hinside : LocalInside bytes entry (limitBefore cdOffset rest)
    swap
    · rw [if_neg hinside]
      exact ⟨fun h => absurd h.1 hinside, fun _ => rfl⟩
    rw [if_pos hinside]
    cases checkLocalEntry bytes entry (limitBefore cdOffset rest) with
    | error e =>
      exact ⟨fun _ => rfl, fun h => absurd ⟨hinside, fun h => absurd h Bool.false_ne_true⟩ h⟩
    | ok offset =>
      rw [bind_ok]
      refine ⟨fun h => ?_, fun h => ?_⟩
      · rw [ih.1 (h.2 rfl)]
        cases walkLocalEntries bytes cdOffset rest with
        | error e => rfl
        | ok offsets => rfl
      · rw [ih.2 (fun hrest => h ⟨hinside, fun _ => hrest⟩)]
        rfl

/-- An entry that is accepted ends before its limit, and its data has the check
sum of the directory. -/
theorem of_checkLocalEntry {offset : ℕ} (h : checkLocalEntry bytes entry limit = .ok offset) :
    offset = dataStart bytes entry ∧ localEnd bytes entry ≤ limit
      ∧ (crc32 ((bytes.drop offset).take entry.size)).toNat = entry.crc := by
  unfold checkLocalEntry at h
  dsimp only at h
  split at h
  · cases h
  split at h
  · cases h
  split at h
  · cases h
  rename_i hrecord
  split at h
  · cases h
  split at h
  · cases h
  rename_i hcrc
  cases h
  exact ⟨rfl, (record_fits_iff bytes entry limit).mp hrecord, not_not.mp hcrc⟩

/-- **What the walk accepts**: every entry is recorded where its data begins with
the check sum of the directory, and ends before the next one and before the
directory. -/
theorem of_walkLocalEntries {order : List (CentralEntry × ℕ)} {offsets : List (ℕ × ℕ)}
    (h : walkLocalEntries bytes cdOffset order = .ok offsets) :
    offsets = order.map (fun e => (e.2, dataStart bytes e.1))
      ∧ (∀ e ∈ order,
        (crc32 ((bytes.drop (dataStart bytes e.1)).take e.1.size)).toNat = e.1.crc)
      ∧ order.IsChain (fun a b => localEnd bytes a.1 ≤ b.1.localOffset)
      ∧ ∀ e ∈ order.getLast?, localEnd bytes e.1 ≤ cdOffset := by
  induction order generalizing offsets with
  | nil => cases h; simp
  | cons head rest ih =>
    obtain ⟨entry, i⟩ := head
    unfold walkLocalEntries at h
    dsimp only at h
    rw [show (rest.head?.map (fun next => next.1.localOffset)).getD cdOffset
      = limitBefore cdOffset rest from rfl] at h
    cases hlocal : checkLocalEntry bytes entry (limitBefore cdOffset rest) with
    | error e => rw [hlocal] at h; cases h
    | ok offset =>
      rw [hlocal] at h
      cases hrest : walkLocalEntries bytes cdOffset rest with
      | error e => rw [hrest] at h; cases h
      | ok others =>
        rw [hrest] at h
        cases h
        obtain ⟨rfl, hcrcs, hchain, hlast⟩ := ih hrest
        obtain ⟨rfl, hend, hcrc⟩ := of_checkLocalEntry hlocal
        refine ⟨rfl, ?_, ?_, ?_⟩
        · intro e he
          rcases List.mem_cons.mp he with rfl | he
          · exact hcrc
          · exact hcrcs e he
        · cases rest with
          | nil => exact List.isChain_singleton _
          | cons next rest => exact List.isChain_cons_cons.mpr ⟨hend, hchain⟩
        · cases rest with
          | nil =>
            intro e he
            cases he
            exact hend
          | cons next rest =>
            rw [List.getLast?_cons_cons]
            exact hlast

end Entries

/-! ## What is accepted -/

/-- What the directory of an archive keeps to. -/
theorem of_readCentralEntries {bytes : Bytes} {limits : ZipLimits} {cdEnd n pos total : ℕ}
    {names : List Bytes} {central : List CentralEntry} (htotal : total ≤ limits.maxTotalBytes)
    (h : readCentralEntries bytes limits cdEnd n pos total names = .ok central) :
    central.length = n
      ∧ (∀ e ∈ central, isSafeEntryName e.name ∧ e.size ≤ limits.maxEntryBytes)
      ∧ total + (central.map CentralEntry.size).sum ≤ limits.maxTotalBytes := by
  induction n generalizing pos total names central with
  | zero =>
    unfold readCentralEntries at h
    split at h
    · cases h
    · cases h
      exact ⟨rfl, fun e he => absurd he List.not_mem_nil, htotal⟩
  | succ n ih =>
    unfold readCentralEntries at h
    split at h
    · cases h
    split at h
    · cases h
    dsimp only at h
    split at h
    · cases h
    rename_i hcheck
    have hentry : isSafeEntryName (centralEntryAt bytes pos).name
        ∧ (centralEntryAt bytes pos).size ≤ limits.maxEntryBytes
        ∧ total + (centralEntryAt bytes pos).size ≤ limits.maxTotalBytes := by
      unfold checkCentralEntry at hcheck
      split_ifs at hcheck with h1 h2 h3 h4 hsize htotal hname h8
      exact ⟨by simpa using hname, not_lt.mp hsize, not_lt.mp htotal⟩
    cases hrest : readCentralEntries bytes limits cdEnd n
        (pos + (centralHeaderSize + variableSize bytes pos))
        (total + (centralEntryAt bytes pos).size) ((centralEntryAt bytes pos).name :: names) with
    | error e => rw [hrest] at h; cases h
    | ok rest =>
      rw [hrest] at h
      cases h
      obtain ⟨hlength, hall, hsum⟩ := ih hentry.2.2 hrest
      refine ⟨congrArg (· + 1) hlength, ?_, ?_⟩
      · intro e he
        rcases List.mem_cons.mp he with rfl | he
        · exact ⟨hentry.1, hentry.2.1⟩
        · exact hall e he
      · rw [List.map_cons, List.sum_cons, ← Nat.add_assoc]
        exact hsum

/-- A name that is no path. -/
def SafeName (name : Bytes) : Prop :=
  name ≠ [] ∧ ¬ [0x2e, 0x2e] <:+: name
    ∧ ∀ ch ∈ name, ch ≠ 0x2f ∧ ch ≠ 0x5c ∧ ch ≠ 0x3a ∧ 0x20 ≤ ch

/-- `IsSafeEntryName` accepts these. -/
theorem isSafeEntryName_iff (name : Bytes) : isSafeEntryName name = true ↔ SafeName name := by
  unfold isSafeEntryName SafeName
  simp only [Bool.and_eq_true, Bool.not_eq_true', List.isEmpty_eq_false_iff, decide_eq_false_iff_not,
    List.any_eq_false, Bool.or_eq_true, decide_eq_true_eq, not_or, UInt8.not_lt, and_assoc]

/-- **An archive that is well formed**, with the entries that it holds: what its
names and sizes keep to, and that every entry has the name, the size and the
check sum of the directory, in a record that lies apart from the others and
before the directory. -/
structure Sound (bytes : Bytes) (limits : ZipLimits) (entries : List ZipEntry) : Prop where
  /-- No name comes twice. -/
  nodup : (entries.map ZipEntry.name).Nodup
  /-- No name is a path. -/
  safe : ∀ e ∈ entries, SafeName e.name
  /-- There are not too many entries. -/
  count : entries.length ≤ limits.maxEntries
  /-- No entry is too large. -/
  size : ∀ e ∈ entries, e.data.length ≤ limits.maxEntryBytes
  /-- They are not too large together. -/
  total : (entries.map (fun e => e.data.length)).sum ≤ limits.maxTotalBytes
  /-- They are what the directory records. -/
  recorded : ∃ eocd central, findEndOfCentralDirectory bytes = .ok eocd
    ∧ readCentralDirectory bytes eocd limits = .ok central
    ∧ List.Forall₂ (fun c e => e.name = c.name ∧ e.data.length = c.size
        ∧ (crc32 e.data).toNat = c.crc
        ∧ e.data = (bytes.drop (dataStart bytes c)).take c.size) central entries
    ∧ central.Pairwise (fun a b => localEnd bytes a ≤ b.localOffset
        ∨ localEnd bytes b ≤ a.localOffset)
    ∧ ∀ c ∈ central, localEnd bytes c ≤ eocd.cdOffset

section Accepted

variable {bytes : Bytes} {limits : ZipLimits}
  {sort : List (CentralEntry × ℕ) → List (CentralEntry × ℕ)}

/-- A record does not end before it begins. -/
theorem localOffset_le_localEnd (bytes : Bytes) (entry : CentralEntry) :
    entry.localOffset ≤ localEnd bytes entry := by
  unfold localEnd dataStart
  omega

/-- **The walk keeps the records apart**, not only neighbours. -/
theorem pairwise_of_walk {order : List (CentralEntry × ℕ)}
    (h : order.IsChain (fun a b => localEnd bytes a.1 ≤ b.1.localOffset)) :
    order.Pairwise (fun a b => localEnd bytes a.1 ≤ b.1.localOffset) := by
  have htrans : IsTrans (CentralEntry × ℕ)
      (fun a b => localEnd bytes a.1 ≤ b.1.localOffset) :=
    ⟨fun a b c hab hbc => hab.trans ((localOffset_le_localEnd bytes b.1).trans hbc)⟩
  exact List.isChain_iff_pairwise.mp h

/-- Every record ends before the directory, not only the last one. -/
theorem localEnd_le_of_walk {order : List (CentralEntry × ℕ)} {cdOffset : ℕ}
    (hapart : order.Pairwise (fun a b => localEnd bytes a.1 ≤ b.1.localOffset))
    (hlast : ∀ e ∈ order.getLast?, localEnd bytes e.1 ≤ cdOffset) :
    ∀ e ∈ order, localEnd bytes e.1 ≤ cdOffset := by
  induction order with
  | nil => exact fun e he => absurd he List.not_mem_nil
  | cons head rest ih =>
    intro e he
    rw [List.pairwise_cons] at hapart
    cases rest with
    | nil =>
      rcases List.mem_cons.mp he with rfl | he
      · exact hlast e rfl
      · exact absurd he List.not_mem_nil
    | cons next rest =>
      rw [List.getLast?_cons_cons] at hlast
      have hrest := ih hapart.2 hlast
      rcases List.mem_cons.mp he with rfl | he
      · have hnext := hapart.1 next List.mem_cons_self
        exact hnext.trans ((localOffset_le_localEnd bytes next.1).trans
          (hrest next List.mem_cons_self))
      · exact hrest e he

/-- Where the data of an entry was found, looked up by its place in the
directory. -/
theorem lookup_dataStart {order : List (CentralEntry × ℕ)} (hnodup : (order.map Prod.snd).Nodup)
    {e : CentralEntry × ℕ} (he : e ∈ order) :
    (order.map (fun e => (e.2, dataStart bytes e.1))).lookup e.2 = some (dataStart bytes e.1) := by
  induction order with
  | nil => exact absurd he List.not_mem_nil
  | cons head rest ih =>
    rw [List.map_cons, List.nodup_cons] at hnodup
    rw [List.map_cons, List.lookup_cons]
    rcases List.mem_cons.mp he with rfl | he
    · rw [beq_self_eq_true]
    · have hne : e.2 ≠ head.2 := fun h => hnodup.1 (h ▸ List.mem_map_of_mem he)
      rw [beq_false_of_ne hne]
      exact ih hnodup.2 he

/-- **The entries are cut out inside.** -/
theorem cutEntries_eq {offsets : List (ℕ × ℕ)} {entries : List (CentralEntry × ℕ)}
    (hlookup : ∀ e ∈ entries, offsets.lookup e.2 = some (dataStart bytes e.1))
    (hinside : ∀ e ∈ entries, localEnd bytes e.1 ≤ bytes.length) :
    cutEntries bytes offsets entries = some (.ok (entries.map (fun e =>
      ⟨e.1.name, (bytes.drop (dataStart bytes e.1)).take e.1.size⟩))) := by
  induction entries with
  | nil => rfl
  | cons head rest ih =>
    obtain ⟨entry, i⟩ := head
    have hstart : dataStart bytes entry ≤ bytes.length :=
      (Nat.le_add_right _ _).trans (hinside _ List.mem_cons_self)
    unfold cutEntries
    rw [hlookup _ List.mem_cons_self, Option.getD_some, substr_of_le hstart, bind_ok,
      ih (fun e he => hlookup e (List.mem_cons_of_mem _ he))
        (fun e he => hinside e (List.mem_cons_of_mem _ he))]
    rfl

/-- The walk over sorted entries of a directory, when it accepts. -/
theorem accepted_of_walk (hsort : SortsByOffset sort) {central : List CentralEntry} {cdOffset : ℕ}
    {offsets : List (ℕ × ℕ)}
    (h : walkLocalEntries bytes cdOffset (sort central.zipIdx) = .ok offsets) :
    (∀ e ∈ central.zipIdx, offsets.lookup e.2 = some (dataStart bytes e.1))
      ∧ (∀ c ∈ central, (crc32 ((bytes.drop (dataStart bytes c)).take c.size)).toNat = c.crc)
      ∧ central.Pairwise (fun a b => localEnd bytes a ≤ b.localOffset
        ∨ localEnd bytes b ≤ a.localOffset)
      ∧ ∀ c ∈ central, localEnd bytes c ≤ cdOffset := by
  have hperm := hsort.perm central.zipIdx
  obtain ⟨rfl, hcrc, hchain, hlast⟩ := of_walkLocalEntries h
  have hapart := pairwise_of_walk hchain
  have hbefore := localEnd_le_of_walk hapart hlast
  have hnodup : ((sort central.zipIdx).map Prod.snd).Nodup := by
    rw [(hperm.map Prod.snd).nodup_iff, List.zipIdx_map_snd]
    exact List.nodup_range'
  have hmem : ∀ c ∈ central, ∃ e ∈ sort central.zipIdx, e.1 = c := by
    intro c hc
    rw [← List.zipIdx_map_fst 0 central] at hc
    obtain ⟨e, he, rfl⟩ := List.mem_map.mp hc
    exact ⟨e, hperm.mem_iff.mpr he, rfl⟩
  refine ⟨fun e he => lookup_dataStart hnodup (hperm.mem_iff.mpr he), ?_, ?_, ?_⟩
  · intro c hc
    obtain ⟨e, he, rfl⟩ := hmem c hc
    exact hcrc e he
  · -- apart in the order of the file, so apart in every order
    have hany : central.zipIdx.Pairwise (fun a b => localEnd bytes a.1 ≤ b.1.localOffset
        ∨ localEnd bytes b.1 ≤ a.1.localOffset) := by
      refine hperm.pairwise (hapart.imp (fun h => Or.inl h)) ?_
      intro a b hab
      exact hab.symm
    nth_rewrite 1 [← List.zipIdx_map_fst 0 central]
    rw [List.pairwise_map]
    exact hany
  · intro c hc
    obtain ⟨e, he, rfl⟩ := hmem c hc
    exact hbefore e he

/-- **`ParseStoreOnlyZip` reads inside**, for an archive with its directory: of
what its end record and its directory say, every entry that the walk comes to is
read inside. -/
def ReadsInside (sort : List (CentralEntry × ℕ) → List (CentralEntry × ℕ)) (bytes : Bytes)
    (limits : ZipLimits) : Prop :=
  ∀ eocd central, findEndOfCentralDirectory bytes = .ok eocd →
    readCentralDirectory bytes eocd limits = .ok central →
    WalksInside bytes eocd.cdOffset (sort central.zipIdx)

/-- The reader behind the directory: the walk over the entries, and the data. -/
theorem parseChecked_of_directory {eocd : EndOfCentralDirectory} {central : List CentralEntry}
    (hfind : findEndOfCentralDirectory bytes = .ok eocd)
    (hcentral : readCentralDirectory bytes eocd limits = .ok central) :
    parseChecked sort bytes limits
      = (walkLocalEntriesChecked bytes eocd.cdOffset (sort central.zipIdx)).bind fun offsets =>
          cutEntries bytes offsets central.zipIdx := by
  unfold parseChecked
  rw [findEndOfCentralDirectoryChecked_eq, hfind, bind_ok, readCentralDirectoryChecked_eq hfind,
    hcentral, bind_ok]

/-- An archive whose directory is refused is read inside. -/
theorem parseChecked_of_refused (sort : List (CentralEntry × ℕ) → List (CentralEntry × ℕ))
    (h : ∀ eocd central, findEndOfCentralDirectory bytes = .ok eocd →
      readCentralDirectory bytes eocd limits ≠ .ok central) :
    ∃ e, parseChecked sort bytes limits = some (.error e)
      ∧ parseStoreOnlyZip bytes limits = .error e := by
  unfold parseChecked parseStoreOnlyZip
  rw [findEndOfCentralDirectoryChecked_eq]
  cases hfind : findEndOfCentralDirectory bytes with
  | error e => exact ⟨e, rfl, rfl⟩
  | ok eocd =>
    rw [bind_ok, readCentralDirectoryChecked_eq hfind]
    cases hcentral : readCentralDirectory bytes eocd limits with
    | error e => exact ⟨e, rfl, by simp only [hcentral]⟩
    | ok central => exact absurd hcentral (h eocd central hfind)

/-- What the walk over a directory's entries accepts is cut out of the archive. -/
theorem cutEntries_of_walk (hsort : SortsByOffset sort) {eocd : EndOfCentralDirectory}
    {central : List CentralEntry} {offsets : List (ℕ × ℕ)}
    (hfind : findEndOfCentralDirectory bytes = .ok eocd)
    (hwalk : walkLocalEntries bytes eocd.cdOffset (sort central.zipIdx) = .ok offsets) :
    cutEntries bytes offsets central.zipIdx = some (.ok (central.map (fun c =>
      ⟨c.name, (bytes.drop (dataStart bytes c)).take c.size⟩))) := by
  obtain ⟨hlookup, -, -, hbefore⟩ := accepted_of_walk hsort hwalk
  have hdirectory := directory_le_of_findEndOfCentralDirectory hfind
  have hinside : ∀ e ∈ central.zipIdx, localEnd bytes e.1 ≤ bytes.length :=
    fun e he => (hbefore e.1 (List.fst_mem_of_mem_zipIdx he)).trans (by omega)
  rw [cutEntries_eq hlookup hinside]
  nth_rewrite 2 [← List.zipIdx_map_fst 0 central]
  rw [List.map_map]
  rfl

/-- **The reader faults exactly if the walk over the entries leaves the
archive.** -/
theorem isSome_parseChecked_iff (hsort : SortsByOffset sort) :
    (parseChecked sort bytes limits).isSome ↔ ReadsInside sort bytes limits := by
  by_cases hdirectory : ∃ eocd central, findEndOfCentralDirectory bytes = .ok eocd
      ∧ readCentralDirectory bytes eocd limits = .ok central
  swap
  · have hrefused : ∀ eocd central, findEndOfCentralDirectory bytes = .ok eocd →
        readCentralDirectory bytes eocd limits ≠ .ok central :=
      fun eocd central hfind hcentral => hdirectory ⟨eocd, central, hfind, hcentral⟩
    obtain ⟨e, he, -⟩ := parseChecked_of_refused sort hrefused
    rw [he]
    exact iff_of_true rfl (fun eocd central hfind h => absurd h (hrefused eocd central hfind))
  obtain ⟨eocd, central, hfind, hcentral⟩ := hdirectory
  have hreads : ReadsInside sort bytes limits
      ↔ WalksInside bytes eocd.cdOffset (sort central.zipIdx) := by
    refine ⟨fun h => h eocd central hfind hcentral, fun h eocd' central' hfind' hcentral' => ?_⟩
    rw [hfind] at hfind'
    cases hfind'
    rw [hcentral] at hcentral'
    cases hcentral'
    exact h
  rw [hreads, parseChecked_of_directory hfind hcentral]
  have hwalk := walkLocalEntriesChecked_spec bytes eocd.cdOffset (sort central.zipIdx)
  by_cases hinside : WalksInside bytes eocd.cdOffset (sort central.zipIdx)
  swap
  · rw [hwalk.2 hinside]
    exact iff_of_false Bool.false_ne_true hinside
  refine iff_of_true ?_ hinside
  rw [hwalk.1 hinside]
  cases hoffsets : walkLocalEntries bytes eocd.cdOffset (sort central.zipIdx) with
  | error e => rfl
  | ok offsets =>
    rw [bind_ok, cutEntries_of_walk hsort hfind hoffsets]
    rfl

/-- What is accepted is sound. -/
theorem sound_of_parseChecked (hsort : SortsByOffset sort) {entries : List ZipEntry}
    (h : parseChecked sort bytes limits = some (.ok entries)) : Sound bytes limits entries := by
  have hreads := (isSome_parseChecked_iff hsort).mp (Option.isSome_of_mem h)
  by_cases hdirectory : ∃ eocd central, findEndOfCentralDirectory bytes = .ok eocd
      ∧ readCentralDirectory bytes eocd limits = .ok central
  swap
  · obtain ⟨e, he, -⟩ := parseChecked_of_refused sort
      (fun eocd central hfind hcentral => hdirectory ⟨eocd, central, hfind, hcentral⟩)
    rw [he] at h
    cases h
  obtain ⟨eocd, central, hfind, hcentral⟩ := hdirectory
  have hinside := hreads eocd central hfind hcentral
  rw [parseChecked_of_directory hfind hcentral,
    (walkLocalEntriesChecked_spec bytes eocd.cdOffset (sort central.zipIdx)).1 hinside] at h
  cases hoffsets : walkLocalEntries bytes eocd.cdOffset (sort central.zipIdx) with
  | error e => rw [hoffsets] at h; cases h
  | ok offsets =>
  rw [hoffsets, bind_ok, cutEntries_of_walk hsort hfind hoffsets] at h
  cases h
  obtain ⟨-, hcrc, hapart, hbefore⟩ := accepted_of_walk hsort hoffsets
  have hdirectory := directory_le_of_findEndOfCentralDirectory hfind
  have hlength : ∀ c ∈ central, localEnd bytes c ≤ bytes.length :=
    fun c hc => (hbefore c hc).trans (by omega)
  have hdata : ∀ c ∈ central, ((bytes.drop (dataStart bytes c)).take c.size).length = c.size := by
    intro c hc
    have hle := hlength c hc
    rw [List.length_take, List.length_drop]
    unfold localEnd at hle
    omega
  unfold readCentralDirectory at hcentral
  split at hcentral
  · cases hcentral
  rename_i hcount
  obtain ⟨hn, hall, hsum⟩ := of_readCentralEntries (Nat.zero_le _) hcentral
  constructor
  · rw [List.map_map]
    exact (nodup_of_readCentralEntries hcentral).1
  · intro e he
    obtain ⟨c, hc, rfl⟩ := List.mem_map.mp he
    exact (isSafeEntryName_iff _).mp (hall c hc).1
  · rw [List.length_map, hn]
    exact not_lt.mp hcount
  · intro e he
    obtain ⟨c, hc, rfl⟩ := List.mem_map.mp he
    rw [hdata c hc]
    exact (hall c hc).2
  · rw [List.map_map]
    rw [Nat.zero_add] at hsum
    refine le_of_eq_of_le (congrArg List.sum (List.map_congr_left fun c hc => ?_)) hsum
    exact hdata c hc
  · refine ⟨eocd, central, hfind, ?_, ?_, hapart, hbefore⟩
    · unfold readCentralDirectory
      rw [if_neg hcount, hcentral]
    · rw [List.forall₂_map_right_iff, List.forall₂_same]
      exact fun c hc => ⟨rfl, hdata c hc, hcrc c hc, rfl⟩

/-- **Inside of the archive, the checked reader is the reader**, with the entries
sorted as the reader does. -/
theorem parseChecked_eq_of_inside
    (hinside : ReadsInside
      (fun entries => entries.mergeSort (fun a b => a.1.localOffset ≤ b.1.localOffset))
      bytes limits) :
    parseChecked (fun entries => entries.mergeSort (fun a b => a.1.localOffset ≤ b.1.localOffset))
      bytes limits = some (parseStoreOnlyZip bytes limits) := by
  by_cases hdirectory : ∃ eocd central, findEndOfCentralDirectory bytes = .ok eocd
      ∧ readCentralDirectory bytes eocd limits = .ok central
  swap
  · obtain ⟨e, he, hparse⟩ := parseChecked_of_refused
      (fun entries => entries.mergeSort (fun a b => a.1.localOffset ≤ b.1.localOffset))
      (fun eocd central hfind hcentral => hdirectory ⟨eocd, central, hfind, hcentral⟩)
    rw [he, hparse]
  obtain ⟨eocd, central, hfind, hcentral⟩ := hdirectory
  have hsort : SortsByOffset
      (fun entries => entries.mergeSort (fun a b => a.1.localOffset ≤ b.1.localOffset)) := by
    refine ⟨fun entries => List.mergeSort_perm _ _, fun entries => ?_⟩
    refine (List.pairwise_mergeSort ?_ ?_ entries).imp (fun h => of_decide_eq_true h)
    · intro a b c hab hbc
      exact decide_eq_true ((of_decide_eq_true hab).trans (of_decide_eq_true hbc))
    · intro a b
      rw [Bool.or_eq_true, decide_eq_true_eq, decide_eq_true_eq]
      exact le_total _ _
  rw [parseChecked_of_directory hfind hcentral,
    (walkLocalEntriesChecked_spec bytes eocd.cdOffset _).1 (hinside eocd central hfind hcentral)]
  unfold parseStoreOnlyZip
  simp only [hfind, hcentral]
  cases hoffsets : walkLocalEntries bytes eocd.cdOffset
      (central.zipIdx.mergeSort (fun a b => a.1.localOffset ≤ b.1.localOffset)) with
  | error e => rfl
  | ok offsets =>
    obtain ⟨hlookup, -, -, -⟩ := accepted_of_walk hsort hoffsets
    rw [bind_ok, cutEntries_of_walk hsort hfind hoffsets]
    refine congrArg (fun entries => some (Except.ok entries)) ?_
    nth_rewrite 1 [← List.zipIdx_map_fst 0 central]
    rw [List.map_map]
    refine List.map_congr_left fun e he => ?_
    rw [hlookup e he]
    rfl

end Accepted

/-! ## Every archive -/

/-- **`ParseStoreOnlyZip` reads inside of the archive, and what it accepts is
sound, exactly if the walk over the entries stays inside.** The places of the
entries are the directory's, and nothing holds them against the size of the
archive: the walk leaves it at an entry that the next one lies behind. -/
theorem parseStoreOnlyZip_inside_iff
    (sort : List (CentralEntry × ℕ) → List (CentralEntry × ℕ)) (bytes : Bytes) (limits : ZipLimits)
    (hsort : SortsByOffset sort) :
    ((parseChecked sort bytes limits).isSome
        ∧ ∀ entries, parseChecked sort bytes limits = some (.ok entries) →
          Sound bytes limits entries)
      ↔ ReadsInside sort bytes limits := by
  rw [← isSome_parseChecked_iff hsort]
  exact and_iff_left fun entries h => sound_of_parseChecked hsort h

/-- The entries by their offsets, sorted by insertion. -/
def byOffset (entries : List (CentralEntry × ℕ)) : List (CentralEntry × ℕ) :=
  entries.insertionSort (fun a b => a.1.localOffset ≤ b.1.localOffset)

/-- Insertion sorts. -/
theorem sortsByOffset_byOffset : SortsByOffset byOffset where
  perm := fun entries => List.perm_insertionSort _ entries
  sorted := fun entries => by
    have htotal : Std.Total (fun a b : CentralEntry × ℕ => a.1.localOffset ≤ b.1.localOffset) :=
      ⟨fun a b => le_total _ _⟩
    have htrans : IsTrans (CentralEntry × ℕ) (fun a b => a.1.localOffset ≤ b.1.localOffset) :=
      ⟨fun a b c hab hbc => le_trans hab hbc⟩
    exact List.pairwise_insertionSort _ entries

/-- The limits of the examples. -/
def fewLimits : ZipLimits := ⟨4, 100, 100⟩

set_option maxRecDepth 40000 in
/-- An archive of two entries is read inside: the second bounds the first. -/
theorem parseStoreOnlyZip_inside_iff_twoEntries :
    SortsByOffset byOffset
      ∧ ReadsInside byOffset (buildStoreOnlyZip [⟨utf8 "a", utf8 "x"⟩, ⟨utf8 "b", utf8 "yz"⟩])
        fewLimits :=
  ⟨sortsByOffset_byOffset,
    (parseStoreOnlyZip_inside_iff byOffset _ fewLimits sortsByOffset_byOffset).mp
      ⟨by decide, fun _ h => sound_of_parseChecked sortsByOffset_byOffset h⟩⟩

/-- An archive of a directory only, that names two places behind its end. -/
def placesBehindTheEnd : Bytes :=
  centralRecord 1000 ⟨utf8 "a", []⟩ ++ (centralRecord 2000 ⟨utf8 "b", []⟩
    ++ fields (endFields 2 94 0))

/-- **The reader leaves an archive** that names two places behind its end: the
second place is the limit of the first entry, and its header is read there. -/
theorem not_inside_placesBehindTheEnd :
    SortsByOffset byOffset ∧ (parseChecked byOffset placesBehindTheEnd fewLimits).isSome = false :=
  ⟨sortsByOffset_byOffset, by decide⟩

end AzooKey.Host.Backup

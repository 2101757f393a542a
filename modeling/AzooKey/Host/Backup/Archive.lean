import AzooKey.Host.Backup.StoreOnlyZip
import AzooKey.Ipc.JsonPrint
import AzooKey.Learning.Sha256

/-!
# Backup archives

`WriteBackupArchive` puts the learning data into a ZIP archive: a manifest in
plain JSON, and one entry for each item, encrypted or not, whose SHA-256 the
manifest lists. `ReadBackupArchive` checks the archive against its manifest
before it decodes anything.

The two agree: what is written is read back (`readArchive_writeArchive`), and
what is read is what the manifest lists (`readArchive_sound`). The checks of
the path and of the file system around the two are not part of the model; a
written archive is the bytes that are moved into place, and an archive is read
from the bytes of a file.
-/

namespace AzooKey.Host.Backup

open Ipc Ipc.Json Learning

/-- `BackupItem`. -/
structure BackupItem where
  name : Bytes
  file : Bytes
  count : UInt64
  plaintext : Bytes
deriving DecidableEq

/-- `BackupManifestItem`. -/
structure BackupManifestItem where
  name : Bytes
  file : Bytes
  count : UInt64
  sha256 : Bytes
deriving DecidableEq

/-- `BackupManifest`. -/
structure BackupManifest where
  version : ℤ := 1
  createdAt : Bytes
  appVersion : Bytes
  hostVersion : Bytes
  encrypted : Bool := true
  encryptionMethod : Bytes
  items : List BackupManifestItem
deriving DecidableEq

/-- What of `BackupError` the two functions answer for an archive. -/
inductive BackupError
  | invalidPath
  | io
  | tooLarge
  | notArchive
  | badManifest
  | unsupportedVersion
  | missingItem
  | checksumMismatch
  | decryptFailed
deriving DecidableEq

/-- **`ByteCrypto`, as an archive uses it**: whether it is there, what `Encrypt`
answers for each item, and what `Decrypt` answers. -/
structure ArchiveCrypto where
  isAvailable : Bool
  encrypt : BackupItem → Option Bytes
  decrypt : Bytes → Option Bytes

/-- `Decrypt` is the inverse of `Encrypt`. -/
def ArchiveCrypto.Inverse (crypto : ArchiveCrypto) : Prop :=
  ∀ item cipher, crypto.encrypt item = some cipher → crypto.decrypt cipher = some item.plaintext

/-- `kManifestVersion`. -/
def manifestVersion : ℤ := 1

/-- `kManifestFile`. -/
def manifestFile : Bytes := utf8 "manifest.json"

/-- `kMethodDpapi` and `kMethodNone`. -/
def methodOf (encrypted : Bool) : Bytes := if encrypted then utf8 "dpapi-user-scope" else utf8 "none"

/-- `kMaxArchiveBytes`. -/
def maxArchiveBytes : ℕ := 64 * 1024 * 1024

/-- `ArchiveLimits`. -/
def archiveLimits : ZipLimits where
  maxEntries := 16
  maxEntryBytes := 32 * 1024 * 1024
  maxTotalBytes := maxArchiveBytes

/-- `IsBackupToken`. -/
def isBackupToken (token : Bytes) : Bool :=
  !token.isEmpty && !decide ([0x2e, 0x2e] <:+: token)
    && token.all (fun ch => (0x61 ≤ ch && ch ≤ 0x7a) || (0x30 ≤ ch && ch ≤ 0x39) || ch = 0x5f
      || ch = 0x2e)

/-! ## The manifest -/

/-- `Value(int)` and `Value(uint64_t)`. -/
def integerValue (n : ℤ) : Value :=
  .number ⟨(roundBinary64 (n < 0) n.natAbs).elim .nan .finite, formatInteger n⟩

/-- The members of an item in `SerializeManifest`. -/
def itemToJson (item : BackupManifestItem) : Value :=
  .object (AssocList.assign (utf8 "sha256") (.string item.sha256)
    (AssocList.assign (utf8 "count") (integerValue item.count.toNat)
      (AssocList.assign (utf8 "file") (.string item.file)
        (AssocList.assign (utf8 "name") (.string item.name) []))))

/-- The object of `SerializeManifest`. -/
def manifestToJson (manifest : BackupManifest) : Value :=
  .object (AssocList.assign (utf8 "items") (.array (manifest.items.map itemToJson))
    (AssocList.assign (utf8 "encryption_method") (.string manifest.encryptionMethod)
      (AssocList.assign (utf8 "encrypted") (.bool manifest.encrypted)
        (AssocList.assign (utf8 "host_version") (.string manifest.hostVersion)
          (AssocList.assign (utf8 "app_version") (.string manifest.appVersion)
            (AssocList.assign (utf8 "created_at") (.string manifest.createdAt)
              (AssocList.assign (utf8 "version") (integerValue manifest.version) [])))))))

/-- `SerializeManifest`. -/
def serializeManifest (manifest : BackupManifest) : Bytes := stringify (manifestToJson manifest)

/-- `ParseManifestItem`. -/
def parseManifestItem (value : Value) : Option BackupManifestItem :=
  if !value.isObject then none
  else
    match value.getString (utf8 "name"), value.getString (utf8 "file"),
      value.getUInt (utf8 "count"), value.getString (utf8 "sha256") with
    | some name, some file, some count, some sha256 =>
      if !isBackupToken name || !isBackupToken file || file = manifestFile then none
      else if !isLowerHexSha256 sha256 then none
      else some ⟨name, file, UInt64.ofNat count, sha256⟩
    | _, _, _, _ => none

/-- The loop over the items of a manifest, with the names and files so far. -/
def parseManifestItems : List Bytes → List Bytes → List Value → Option (List BackupManifestItem)
  | _, _, [] => some []
  | names, files, value :: values =>
    match parseManifestItem value with
    | none => none
    | some item =>
      if item.name ∈ names ∨ item.file ∈ files then none
      else (parseManifestItems (item.name :: names) (item.file :: files) values).map (item :: ·)

/-- `ParseManifest` after the version: the other fields. -/
def parseManifestFields (root : Value) : Option BackupManifest :=
  match root.getString (utf8 "created_at"), root.getString (utf8 "app_version"),
    root.getString (utf8 "host_version"), root.getBool (utf8 "encrypted"),
    root.getString (utf8 "encryption_method"), root.getArray (utf8 "items") with
  | some createdAt, some appVersion, some hostVersion, some encrypted, some method, some items =>
    if method ≠ methodOf encrypted then none
    else
      (parseManifestItems [] [] items).map
        (⟨manifestVersion, createdAt, appVersion, hostVersion, encrypted, method, ·⟩)
  | _, _, _, _, _, _ => none

/-- **`ParseManifest`.** The version is checked first. -/
def parseManifest (text : Bytes) : Except BackupError BackupManifest :=
  match (parse text).filter Value.isObject with
  | none => .error .badManifest
  | some root =>
    match root.getInt (utf8 "version") with
    | none => .error .badManifest
    | some version =>
      if version ≠ manifestVersion then .error .unsupportedVersion
      else (parseManifestFields root).elim (.error .badManifest) .ok

/-! ## Writing -/

/-- The loop of `ValidateItems`, with the names and files so far. -/
def validateItemsFrom : List Bytes → List Bytes → List BackupItem → Bool
  | _, _, [] => true
  | names, files, item :: items =>
    isBackupToken item.name && isBackupToken item.file && item.file ≠ manifestFile
      && item.name ∉ names && item.file ∉ files
      && validateItemsFrom (item.name :: names) (item.file :: files) items

/-- `ValidateItems`. One place is taken by the manifest. -/
def validateItems (items : List BackupItem) : Except BackupError Unit :=
  if !validateItemsFrom [] [] items then .error .invalidPath
  else if archiveLimits.maxEntries < items.length + 1 then .error .tooLarge
  else .ok ()

/-- `EncodeItem`. -/
def encodeItem (encrypt : Bool) (crypto : ArchiveCrypto) (item : BackupItem) : Option Bytes :=
  if !encrypt then some item.plaintext
  else if !crypto.isAvailable then none
  else crypto.encrypt item

/-- `DecodeItem`. -/
def decodeItem (encrypted : Bool) (crypto : ArchiveCrypto) (stored : Bytes) : Option Bytes :=
  if !encrypted then some stored
  else if !crypto.isAvailable then none
  else crypto.decrypt stored

/-- The loop of `WriteArchive`: what goes into the manifest and into the archive
for each item. -/
def encodeItems (encrypt : Bool) (crypto : ArchiveCrypto) :
    List BackupItem → Except BackupError (List (BackupManifestItem × ZipEntry))
  | [] => .ok []
  | item :: items =>
    match encodeItem encrypt crypto item with
    | none => .error .io
    | some stored =>
      if archiveLimits.maxEntryBytes < stored.length then .error .tooLarge
      else
        (encodeItems encrypt crypto items).map
          ((⟨item.name, item.file, item.count, sha256Hex stored⟩, ⟨item.file, stored⟩) :: ·)

/-- The manifest that `WriteArchive` fills in. -/
def manifestFor (encrypt : Bool) (meta_ : BackupManifest) (items : List BackupManifestItem) :
    BackupManifest where
  version := manifestVersion
  createdAt := meta_.createdAt
  appVersion := meta_.appVersion
  hostVersion := meta_.hostVersion
  encrypted := encrypt
  encryptionMethod := methodOf encrypt
  items := items

/-- **`WriteArchive`**: the manifest and the bytes of the archive. -/
def writeArchive (items : List BackupItem) (encrypt : Bool) (crypto : ArchiveCrypto)
    (meta_ : BackupManifest) : Except BackupError (BackupManifest × Bytes) :=
  match validateItems items with
  | .error e => .error e
  | .ok () =>
    match encodeItems encrypt crypto items with
    | .error e => .error e
    | .ok encoded =>
      let manifest := manifestFor encrypt meta_ (encoded.map Prod.fst)
      let entries := ⟨manifestFile, serializeManifest manifest⟩ :: encoded.map Prod.snd
      if archiveLimits.maxEntryBytes < (serializeManifest manifest).length then .error .tooLarge
      else if archiveLimits.maxTotalBytes < (entries.map (fun entry => entry.data.length)).sum then
        .error .tooLarge
      else if maxArchiveBytes < (buildStoreOnlyZip entries).length then .error .tooLarge
      else .ok (manifest, buildStoreOnlyZip entries)

/-! ## Reading -/

/-- The errors of the container that are about its size. -/
def isSizeError (e : ZipError) : Bool :=
  e = .tooManyEntries || e = .entryTooLarge || e = .totalTooLarge

/-- `find_entry`. -/
def findEntry (entries : List ZipEntry) (name : Bytes) : Option ZipEntry :=
  entries.find? (fun entry => entry.name = name)

/-- The loop that finds the entries of the listed items. -/
def findStored (entries : List ZipEntry) : List BackupManifestItem → Option (List ZipEntry)
  | [] => some []
  | item :: items =>
    match findEntry entries item.file with
    | none => none
    | some entry => (findStored entries items).map (entry :: ·)

/-- The loop that decodes the entries of the listed items. -/
def decodeItems (encrypted : Bool) (crypto : ArchiveCrypto) :
    List (BackupManifestItem × ZipEntry) → Option (List BackupItem)
  | [] => some []
  | (item, entry) :: rest =>
    match decodeItem encrypted crypto entry.data with
    | none => none
    | some plaintext =>
      (decodeItems encrypted crypto rest).map (⟨item.name, item.file, item.count, plaintext⟩ :: ·)

/-- **`ReadArchive`**: the manifest and the items. -/
def readArchive (bytes : Bytes) (crypto : ArchiveCrypto) :
    Except BackupError (BackupManifest × List BackupItem) :=
  if maxArchiveBytes < bytes.length then .error .tooLarge
  else
    match parseStoreOnlyZip bytes archiveLimits with
    | .error e => .error (if isSizeError e then .tooLarge else .notArchive)
    | .ok entries =>
      match findEntry entries manifestFile with
      | none => .error .badManifest
      | some manifestEntry =>
        match parseManifest manifestEntry.data with
        | .error e => .error e
        | .ok manifest =>
          match findStored entries manifest.items with
          | none => .error .missingItem
          | some stored =>
            -- all sums are compared before any item is decoded
            if (manifest.items.zip stored).any (fun e => sha256Hex e.2.data != e.1.sha256) then
              .error .checksumMismatch
            else
              match decodeItems manifest.encrypted crypto (manifest.items.zip stored) with
              | none => .error .decryptFailed
              | some items => .ok (manifest, items)

/-! ## The manifest is read as it was written -/

/-- The members of an item, in the order of their keys, with a number for the
count. -/
def itemMembers (item : BackupManifestItem) (count : Value) : List (Bytes × Value) :=
  [(utf8 "count", count), (utf8 "file", .string item.file), (utf8 "name", .string item.name),
    (utf8 "sha256", .string item.sha256)]

/-- The object of an item. -/
theorem itemToJson_eq (item : BackupManifestItem) :
    itemToJson item = .object (itemMembers item (integerValue item.count.toNat)) := rfl

/-- The members of a manifest, in the order of their keys, with values for the
version and the items. -/
def manifestMembers (manifest : BackupManifest) (version items : Value) : List (Bytes × Value) :=
  [(utf8 "app_version", .string manifest.appVersion), (utf8 "created_at", .string manifest.createdAt),
    (utf8 "encrypted", .bool manifest.encrypted),
    (utf8 "encryption_method", .string manifest.encryptionMethod),
    (utf8 "host_version", .string manifest.hostVersion), (utf8 "items", items),
    (utf8 "version", version)]

/-- The object of a manifest. -/
theorem manifestToJson_eq (manifest : BackupManifest) :
    manifestToJson manifest = .object (manifestMembers manifest (integerValue manifest.version)
      (.array (manifest.items.map itemToJson))) := rfl

/-- An integer of 64 bits is printed as its token. -/
theorem exists_prints_integerValue (room : ℕ) {n : ℤ} (h : n.natAbs ≤ 2 ^ 64) :
    ∃ value, Prints room (integerValue n) (.number ⟨.finite value, formatInteger n⟩) := by
  obtain ⟨value, hvalue⟩ := exists_parseFiniteDouble_formatInteger h
  have hne : formatInteger n ≠ [] := by
    rw [← intNumeral_text]
    exact Numeral.text_ne_nil _
  refine ⟨value, ?_⟩
  have hprints : (⟨(roundBinary64 (n < 0) n.natAbs).elim .nan .finite, formatInteger n⟩ : Number).Prints
      ⟨.finite value, formatInteger n⟩ := by
    refine ⟨intNumeral n, value, ?_, ?_, ?_⟩
    · rw [intNumeral_text, stringifyNumber, if_pos hne]
    · rw [intNumeral_text, hvalue]
    · rw [intNumeral_text]
  cases room <;> exact ⟨_, hprints, rfl⟩

/-- **What a reader accepts as an item.** -/
structure BackupManifestItem.Valid (item : BackupManifestItem) : Prop where
  name : isBackupToken item.name = true
  file : isBackupToken item.file = true
  ne : item.file ≠ manifestFile
  sha256 : isLowerHexSha256 item.sha256 = true

set_option maxRecDepth 10000 in
/-- A token is text. -/
theorem valid_of_isBackupToken {token : Bytes} (h : isBackupToken token = true) :
    ValidUtf8 token := by
  have hascii : ∀ ch : UInt8, ((0x61 ≤ ch && ch ≤ 0x7a) || (0x30 ≤ ch && ch ≤ 0x39) || ch = 0x5f
      || ch = 0x2e) = true → ch < 0x80 := by decide
  unfold isBackupToken at h
  rw [Bool.and_eq_true] at h
  refine .of_all_ascii (List.all_eq_true.mpr fun ch hch => decide_eq_true (hascii ch ?_))
  exact List.all_eq_true.mp h.2 ch hch

set_option maxRecDepth 10000 in
/-- A digest is text. -/
theorem valid_of_isLowerHexSha256 {text : Bytes} (h : isLowerHexSha256 text = true) :
    ValidUtf8 text := by
  have hascii : ∀ ch : UInt8, ((0x30 ≤ ch && ch ≤ 0x39) || (0x61 ≤ ch && ch ≤ 0x66)) = true →
      ch < 0x80 := by decide
  unfold isLowerHexSha256 at h
  rw [Bool.and_eq_true] at h
  exact .of_all_ascii (List.all_eq_true.mpr fun ch hch =>
    decide_eq_true (hascii ch (List.all_eq_true.mp h.2 ch hch)))

/-- A string is printed as itself. -/
theorem prints_string (room : ℕ) {text : Bytes} (h : ValidUtf8 text) :
    Prints room (.string text) (.string text) := by
  cases room <;> exact ⟨h, rfl⟩

/-- The item of what an item is printed as. -/
theorem parseManifestItem_itemMembers {item : BackupManifestItem} (h : item.Valid)
    (value : Binary64) :
    parseManifestItem (.object (itemMembers item
      (.number ⟨.finite value, formatInteger item.count.toNat⟩))) = some item := by
  have hcount : (Value.object (itemMembers item
      (.number ⟨.finite value, formatInteger item.count.toNat⟩))).getUInt (utf8 "count")
      = some item.count.toNat := by
    have hplain := (plain_formatInteger (item.count.toNat : ℤ)).1
    have hhead := head_formatInteger item.count.toNat
    have hlt : (item.count.toNat : ℤ) < 2 ^ 64 := by exact_mod_cast item.count.toNat_lt
    show (Number.toIntIn _ _ _ _).map Int.toNat = _
    rw [hplain, bne_iff_ne.mpr hhead, Bool.and_self, toIntIn_formatInteger (by omega) hlt]
    rfl
  have hname : (Value.object (itemMembers item
      (.number ⟨.finite value, formatInteger item.count.toNat⟩))).getString (utf8 "name")
      = some item.name := rfl
  have hfile : (Value.object (itemMembers item
      (.number ⟨.finite value, formatInteger item.count.toNat⟩))).getString (utf8 "file")
      = some item.file := rfl
  have hsha : (Value.object (itemMembers item
      (.number ⟨.finite value, formatInteger item.count.toNat⟩))).getString (utf8 "sha256")
      = some item.sha256 := rfl
  unfold parseManifestItem
  simp only [hcount, hname, hfile, hsha, Value.isObject, h.name, h.file, h.ne, h.sha256,
    UInt64.ofNat_toNat]
  rfl

/-- **The items of a manifest are read as they were printed.** -/
theorem exists_prints_items (room : ℕ) {items : List BackupManifestItem} {names files : List Bytes}
    (hvalid : ∀ item ∈ items, item.Valid) (hnames : (items.map (·.name)).Nodup)
    (hfiles : (items.map (·.file)).Nodup) (hnewName : ∀ item ∈ items, item.name ∉ names)
    (hnewFile : ∀ item ∈ items, item.file ∉ files) :
    ∃ values, List.Forall₂ (Prints (room + 1)) (items.map itemToJson) values
      ∧ parseManifestItems names files values = some items := by
  induction items generalizing names files with
  | nil => exact ⟨[], .nil, rfl⟩
  | cons item items ih =>
    have hitem := hvalid item List.mem_cons_self
    rw [List.map_cons, List.nodup_cons] at hnames hfiles
    obtain ⟨values, hprints, hparse⟩ := @ih (item.name :: names)
      (item.file :: files) (fun i hi => hvalid i (List.mem_cons_of_mem _ hi)) hnames.2
      hfiles.2
      (fun i hi hmem => by
        rcases List.mem_cons.mp hmem with heq | hmem
        · exact hnames.1 (heq ▸ List.mem_map_of_mem hi)
        · exact hnewName i (List.mem_cons_of_mem _ hi) hmem)
      (fun i hi hmem => by
        rcases List.mem_cons.mp hmem with heq | hmem
        · exact hfiles.1 (heq ▸ List.mem_map_of_mem hi)
        · exact hnewFile i (List.mem_cons_of_mem _ hi) hmem)
    obtain ⟨value, hcount⟩ := exists_prints_integerValue room
      (n := item.count.toNat) (by simpa using item.count.toNat_lt.le)
    refine ⟨.object (itemMembers item (.number ⟨.finite value, formatInteger item.count.toNat⟩))
      :: values, .cons ?_ hprints, ?_⟩
    · rw [itemToJson_eq]
      refine ⟨?_, _, ?_, rfl⟩
      · show (itemMembers item (integerValue item.count.toNat)).Pairwise _
        simp only [itemMembers, List.pairwise_cons, List.mem_cons, List.not_mem_nil, or_false,
          forall_eq_or_imp, forall_eq, List.Pairwise.nil, and_true, IsEmpty.forall_iff,
          implies_true]
        decide
      · refine .cons ⟨rfl, .of_all_ascii rfl, hcount⟩ (.cons ⟨rfl, .of_all_ascii rfl, ?_⟩
          (.cons ⟨rfl, .of_all_ascii rfl, ?_⟩ (.cons ⟨rfl, .of_all_ascii rfl, ?_⟩ .nil)))
        · exact prints_string room (valid_of_isBackupToken hitem.file)
        · exact prints_string room (valid_of_isBackupToken hitem.name)
        · exact prints_string room (valid_of_isLowerHexSha256 hitem.sha256)
    · have hnew : ¬ (item.name ∈ names ∨ item.file ∈ files) :=
        not_or.mpr ⟨hnewName item List.mem_cons_self, hnewFile item List.mem_cons_self⟩
      rw [parseManifestItems, parseManifestItem_itemMembers hitem]
      simp only [if_neg hnew, hparse]
      rfl

/-- **What a reader accepts as a manifest**, within the limits of JSON. -/
structure BackupManifest.Valid (manifest : BackupManifest) : Prop where
  version : manifest.version = manifestVersion
  createdAt : ValidUtf8 manifest.createdAt
  appVersion : ValidUtf8 manifest.appVersion
  hostVersion : ValidUtf8 manifest.hostVersion
  method : manifest.encryptionMethod = methodOf manifest.encrypted
  items : ∀ item ∈ manifest.items, item.Valid
  names : (manifest.items.map (·.name)).Nodup
  files : (manifest.items.map (·.file)).Nodup

/-- **A manifest is read as it was written.** -/
theorem parseManifest_serializeManifest {manifest : BackupManifest} (h : manifest.Valid)
    (hsize : (serializeManifest manifest).length ≤ maxJsonInputBytes) :
    parseManifest (serializeManifest manifest) = .ok manifest := by
  obtain ⟨values, hvalues, hitems⟩ := @exists_prints_items (maxJsonNestDepth - 3) _ []
    [] h.items h.names h.files (fun _ _ => List.not_mem_nil)
    (fun _ _ => List.not_mem_nil)
  have hone : (manifest.version).natAbs ≤ 2 ^ 64 := by
    rw [h.version]
    decide
  obtain ⟨version, hversion⟩ := exists_prints_integerValue (maxJsonNestDepth - 1) hone
  have hmethod : ValidUtf8 manifest.encryptionMethod := by
    rw [h.method]
    cases manifest.encrypted <;> exact .of_all_ascii rfl
  have harray : Prints (maxJsonNestDepth - 1) (.array (manifest.items.map itemToJson))
      (.array values) := ⟨values, hvalues, rfl⟩
  have hprints : Prints maxJsonNestDepth (manifestToJson manifest) (.object
      (manifestMembers manifest (.number ⟨.finite version, formatInteger manifest.version⟩)
        (.array values))) := by
    rw [manifestToJson_eq]
    refine ⟨?_, _, ?_, rfl⟩
    · show (manifestMembers manifest _ _).Pairwise _
      simp only [manifestMembers, List.pairwise_cons, List.mem_cons, List.not_mem_nil, or_false,
        forall_eq_or_imp, forall_eq, List.Pairwise.nil, and_true, IsEmpty.forall_iff, implies_true]
      decide
    · exact .cons ⟨rfl, .of_all_ascii rfl, prints_string _ h.appVersion⟩
        (.cons ⟨rfl, .of_all_ascii rfl, prints_string _ h.createdAt⟩
        (.cons ⟨rfl, .of_all_ascii rfl, rfl⟩
        (.cons ⟨rfl, .of_all_ascii rfl, prints_string _ hmethod⟩
        (.cons ⟨rfl, .of_all_ascii rfl, prints_string _ h.hostVersion⟩
        (.cons ⟨rfl, .of_all_ascii rfl, harray⟩
        (.cons ⟨rfl, .of_all_ascii rfl, hversion⟩ .nil))))))
  unfold serializeManifest at hsize
  have hparse := parse_stringify hprints
  rw [if_pos hsize] at hparse
  set root := Value.object (manifestMembers manifest
    (.number ⟨.finite version, formatInteger manifest.version⟩) (.array values)) with hroot
  have hint : root.getInt (utf8 "version") = some manifestVersion := by
    rw [hroot]
    show Number.toIntIn _ _ _ _ = _
    rw [(plain_formatInteger manifest.version).1, h.version,
      toIntIn_formatInteger (by decide) (by decide)]
  have hfields : parseManifestFields root = some manifest := by
    have hcreated : root.getString (utf8 "created_at") = some manifest.createdAt := rfl
    have happ : root.getString (utf8 "app_version") = some manifest.appVersion := rfl
    have hhost : root.getString (utf8 "host_version") = some manifest.hostVersion := rfl
    have hencrypted : root.getBool (utf8 "encrypted") = some manifest.encrypted := rfl
    have hmethod' : root.getString (utf8 "encryption_method") = some manifest.encryptionMethod := rfl
    have harray' : root.getArray (utf8 "items") = some values := rfl
    unfold parseManifestFields
    simp only [hcreated, happ, hhost, hencrypted, hmethod', harray', hitems, ne_eq,
      not_true_eq_false, h.method, if_false, Option.map_some, Option.some.injEq]
    rw [← h.version, ← h.method]
  unfold parseManifest serializeManifest
  have hobject : (some root).filter Value.isObject = some root := rfl
  simp only [hparse, hobject, hint, hfields]
  rfl

/-! ## What is written is read back -/

/-- What goes into the manifest and into the archive for an item. -/
def Encoded (encrypt : Bool) (crypto : ArchiveCrypto) (item : BackupItem)
    (e : BackupManifestItem × ZipEntry) : Prop :=
  ∃ stored, encodeItem encrypt crypto item = some stored
    ∧ stored.length ≤ archiveLimits.maxEntryBytes
    ∧ e = (⟨item.name, item.file, item.count, sha256Hex stored⟩, ⟨item.file, stored⟩)

/-- What the loop of `WriteArchive` leaves. -/
theorem forall₂_of_encodeItems {encrypt : Bool} {crypto : ArchiveCrypto} {items : List BackupItem}
    {encoded : List (BackupManifestItem × ZipEntry)}
    (h : encodeItems encrypt crypto items = .ok encoded) :
    List.Forall₂ (Encoded encrypt crypto) items encoded := by
  induction items generalizing encoded with
  | nil =>
    cases h
    exact .nil
  | cons item items ih =>
    unfold encodeItems at h
    split at h
    · cases h
    rename_i stored hstored
    split at h
    · cases h
    rename_i hsize
    cases hrest : encodeItems encrypt crypto items with
    | error e => rw [hrest] at h; cases h
    | ok rest =>
      rw [hrest] at h
      cases h
      exact .cons ⟨stored, hstored, not_lt.mp hsize, rfl⟩ (ih hrest)

/-- What `ValidateItems` asks of the items, one by one and together. -/
theorem of_validateItemsFrom {names files : List Bytes} {items : List BackupItem}
    (h : validateItemsFrom names files items = true) :
    (∀ item ∈ items, isBackupToken item.name = true ∧ isBackupToken item.file = true
        ∧ item.file ≠ manifestFile ∧ item.name ∉ names ∧ item.file ∉ files)
      ∧ (items.map (·.name)).Nodup ∧ (items.map (·.file)).Nodup := by
  induction items generalizing names files with
  | nil => exact ⟨fun item hitem => absurd hitem List.not_mem_nil, List.nodup_nil, List.nodup_nil⟩
  | cons item items ih =>
    simp only [validateItemsFrom, Bool.and_eq_true, decide_eq_true_eq] at h
    obtain ⟨⟨⟨⟨⟨hname, hfile⟩, hne⟩, hnewName⟩, hnewFile⟩, hrest⟩ := h
    obtain ⟨hitems, hnames, hfiles⟩ := ih hrest
    refine ⟨fun i hi => ?_, ?_, ?_⟩
    · rcases List.mem_cons.mp hi with rfl | hi
      · exact ⟨hname, hfile, hne, hnewName, hnewFile⟩
      · obtain ⟨h₁, h₂, h₃, h₄, h₅⟩ := hitems i hi
        exact ⟨h₁, h₂, h₃, fun hmem => h₄ (List.mem_cons_of_mem _ hmem),
          fun hmem => h₅ (List.mem_cons_of_mem _ hmem)⟩
    · rw [List.map_cons, List.nodup_cons]
      refine ⟨fun hmem => ?_, hnames⟩
      obtain ⟨i, hi, heq⟩ := List.mem_map.mp hmem
      exact (hitems i hi).2.2.2.1 (heq ▸ List.mem_cons_self)
    · rw [List.map_cons, List.nodup_cons]
      refine ⟨fun hmem => ?_, hfiles⟩
      obtain ⟨i, hi, heq⟩ := List.mem_map.mp hmem
      exact (hitems i hi).2.2.2.2 (heq ▸ List.mem_cons_self)

set_option maxRecDepth 10000 in
/-- A token is a safe name of an entry. -/
theorem isSafeEntryName_of_isBackupToken {token : Bytes} (h : isBackupToken token = true) :
    isSafeEntryName token = true := by
  have hsafe : ∀ ch : UInt8, ((0x61 ≤ ch && ch ≤ 0x7a) || (0x30 ≤ ch && ch ≤ 0x39) || ch = 0x5f
      || ch = 0x2e) = true → (ch = 0x2f || ch = 0x5c || ch = 0x3a || ch < 0x20) = false := by
    decide
  unfold isBackupToken at h
  rw [Bool.and_eq_true] at h
  unfold isSafeEntryName
  rw [h.1, Bool.true_and, Bool.not_eq_true', List.any_eq_false]
  intro ch hch
  rw [hsafe ch (List.all_eq_true.mp h.2 ch hch)]
  decide

/-- An entry is found by its name, when the names are distinct. -/
theorem findEntry_of_mem {entries : List ZipEntry} {entry : ZipEntry}
    (hnames : (entries.map ZipEntry.name).Nodup) (h : entry ∈ entries) :
    findEntry entries entry.name = some entry := by
  induction entries with
  | nil => cases h
  | cons e entries ih =>
    rw [List.map_cons, List.nodup_cons] at hnames
    unfold findEntry
    by_cases heq : e.name = entry.name
    · rw [List.find?_cons_of_pos (by simpa using heq)]
      rcases List.mem_cons.mp h with rfl | h
      · rfl
      · exact absurd (heq ▸ List.mem_map_of_mem h) hnames.1
    · rw [List.find?_cons_of_neg (by simpa using heq)]
      rcases List.mem_cons.mp h with rfl | h
      · exact absurd rfl heq
      · exact ih hnames.2 h

/-- The entries of the items are found. -/
theorem findStored_encoded {entries : List ZipEntry}
    (hnames : (entries.map ZipEntry.name).Nodup) {encoded : List (BackupManifestItem × ZipEntry)}
    (h : ∀ e ∈ encoded, e.1.file = e.2.name ∧ e.2 ∈ entries) :
    findStored entries (encoded.map Prod.fst) = some (encoded.map Prod.snd) := by
  induction encoded with
  | nil => rfl
  | cons e encoded ih =>
    obtain ⟨hfile, hmem⟩ := h e List.mem_cons_self
    rw [List.map_cons, findStored, hfile, findEntry_of_mem hnames hmem]
    simp only [ih (fun e' he' => h e' (List.mem_cons_of_mem _ he')), Option.map_some, List.map_cons]

/-- An item is decoded from what it was encoded to. -/
theorem decodeItem_encodeItem {encrypt : Bool} {crypto : ArchiveCrypto} (hcrypto : crypto.Inverse)
    {item : BackupItem} {stored : Bytes} (h : encodeItem encrypt crypto item = some stored) :
    decodeItem encrypt crypto stored = some item.plaintext := by
  unfold encodeItem at h
  unfold decodeItem
  split at h
  · rename_i hplain
    rw [if_pos hplain, h]
  · rename_i hplain
    split at h
    · cases h
    · rename_i havailable
      rw [if_neg hplain, if_neg havailable]
      exact hcrypto item stored h

/-- The items are decoded from what they were encoded to. -/
theorem decodeItems_encoded {encrypt : Bool} {crypto : ArchiveCrypto} (hcrypto : crypto.Inverse)
    {items : List BackupItem} {encoded : List (BackupManifestItem × ZipEntry)}
    (h : List.Forall₂ (Encoded encrypt crypto) items encoded) :
    decodeItems encrypt crypto encoded = some items := by
  induction h with
  | nil => rfl
  | @cons item e items encoded hitem _ ih =>
    obtain ⟨stored, hstored, -, rfl⟩ := hitem
    rw [decodeItems]
    simp only [decodeItem_encodeItem hcrypto hstored, ih]
    rfl

/-- **What `WriteArchive` has checked when it succeeds.** -/
theorem writeArchive_eq_ok {items : List BackupItem} {encrypt : Bool} {crypto : ArchiveCrypto}
    {meta_ manifest : BackupManifest} {archive : Bytes}
    (h : writeArchive items encrypt crypto meta_ = .ok (manifest, archive)) :
    validateItemsFrom [] [] items = true ∧ items.length + 1 ≤ archiveLimits.maxEntries
      ∧ ∃ encoded, encodeItems encrypt crypto items = .ok encoded
        ∧ manifest = manifestFor encrypt meta_ (encoded.map Prod.fst)
        ∧ archive = buildStoreOnlyZip (⟨manifestFile, serializeManifest manifest⟩
          :: encoded.map Prod.snd)
        ∧ (serializeManifest manifest).length ≤ archiveLimits.maxEntryBytes
        ∧ (((⟨manifestFile, serializeManifest manifest⟩ : ZipEntry) :: encoded.map Prod.snd).map
          (fun entry => entry.data.length)).sum ≤ archiveLimits.maxTotalBytes
        ∧ archive.length ≤ maxArchiveBytes := by
  unfold writeArchive at h
  cases hitems : validateItems items with
  | error e => rw [hitems] at h; cases h
  | ok u =>
    rw [hitems] at h
    cases hencoded : encodeItems encrypt crypto items with
    | error e => rw [hencoded] at h; cases h
    | ok encoded =>
      rw [hencoded] at h
      dsimp only at h
      split at h
      · cases h
      rename_i hmanifest
      split at h
      · cases h
      rename_i htotal
      split at h
      · cases h
      rename_i hsize
      cases h
      unfold validateItems at hitems
      split at hitems
      · cases hitems
      rename_i hvalid
      split at hitems
      · cases hitems
      rename_i hcount
      exact ⟨by simpa using hvalid, not_lt.mp hcount, encoded, rfl, rfl, rfl, not_lt.mp hmanifest,
        not_lt.mp htotal, not_lt.mp hsize⟩

/-- Lists whose elements agree in a field have the same fields. -/
theorem map_eq_of_forall₂ {α β γ : Type} {R : α → β → Prop} (f : α → γ) (g : β → γ) {as : List α}
    {bs : List β} (h : List.Forall₂ R as bs) (hfg : ∀ a b, R a b → f a = g b) :
    as.map f = bs.map g := by
  induction h with
  | nil => rfl
  | cons hab _ ih => rw [List.map_cons, List.map_cons, hfg _ _ hab, ih]

/-- Pairs are put together again. -/
theorem zip_map_fst_map_snd {α β : Type} (l : List (α × β)) :
    (l.map Prod.fst).zip (l.map Prod.snd) = l := by
  rw [List.zip_map', List.map_id']

/-- **What is written is read back**: the same items in the same order, and the
same manifest. -/
theorem readArchive_writeArchive {crypto : ArchiveCrypto} (hcrypto : crypto.Inverse)
    {items : List BackupItem} {encrypt : Bool} {meta_ manifest : BackupManifest} {archive : Bytes}
    (hlengths : ∀ item ∈ items, item.file.length ≤ 65535)
    (hcreated : ValidUtf8 meta_.createdAt) (happ : ValidUtf8 meta_.appVersion)
    (hhost : ValidUtf8 meta_.hostVersion)
    (hwrite : writeArchive items encrypt crypto meta_ = .ok (manifest, archive))
    (hjson : (serializeManifest manifest).length ≤ maxJsonInputBytes) :
    readArchive archive crypto = .ok (manifest, items) := by
  obtain ⟨hvalid, hcount, encoded, hencoded, hmanifest, harchive, hsize, htotal, hlimit⟩ :=
    writeArchive_eq_ok hwrite
  obtain ⟨hitems, hnames, hfiles⟩ := of_validateItemsFrom hvalid
  have hforall := forall₂_of_encodeItems hencoded
  set entries : List ZipEntry := ⟨manifestFile, serializeManifest manifest⟩ :: encoded.map Prod.snd
    with hentries
  -- each item, beside what was made of it
  have hof : ∀ e ∈ encoded, ∃ item ∈ items, Encoded encrypt crypto item e := by
    intro e he
    obtain ⟨i, hi, rfl⟩ := List.getElem_of_mem he
    have hi' : i < items.length := hforall.length_eq ▸ hi
    exact ⟨items[i], List.getElem_mem hi', hforall.get hi' hi⟩
  have hmapName := map_eq_of_forall₂ (·.name) (fun e => e.1.name) hforall
    (fun item e ⟨_, _, _, he⟩ => by rw [he])
  have hmapFile := map_eq_of_forall₂ (·.file) (fun e => e.1.file) hforall
    (fun item e ⟨_, _, _, he⟩ => by rw [he])
  have hmapEntry := map_eq_of_forall₂ (·.file) (fun e => e.2.name) hforall
    (fun item e ⟨_, _, _, he⟩ => by rw [he])
  have hdistinct : (entries.map ZipEntry.name).Nodup := by
    rw [hentries, List.map_cons, List.map_map, List.nodup_cons]
    show manifestFile ∉ encoded.map (fun e => e.2.name) ∧ (encoded.map (fun e => e.2.name)).Nodup
    rw [← hmapEntry]
    refine ⟨fun hmem => ?_, hfiles⟩
    obtain ⟨item, hitem, heq⟩ := List.mem_map.mp hmem
    exact (hitems item hitem).2.2.1 heq
  have hzippable : Zippable archiveLimits entries := by
    have hsafe : isSafeEntryName manifestFile = true := by decide
    have hshort : manifestFile.length < 256 ^ 2 := by decide
    have hentry : ∀ entry ∈ entries, entry.data.length ≤ archiveLimits.maxEntryBytes
        ∧ isSafeEntryName entry.name = true ∧ entry.name.length < 256 ^ 2 := by
      intro entry hentry
      rcases List.mem_cons.mp hentry with rfl | hentry
      · exact ⟨hsize, hsafe, hshort⟩
      · obtain ⟨e, he, rfl⟩ := List.mem_map.mp hentry
        obtain ⟨item, hitem, stored, -, hstored, rfl⟩ := hof e he
        exact ⟨hstored, isSafeEntryName_of_isBackupToken (hitems item hitem).2.1,
          Nat.lt_succ_of_le (hlengths item hitem)⟩
    have hmax : archiveLimits.maxEntryBytes < 256 ^ 4 := by decide
    refine ⟨?_, fun entry he => (hentry entry he).1, htotal, fun entry he => (hentry entry he).2.1,
      hdistinct, fun entry he => ⟨(hentry entry he).2.2, ?_⟩⟩
    · rw [hentries, List.length_cons, List.length_map, ← hforall.length_eq]
      exact hcount
    · exact lt_of_le_of_lt (hentry entry he).1 hmax
  have hparse : parseStoreOnlyZip archive archiveLimits = .ok entries := by
    have hfew : entries.length < 256 ^ 2 := lt_of_le_of_lt hzippable.count (by decide)
    rw [harchive]
    exact parseStoreOnlyZip_buildStoreOnlyZip hzippable hfew
      ((harchive ▸ hlimit).trans (by decide))
  have hvalidManifest : manifest.Valid := by
    rw [hmanifest]
    refine ⟨rfl, hcreated, happ, hhost, rfl, fun listed hlisted => ?_, ?_, ?_⟩
    · obtain ⟨e, he, rfl⟩ := List.mem_map.mp hlisted
      obtain ⟨item, hitem, stored, -, -, rfl⟩ := hof e he
      obtain ⟨hname, hfile, hne, -, -⟩ := hitems item hitem
      exact ⟨hname, hfile, hne, isLowerHexSha256_sha256Hex stored⟩
    · show ((encoded.map Prod.fst).map (·.name)).Nodup
      rw [List.map_map]
      exact hmapName ▸ hnames
    · show ((encoded.map Prod.fst).map (·.file)).Nodup
      rw [List.map_map]
      exact hmapFile ▸ hfiles
  have hread := parseManifest_serializeManifest hvalidManifest hjson
  have hlisted : manifest.items = encoded.map Prod.fst := by rw [hmanifest]; rfl
  have hencrypted : manifest.encrypted = encrypt := by rw [hmanifest]; rfl
  have hfind : findEntry entries manifestFile = some ⟨manifestFile, serializeManifest manifest⟩ :=
    @findEntry_of_mem _ ⟨manifestFile, serializeManifest manifest⟩ hdistinct
      List.mem_cons_self
  have hstored : findStored entries (encoded.map Prod.fst) = some (encoded.map Prod.snd) := by
    refine findStored_encoded hdistinct (fun e he => ⟨?_, ?_⟩)
    · obtain ⟨item, -, stored, -, -, rfl⟩ := hof e he
      rfl
    · exact List.mem_cons_of_mem _ (List.mem_map_of_mem he)
  have hsums : encoded.any (fun e => sha256Hex e.2.data != e.1.sha256) = false := by
    rw [List.any_eq_false]
    intro e he
    obtain ⟨item, -, stored, -, -, rfl⟩ := hof e he
    simp
  unfold readArchive
  rw [if_neg (not_lt.mpr hlimit), hparse]
  simp only [hfind, hread, hlisted, hstored, hencrypted, zip_map_fst_map_snd, hsums,
    decodeItems_encoded hcrypto hforall]
  rfl

/-! ## What is read is what the manifest lists -/

/-- The items of a manifest have distinct names and files. -/
theorem nodup_of_parseManifestItems {names files : List Bytes} {values : List Value}
    {items : List BackupManifestItem} (h : parseManifestItems names files values = some items) :
    ((items.map (·.name)).Nodup ∧ ∀ item ∈ items, item.name ∉ names)
      ∧ (items.map (·.file)).Nodup ∧ ∀ item ∈ items, item.file ∉ files := by
  induction values generalizing names files items with
  | nil =>
    cases h
    exact ⟨⟨List.nodup_nil, fun _ h => absurd h List.not_mem_nil⟩, List.nodup_nil,
      fun _ h => absurd h List.not_mem_nil⟩
  | cons value values ih =>
    unfold parseManifestItems at h
    split at h
    · cases h
    rename_i item hitem
    split at h
    · cases h
    rename_i hnew
    obtain ⟨hnewName, hnewFile⟩ := not_or.mp hnew
    obtain ⟨rest, hrest, rfl⟩ := Option.map_eq_some_iff.mp h
    obtain ⟨⟨hnames, hseenName⟩, hfiles, hseenFile⟩ := ih hrest
    refine ⟨⟨?_, ?_⟩, ?_, ?_⟩
    · rw [List.map_cons, List.nodup_cons]
      refine ⟨fun hmem => ?_, hnames⟩
      obtain ⟨i, hi, heq⟩ := List.mem_map.mp hmem
      exact hseenName i hi (heq ▸ List.mem_cons_self)
    · intro i hi hmem
      rcases List.mem_cons.mp hi with rfl | hi
      · exact hnewName hmem
      · exact hseenName i hi (List.mem_cons_of_mem _ hmem)
    · rw [List.map_cons, List.nodup_cons]
      refine ⟨fun hmem => ?_, hfiles⟩
      obtain ⟨i, hi, heq⟩ := List.mem_map.mp hmem
      exact hseenFile i hi (heq ▸ List.mem_cons_self)
    · intro i hi hmem
      rcases List.mem_cons.mp hi with rfl | hi
      · exact hnewFile hmem
      · exact hseenFile i hi (List.mem_cons_of_mem _ hmem)

/-- A manifest that is read lists distinct names and files. -/
theorem nodup_of_parseManifest {text : Bytes} {manifest : BackupManifest}
    (h : parseManifest text = .ok manifest) :
    (manifest.items.map (·.name)).Nodup ∧ (manifest.items.map (·.file)).Nodup := by
  unfold parseManifest at h
  split at h
  · cases h
  rename_i root hroot
  split at h
  · cases h
  split at h
  · cases h
  cases hfields : parseManifestFields root with
  | none => rw [hfields] at h; cases h
  | some m =>
    rw [hfields] at h
    cases h
    unfold parseManifestFields at hfields
    split at hfields
    · split at hfields
      · cases hfields
      · obtain ⟨items, hitems, rfl⟩ := Option.map_eq_some_iff.mp hfields
        obtain ⟨⟨hnames, -⟩, hfiles, -⟩ := nodup_of_parseManifestItems hitems
        exact ⟨hnames, hfiles⟩
    · cases hfields

/-- An item as it is read: it has the listed name, file and count, and is decoded
from the one entry of that file, whose digest is listed. -/
def ReadFrom (entries : List ZipEntry) (encrypted : Bool) (crypto : ArchiveCrypto)
    (listed : BackupManifestItem) (item : BackupItem) : Prop :=
  item.name = listed.name ∧ item.file = listed.file ∧ item.count = listed.count
    ∧ ∃ entry ∈ entries, entry.name = listed.file
      ∧ (∀ other ∈ entries, other.name = listed.file → other = entry)
      ∧ sha256Hex entry.data = listed.sha256
      ∧ decodeItem encrypted crypto entry.data = some item.plaintext

/-- The entry that is found is the only one of its name. -/
theorem eq_of_findEntry {entries : List ZipEntry} (hnames : (entries.map ZipEntry.name).Nodup)
    {name : Bytes} {entry : ZipEntry} (h : findEntry entries name = some entry) :
    entry ∈ entries ∧ entry.name = name
      ∧ ∀ other ∈ entries, other.name = name → other = entry := by
  have hmem : entry ∈ entries := List.mem_of_find?_eq_some h
  have hname : entry.name = name := by simpa using List.find?_some h
  refine ⟨hmem, hname, fun other hother hother' => ?_⟩
  have hfound := findEntry_of_mem hnames hother
  rw [hother', h] at hfound
  exact (Option.some.inj hfound).symm

/-- **The items are read one by one from the entries of the listed files.** -/
theorem forall₂_readFrom {entries stored : List ZipEntry}
    (hnames : (entries.map ZipEntry.name).Nodup) {encrypted : Bool} {crypto : ArchiveCrypto}
    {listed : List BackupManifestItem} {items : List BackupItem}
    (hstored : findStored entries listed = some stored)
    (hsums : (listed.zip stored).any (fun e => sha256Hex e.2.data != e.1.sha256) = false)
    (hitems : decodeItems encrypted crypto (listed.zip stored) = some items) :
    List.Forall₂ (ReadFrom entries encrypted crypto) listed items := by
  induction listed generalizing stored items with
  | nil =>
    cases hstored
    cases hitems
    exact .nil
  | cons item listed ih =>
    unfold findStored at hstored
    split at hstored
    · cases hstored
    rename_i entry hentry
    obtain ⟨rest, hrest, rfl⟩ := Option.map_eq_some_iff.mp hstored
    obtain ⟨hmem, hname, honly⟩ := eq_of_findEntry hnames hentry
    rw [List.zip_cons_cons, List.any_cons, Bool.or_eq_false_iff] at hsums
    rw [List.zip_cons_cons] at hitems
    unfold decodeItems at hitems
    split at hitems
    · cases hitems
    rename_i plaintext hplaintext
    obtain ⟨others, hothers, rfl⟩ := Option.map_eq_some_iff.mp hitems
    have hsum : sha256Hex entry.data = item.sha256 := by simpa using hsums.1
    exact .cons ⟨rfl, rfl, rfl, entry, hmem, hname, honly, hsum, hplaintext⟩
      (ih hrest hsums.2 hothers)

/-- **What is read is what the manifest lists.** -/
theorem readArchive_sound {bytes : Bytes} {crypto : ArchiveCrypto} {manifest : BackupManifest}
    {items : List BackupItem} (h : readArchive bytes crypto = .ok (manifest, items)) :
    ∃ entries, parseStoreOnlyZip bytes archiveLimits = .ok entries
      ∧ (∃ entry ∈ entries, entry.name = manifestFile ∧ parseManifest entry.data = .ok manifest)
      ∧ (manifest.items.map (·.name)).Nodup ∧ (manifest.items.map (·.file)).Nodup
      ∧ List.Forall₂ (ReadFrom entries manifest.encrypted crypto) manifest.items items := by
  unfold readArchive at h
  split at h
  · cases h
  split at h
  · cases h
  rename_i entries hentries
  split at h
  · cases h
  rename_i manifestEntry hfind
  split at h
  · cases h
  rename_i parsed hparsed
  split at h
  · cases h
  rename_i stored hstored
  split at h
  · cases h
  rename_i hsums
  split at h
  · cases h
  rename_i decoded hdecoded
  cases h
  have hnames := nodup_of_parseStoreOnlyZip hentries
  obtain ⟨hmem, hname, -⟩ := eq_of_findEntry hnames hfind
  obtain ⟨hitemNames, hitemFiles⟩ := nodup_of_parseManifest hparsed
  exact ⟨entries, hentries, ⟨manifestEntry, hmem, hname, hparsed⟩, hitemNames, hitemFiles,
    forall₂_readFrom hnames hstored (by simpa using hsums) hdecoded⟩

/-- **Archives are written and read alike.** An archive that is written is read
back with the same items in the same order and the same manifest; and whatever
archive is read, the items are those of its manifest, in order and with distinct
names and files, each from the one entry of its file. -/
theorem backupArchive_faithful (crypto : ArchiveCrypto) :
    (crypto.Inverse → ∀ (items : List BackupItem) (encrypt : Bool) (meta_ manifest : BackupManifest)
      (archive : Bytes),
      (∀ item ∈ items, item.name.length ≤ 65535 ∧ item.file.length ≤ 65535) →
      ValidUtf8 meta_.createdAt → ValidUtf8 meta_.appVersion → ValidUtf8 meta_.hostVersion →
      writeArchive items encrypt crypto meta_ = .ok (manifest, archive) →
      (serializeManifest manifest).length ≤ maxJsonInputBytes →
      readArchive archive crypto = .ok (manifest, items))
    ∧ ∀ (bytes : Bytes) (manifest : BackupManifest) (items : List BackupItem),
      readArchive bytes crypto = .ok (manifest, items) →
      ∃ entries, parseStoreOnlyZip bytes archiveLimits = .ok entries
        ∧ (∃ entry ∈ entries, entry.name = manifestFile ∧ parseManifest entry.data = .ok manifest)
        ∧ (manifest.items.map (·.name)).Nodup ∧ (manifest.items.map (·.file)).Nodup
        ∧ List.Forall₂ (ReadFrom entries manifest.encrypted crypto) manifest.items items := by
  refine ⟨fun hcrypto items encrypt meta_ manifest archive hlengths hcreated happ hhost hwrite
    hjson => ?_, fun bytes manifest items h => readArchive_sound h⟩
  exact readArchive_writeArchive hcrypto (fun item hitem => (hlengths item hitem).2) hcreated happ
    hhost hwrite hjson

/-- A cipher that turns the bytes around. -/
def reversing : ArchiveCrypto where
  isAvailable := true
  encrypt := fun item => some item.plaintext.reverse
  decrypt := fun cipher => some cipher.reverse

/-- One item. -/
def oneItem : BackupItem := ⟨utf8 "learning", utf8 "learning.tsv.enc", 2, utf8 "a\tb\n"⟩

/-- Its time and versions. -/
def oneMeta : BackupManifest where
  createdAt := utf8 "2024-01-01T00:00:00Z"
  appVersion := utf8 "1.0"
  hostVersion := utf8 "1.0"
  encryptionMethod := []
  items := []

/-- One encrypted item is written and read back. -/
theorem backupArchive_faithful_oneItem :
    ∃ manifest archive, writeArchive [oneItem] true reversing oneMeta = .ok (manifest, archive)
      ∧ readArchive archive reversing = .ok (manifest, [oneItem]) := by
  have hinverse : reversing.Inverse := by
    intro item cipher h
    cases h
    exact congrArg some (List.reverse_reverse _)
  have hwrite : (writeArchive [oneItem] true reversing oneMeta).toOption.any (fun r =>
      (serializeManifest r.1).length ≤ maxJsonInputBytes) = true := by decide +kernel
  cases h : writeArchive [oneItem] true reversing oneMeta with
  | error e => rw [h] at hwrite; cases hwrite
  | ok r =>
    obtain ⟨manifest, archive⟩ := r
    rw [h] at hwrite
    refine ⟨manifest, archive, rfl, ?_⟩
    refine (backupArchive_faithful reversing).1 hinverse [oneItem] true oneMeta manifest archive ?_
      (.of_all_ascii rfl) (.of_all_ascii rfl) (.of_all_ascii rfl) h (of_decide_eq_true hwrite)
    intro item hitem
    rw [List.mem_singleton.mp hitem]
    decide

end AzooKey.Host.Backup

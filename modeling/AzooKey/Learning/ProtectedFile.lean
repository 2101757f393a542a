import AzooKey.Lib.Bytes
import AzooKey.Lib.Interactive

/-!
# Protected files

`learning/src/DpapiCrypto.cpp`: a store of the user's data is one file that is
encrypted, `.enc`. Older versions wrote it in plain text; `MigratePlaintextFile`
turns such a file into an encrypted one and keeps a copy of it, `.bak`.

The functions are programs over the three files. Every operation on a file may
fail, the copy of the backup may leave anything in its file when it does, and
the process may stop between any two operations. Writing `.enc` and removing
the plain file are atomic: `WriteTextFileAtomically` renames a complete file
into place. Neither diagnostics nor the erasing of buffers is modelled, and
no other process touches the files.
-/

namespace AzooKey.Learning

open Interactive

/-- The files of a store. -/
inductive File
  | plain | enc | bak
deriving DecidableEq

/-- **What the files hold.** -/
structure Files where
  plain : Option Bytes
  enc : Option Bytes
  bak : Option Bytes
deriving DecidableEq

/-- What a file holds. -/
def Files.get (s : Files) : File → Option Bytes
  | .plain => s.plain
  | .enc => s.enc
  | .bak => s.bak

/-- **`ByteCrypto`**: what `Encrypt` may answer, and `Decrypt`, its inverse. A
text may have several ciphers. -/
structure ByteCrypto where
  Encrypts : Bytes → Bytes → Prop
  decrypt : Bytes → Option Bytes
  inverse : ∀ {text cipher}, Encrypts text cipher → decrypt cipher = some text
  total : ∀ text, ∃ cipher, Encrypts text cipher ∧ cipher ≠ []

/-- The operations on the files. -/
inductive Op
  | lock
  | exists_ (file : File)
  | read (file : File)
  /-- `copy_file` of the plain file to the backup. -/
  | copyBackup
  /-- `FlushFileToDisk` of the backup. -/
  | flushBackup
  | encrypt (text : Bytes)
  | decrypt (cipher : Bytes)
  /-- `WriteTextFileAtomically` of `.enc`. -/
  | writeEncrypted (cipher : Bytes)
  /-- `MigrationSource::Remove`. -/
  | removePlain

/-- What an operation answers: a value, or nothing when it fails. -/
def Op.Answer : Op → Type
  | .lock | .copyBackup | .flushBackup | .writeEncrypted _ | .removePlain => Bool
  | .exists_ _ => Option Bool
  | .read _ | .encrypt _ | .decrypt _ => Option Bytes

/-- A program over the files. -/
abbrev Program := Interactive Op Op.Answer

/-- **What the operations do when anything may fail.** -/
def mayFail (crypto : ByteCrypto) : (op : Op) → Files → op.Answer → Files → Prop
  | .lock, s, (_ : Bool), s' => s' = s
  | .exists_ file, s, (answer : Option Bool), s' =>
    s' = s ∧ (answer = none ∨ answer = some (s.get file).isSome)
  | .read file, s, (answer : Option Bytes), s' => s' = s ∧ (answer = none ∨ answer = s.get file)
  | .copyBackup, s, (ok : Bool), s' =>
    (ok = true ∧ s.plain.isSome = true ∧ s.bak = none ∧ s' = { s with bak := s.plain })
      ∨ (ok = false ∧ (s' = s ∨ s.bak = none ∧ ∃ part, s' = { s with bak := some part }))
  | .flushBackup, s, (_ : Bool), s' => s' = s
  | .encrypt text, s, (answer : Option Bytes), s' =>
    s' = s ∧ ∀ cipher ∈ answer, crypto.Encrypts text cipher
  | .decrypt cipher, s, (answer : Option Bytes), s' =>
    s' = s ∧ (answer = none ∨ answer = crypto.decrypt cipher)
  | .writeEncrypted cipher, s, (ok : Bool), s' =>
    (ok = true ∧ s' = { s with enc := some cipher }) ∨ (ok = false ∧ s' = s)
  | .removePlain, s, (ok : Bool), s' =>
    (ok = true ∧ s.plain.isSome = true ∧ s' = { s with plain := none }) ∨ (ok = false ∧ s' = s)

/-- **What the operations do when nothing fails.** -/
def neverFails (crypto : ByteCrypto) : (op : Op) → Files → op.Answer → Files → Prop
  | .lock, s, (ok : Bool), s' => ok = true ∧ s' = s
  | .exists_ file, s, (answer : Option Bool), s' => s' = s ∧ answer = some (s.get file).isSome
  | .read file, s, (answer : Option Bytes), s' => s' = s ∧ answer = s.get file
  | .copyBackup, s, (ok : Bool), s' =>
    if s.plain.isSome = true ∧ s.bak = none then ok = true ∧ s' = { s with bak := s.plain }
    else ok = false ∧ s' = s
  | .flushBackup, s, (ok : Bool), s' => ok = true ∧ s' = s
  | .encrypt text, s, (answer : Option Bytes), s' =>
    s' = s ∧ ∃ cipher, answer = some cipher ∧ crypto.Encrypts text cipher ∧ cipher ≠ []
  | .decrypt cipher, s, (answer : Option Bytes), s' => s' = s ∧ answer = crypto.decrypt cipher
  | .writeEncrypted cipher, s, (ok : Bool), s' => ok = true ∧ s' = { s with enc := some cipher }
  | .removePlain, s, (ok : Bool), s' =>
    if s.plain.isSome = true then ok = true ∧ s' = { s with plain := none } else ok = false ∧ s' = s

/-! ## The functions -/

/-- `LockProtectedFile`. -/
def lockProtectedFile : Program Bool := ask Op.lock

/-- `Exists`. -/
def fileExists (file : File) : Program (Option Bool) := ask (Op.exists_ file)

/-- `ReadBytes`, and `MigrationSource::Read` of the plain file. -/
def readBytes (file : File) : Program (Option Bytes) := ask (Op.read file)

/-- `copy_file` of the plain file to the backup. -/
def copyBackup : Program Bool := ask Op.copyBackup

/-- `FlushFileToDisk` of the backup. -/
def flushBackup : Program Bool := ask Op.flushBackup

/-- `Encrypt`. -/
def encrypt (text : Bytes) : Program (Option Bytes) := ask (Op.encrypt text)

/-- `Decrypt`. -/
def decrypt (cipher : Bytes) : Program (Option Bytes) := ask (Op.decrypt cipher)

/-- `WriteTextFileAtomically` of `.enc`. -/
def writeEncrypted (cipher : Bytes) : Program Bool := ask (Op.writeEncrypted cipher)

/-- `MigrationSource::Remove`. -/
def removePlain : Program Bool := ask Op.removePlain

/-- `EncryptAndWrite`. -/
def encryptAndWrite (text : Bytes) : Program Bool := do
  match ← encrypt text with
  | none => pure false
  | some cipher => if cipher = [] then pure false else writeEncrypted cipher

/-- `DecryptFile`. -/
def decryptFile : Program (Option Bytes) := do
  match ← readBytes .enc with
  | none => pure none
  | some cipher => decrypt cipher

/-- `ProtectedFileSource`. -/
inductive ProtectedFileSource
  | missing | encrypted | plaintext | error
deriving DecidableEq

/-- **`ReadProtectedText`**, with its text. -/
def readProtectedText : Program (ProtectedFileSource × Bytes) := do
  match ← fileExists .enc with
  | none => pure (.error, [])
  | some true =>
    match ← decryptFile with
    | none => pure (.error, [])
    | some text => pure (.encrypted, text)
  | some false =>
    match ← fileExists .plain with
    | none => pure (.error, [])
    | some false =>
      match ← fileExists .bak with
      | some false => pure (.missing, [])
      | _ => pure (.error, [])
    | some true =>
      match ← readBytes .plain with
      | none => pure (.error, [])
      | some text => pure (.plaintext, text)

/-- A file that is read and compared. -/
def readsAs (file : File) (expected : Bytes) : Program Bool := do
  match ← readBytes file with
  | none => pure false
  | some bytes => pure (bytes == expected)

/-- The backup of `MigratePlaintextFile`: one that is there must be the same. -/
def keepBackup (current : Bytes) : Program Bool := do
  match ← fileExists .bak with
  | none => pure false
  | some true => readsAs .bak current
  | some false =>
    if ← copyBackup then
      if ← flushBackup then readsAs .bak current else pure false
    else pure false

/-- The end of `MigratePlaintextFile`, with the source held open. -/
def finishMigration (text : Bytes) : Program Bool := do
  if ← readsAs .plain text then
    if ← encryptAndWrite text then
      if ← readsAs .plain text then removePlain else pure false
    else pure false
  else pure false

/-- **`MigratePlaintextFile`.** -/
def migratePlaintextFile (text : Bytes) : Program Bool := do
  if ← lockProtectedFile then
    match ← fileExists .enc with
    | some false =>
      if ← readsAs .plain text then
        if ← keepBackup text then finishMigration text else pure false
      else pure false
    | _ => pure false
  else pure false

/-- The plain file of `PrepareProtectedWrite`: it goes when it is the backup. -/
def removeMigrated : Program Bool := do
  match ← readBytes .bak with
  | none => pure false
  | some backedUp =>
    if ← readsAs .plain backedUp then removePlain else pure false

/-- An encrypted file that is there can be decrypted. -/
def readable (enc : Bool) : Program Bool :=
  if enc then decryptFile >>= fun text => pure text.isSome else pure true

/-- `PrepareProtectedWrite`, once it is known which files there are. -/
def prepareExisting (plain enc bak : Bool) : Program Bool :=
  if bak && !enc then pure false
  else do
    if ← readable enc then
      if plain then if !enc || !bak then pure false else removeMigrated
      else pure true
    else pure false

/-- **`PrepareProtectedWrite`.** -/
def prepareProtectedWrite : Program Bool := do
  match ← fileExists .plain with
  | none => pure false
  | some plain =>
    match ← fileExists .enc with
    | none => pure false
    | some enc =>
      match ← fileExists .bak with
      | none => pure false
      | some bak => prepareExisting plain enc bak

/-- **`WriteProtectedText`.** -/
def writeProtectedText (text : Bytes) : Program Bool := do
  if ← lockProtectedFile then
    if ← prepareProtectedWrite then encryptAndWrite text else pure false
  else pure false

/-- **`SettleProtectedFile`.** -/
def settleProtectedFile : Program Bool := do
  if ← lockProtectedFile then prepareProtectedWrite else pure false

/-! ## What the functions do when anything may fail -/

/-- **The encrypted file holds a text.** -/
def ByteCrypto.Holds (crypto : ByteCrypto) (s : Files) (text : Bytes) : Prop :=
  ∃ cipher, s.enc = some cipher ∧ crypto.decrypt cipher = some text

section MayFail

variable {crypto : ByteCrypto} {I : Files → Prop} {s : Files}

/-- The lock. -/
theorem safe_lock (hI : I s) :
    Safe (mayFail crypto) I (fun _ s' => s' = s) lockProtectedFile s :=
  .ask hI (fun _ s' (h : s' = s) => ⟨h ▸ hI, h⟩)

/-- Whether there is a file. -/
theorem safe_exists (file : File) (hI : I s) :
    Safe (mayFail crypto) I (fun answer s' => s' = s ∧ ∀ b ∈ answer, b = (s.get file).isSome)
      (fileExists file) s := by
  refine .ask hI (fun (answer : Option Bool) s'
    (h : s' = s ∧ (answer = none ∨ answer = some (s.get file).isSome)) => ?_)
  obtain ⟨rfl, h⟩ := h
  refine ⟨hI, rfl, fun b hb => ?_⟩
  rcases h with rfl | rfl
  · cases hb
  · exact (Option.some.inj hb).symm

/-- What a file holds. -/
theorem safe_read (file : File) (hI : I s) :
    Safe (mayFail crypto) I (fun answer s' => s' = s ∧ ∀ bytes ∈ answer, s.get file = some bytes)
      (readBytes file) s := by
  refine .ask hI (fun (answer : Option Bytes) s'
    (h : s' = s ∧ (answer = none ∨ answer = s.get file)) => ?_)
  obtain ⟨rfl, h⟩ := h
  refine ⟨hI, rfl, fun bytes hbytes => ?_⟩
  rcases h with rfl | rfl
  · cases hbytes
  · exact hbytes

/-- A file that is read and compared. -/
theorem safe_readsAs (file : File) (expected : Bytes) (hI : I s) :
    Safe (mayFail crypto) I (fun ok s' => s' = s ∧ (ok = true → s.get file = some expected))
      (readsAs file expected) s := by
  refine (safe_read file hI).bind (fun answer s' hI' h => ?_)
  obtain ⟨rfl, h⟩ := h
  cases answer with
  | none => exact .pure hI' ⟨rfl, fun h => absurd h Bool.false_ne_true⟩
  | some bytes =>
    refine .pure hI' ⟨rfl, fun heq => ?_⟩
    rw [h bytes rfl, eq_of_beq heq]

/-- The encrypted file is decrypted. -/
theorem safe_decryptFile (hI : I s) :
    Safe (mayFail crypto) I (fun answer s' => s' = s ∧ ∀ text ∈ answer, crypto.Holds s text)
      decryptFile s := by
  refine (safe_read .enc hI).bind (fun answer s' hI' h => ?_)
  obtain ⟨rfl, h⟩ := h
  cases answer with
  | none => exact .pure hI' ⟨rfl, fun _ h => by cases h⟩
  | some cipher =>
    refine .ask hI' (fun (answer : Option Bytes) s''
      (h' : s'' = s' ∧ (answer = none ∨ answer = crypto.decrypt cipher)) => ?_)
    obtain ⟨rfl, h'⟩ := h'
    refine ⟨hI', rfl, fun text htext => ⟨cipher, h cipher rfl, ?_⟩⟩
    rcases h' with rfl | rfl
    · cases htext
    · exact htext

/-- **`EncryptAndWrite`** leaves the encrypted file alone, or it holds the text. -/
theorem safe_encryptAndWrite {text : Bytes} (hI : I s)
    (hwritten : ∀ cipher, crypto.decrypt cipher = some text → I { s with enc := some cipher }) :
    Safe (mayFail crypto) I (fun ok s' => (ok = false ∧ s' = s)
        ∨ ∃ cipher, crypto.decrypt cipher = some text ∧ s' = { s with enc := some cipher })
      (encryptAndWrite text) s := by
  refine Safe.bind (Q := fun (answer : Option Bytes) s' =>
    s' = s ∧ ∀ cipher ∈ answer, crypto.Encrypts text cipher)
    (.ask hI (fun _ s' h => ⟨h.1 ▸ hI, h⟩)) (fun answer s' hI' h => ?_)
  obtain ⟨rfl, h⟩ := h
  cases answer with
  | none => exact .pure hI' (Or.inl ⟨rfl, rfl⟩)
  | some cipher =>
    have hcipher := crypto.inverse (h cipher rfl)
    dsimp only
    split
    · exact .pure hI' (Or.inl ⟨rfl, rfl⟩)
    · refine .ask hI' (fun (ok : Bool) s'' (h' : (ok = true ∧ s'' = { s' with enc := some cipher })
        ∨ (ok = false ∧ s'' = s')) => ?_)
      rcases h' with ⟨rfl, rfl⟩ | ⟨rfl, rfl⟩
      · exact ⟨hwritten cipher hcipher, Or.inr ⟨cipher, hcipher, rfl⟩⟩
      · exact ⟨hI', Or.inl ⟨rfl, rfl⟩⟩

/-- The plain file is removed. -/
theorem safe_removePlain (hI : I s) (hremoved : I { s with plain := none }) :
    Safe (mayFail crypto) I (fun ok s' => (ok = true ∧ s' = { s with plain := none })
      ∨ (ok = false ∧ s' = s)) removePlain s := by
  refine .ask hI (fun (ok : Bool) s' (h : (ok = true ∧ s.plain.isSome = true
    ∧ s' = { s with plain := none }) ∨ (ok = false ∧ s' = s)) => ?_)
  rcases h with ⟨rfl, -, rfl⟩ | ⟨rfl, rfl⟩
  · exact ⟨hremoved, Or.inl ⟨rfl, rfl⟩⟩
  · exact ⟨hI, Or.inr ⟨rfl, rfl⟩⟩

/-- A backup that is read and compared. -/
theorem safe_readBackup {current : Bytes} {bak : Option Bytes} (hI : I { s with bak := bak }) :
    Safe (mayFail crypto) I (fun ok s' => ∃ bak, s' = { s with bak := bak }
      ∧ (ok = true → bak = some current)) (readsAs .bak current) { s with bak := bak } :=
  (safe_readsAs .bak current hI).imp (fun _ _ _ h => ⟨bak, h.1, h.2⟩)

/-- **The backup** is the only file that is touched. -/
theorem safe_keepBackup {current : Bytes} (hI : ∀ bak, I { s with bak := bak }) :
    Safe (mayFail crypto) I (fun ok s' => ∃ bak, s' = { s with bak := bak }
      ∧ (ok = true → bak = some current)) (keepBackup current) s := by
  have hfalse : ∀ bak, Safe (mayFail crypto) I (fun ok s' => ∃ bak, s' = { s with bak := bak }
      ∧ (ok = true → bak = some current)) (pure false : Program Bool) { s with bak := bak } :=
    fun bak => .pure (hI bak) ⟨bak, rfl, fun h => absurd h Bool.false_ne_true⟩
  refine (safe_exists .bak (hI s.bak)).bind (fun answer s' hI' h => ?_)
  obtain ⟨rfl, -⟩ := h
  cases answer with
  | none => exact hfalse s.bak
  | some there =>
    cases there with
    | true => exact safe_readBackup (hI s.bak)
    | false =>
      refine Safe.bind (Q := fun (_ : Bool) s'' => ∃ bak, s'' = { s with bak := bak })
        (.ask hI' (fun (ok : Bool) s'' h => ?_)) (fun ok s'' _ h => ?_)
      · rcases h with ⟨rfl, -, -, rfl⟩ | ⟨rfl, rfl | ⟨-, part, rfl⟩⟩
        · exact ⟨hI _, _, rfl⟩
        · exact ⟨hI', s.bak, rfl⟩
        · exact ⟨hI _, _, rfl⟩
      · obtain ⟨bak, rfl⟩ := h
        cases ok with
        | false => exact hfalse bak
        | true =>
          refine Safe.bind (Q := fun (_ : Bool) s'' => s'' = { s with bak := bak })
            (.ask (hI bak) (fun _ s'' (h : s'' = _) => ⟨h ▸ hI bak, h⟩)) (fun ok s'' _ h => ?_)
          rw [h]
          cases ok with
          | false => exact hfalse bak
          | true => exact safe_readBackup (hI bak)

/-- The end of the migration. -/
theorem safe_finishMigration {text : Bytes} (hI : I s)
    (hwritten : ∀ cipher, crypto.decrypt cipher = some text →
      I { s with enc := some cipher } ∧ I { s with plain := none, enc := some cipher }) :
    Safe (mayFail crypto) I (fun ok s' => ok = true → crypto.Holds s' text ∧ s'.plain = none)
      (finishMigration text) s := by
  have hfalse : ∀ s', I s' → Safe (mayFail crypto) I
      (fun ok s' => ok = true → crypto.Holds s' text ∧ s'.plain = none) (pure false : Program Bool) s' :=
    fun s' hI => .pure hI (fun h => absurd h Bool.false_ne_true)
  refine (safe_readsAs .plain text hI).bind (fun ok s' _ h => ?_)
  rw [h.1]
  cases ok with
  | false => exact hfalse s hI
  | true =>
    refine (safe_encryptAndWrite hI (fun cipher hcipher => (hwritten cipher hcipher).1)).bind
      (fun ok s₁ hI₁ h₁ => ?_)
    cases ok with
    | false => exact hfalse s₁ hI₁
    | true =>
      rcases h₁ with ⟨hno, -⟩ | ⟨cipher, hcipher, rfl⟩
      · cases hno
      · refine (safe_readsAs .plain text hI₁).bind (fun ok s₂ hI₂ h₂ => ?_)
        rw [h₂.1] at hI₂ ⊢
        cases ok with
        | false => exact hfalse _ hI₂
        | true =>
          refine (safe_removePlain hI₂ (hwritten cipher hcipher).2).imp (fun ok s₃ _ h₃ hok => ?_)
          rcases h₃ with ⟨-, rfl⟩ | ⟨hno, -⟩
          · exact ⟨⟨cipher, rfl, hcipher⟩, rfl⟩
          · rw [hok] at hno
            cases hno

/-- **`MigratePlaintextFile`**: what holds whatever the backup is, and once the
encrypted file is written behind a backup of the text, holds at every
moment. -/
theorem safe_migratePlaintextFile {text : Bytes} (hI : ∀ bak, I { s with bak := bak })
    (hwritten : ∀ cipher, crypto.decrypt cipher = some text →
      I { s with enc := some cipher, bak := some text }
        ∧ I ⟨none, some cipher, some text⟩) :
    Safe (mayFail crypto) I (fun ok s' => ok = true → crypto.Holds s' text ∧ s'.plain = none)
      (migratePlaintextFile text) s := by
  have hfalse : ∀ s', I s' → Safe (mayFail crypto) I
      (fun ok s' => ok = true → crypto.Holds s' text ∧ s'.plain = none) (pure false : Program Bool) s' :=
    fun s' hI => .pure hI (fun h => absurd h Bool.false_ne_true)
  have hs := hI s.bak
  refine (safe_lock hs).bind (fun ok s' _ h => ?_)
  rw [h]
  cases ok with
  | false => exact hfalse s hs
  | true =>
    refine (safe_exists .enc hs).bind (fun answer s' _ h => ?_)
    rw [h.1]
    cases answer with
    | none => exact hfalse s hs
    | some there =>
      cases there with
      | true => exact hfalse s hs
      | false =>
        refine (safe_readsAs .plain text hs).bind (fun ok s' _ h => ?_)
        rw [h.1]
        cases ok with
        | false => exact hfalse s hs
        | true =>
          refine (safe_keepBackup hI).bind (fun ok s' hI' h => ?_)
          obtain ⟨bak, rfl, hbak⟩ := h
          cases ok with
          | false => exact hfalse _ hI'
          | true =>
            obtain rfl := hbak rfl
            exact safe_finishMigration hI' hwritten

/-! ### Writing -/

/-- The plain file is one that a migration has left: it is the backup, and the
encrypted file can be read. -/
def ByteCrypto.Migrated (crypto : ByteCrypto) (s : Files) : Prop :=
  s.plain = s.bak ∧ ∃ text, crypto.Holds s text

/-- **What `PrepareProtectedWrite` leaves**: the files as they are, or without a
plain file that was migrated. -/
def ByteCrypto.Prepared (crypto : ByteCrypto) (s s' : Files) : Prop :=
  s' = s ∨ s' = { s with plain := none } ∧ crypto.Migrated s

/-- The plain file goes, or stays as it is. -/
theorem safe_removeMigrated (henc : ∃ text, crypto.Holds s text) :
    Safe (mayFail crypto) (crypto.Prepared s)
      (fun ok s' => ok = true → s'.plain = none) removeMigrated s := by
  have hfalse : Safe (mayFail crypto)
      (crypto.Prepared s)
      (fun ok s' => ok = true → s'.plain = none) (pure false : Program Bool) s :=
    .pure (Or.inl rfl) (fun h => absurd h Bool.false_ne_true)
  refine (safe_read .bak (Or.inl rfl)).bind (fun answer s' _ h => ?_)
  rw [h.1]
  cases answer with
  | none => exact hfalse
  | some backedUp =>
    refine (safe_readsAs .plain backedUp (Or.inl rfl)).bind (fun ok s' _ h' => ?_)
    rw [h'.1]
    cases ok with
    | false => exact hfalse
    | true =>
      have hsame : s.plain = s.bak := (h'.2 rfl).trans (h.2 backedUp rfl).symm
      refine (safe_removePlain (Or.inl rfl) (Or.inr ⟨rfl, hsame, henc⟩)).imp (fun ok s' _ h hok => ?_)
      rcases h with ⟨-, rfl⟩ | ⟨hno, -⟩
      · rfl
      · rw [hok] at hno
        cases hno

/-- **Files that can be written**: the encrypted file can be read, a plain file was
migrated, and a backup is one of an encrypted file. -/
structure ByteCrypto.Writable (crypto : ByteCrypto) (s : Files) : Prop where
  holds : s.enc ≠ none → ∃ text, crypto.Holds s text
  migrated : s.plain ≠ none → crypto.Migrated s
  enc_ne : s.bak ≠ none → s.enc ≠ none

/-- An encrypted text without a plain file can be written. -/
theorem ByteCrypto.Holds.writable {text : Bytes} (h : crypto.Holds s text)
    (hplain : s.plain ≠ none → s.plain = s.bak) : crypto.Writable s := by
  refine ⟨fun _ => ⟨text, h⟩, fun hsome => ⟨hplain hsome, text, h⟩, fun _ hnone => ?_⟩
  obtain ⟨cipher, hcipher, -⟩ := h
  cases hcipher.symm.trans hnone

/-- What is prepared is as it was, or could be written. -/
theorem ByteCrypto.Prepared.writable {s' : Files} (h : crypto.Prepared s s') :
    s' = s ∨ crypto.Writable s := by
  rcases h with hsame | ⟨-, hsame, text, hholds⟩
  · exact Or.inl hsame
  · exact Or.inr (hholds.writable fun _ => hsame)

/-- Where there is no encrypted file there is nothing else. -/
theorem ByteCrypto.Writable.eq_none (h : crypto.Writable s) (henc : s.enc = none) :
    s = ⟨none, none, none⟩ := by
  have hplain : s.plain = none := by
    by_contra hsome
    obtain ⟨-, text, cipher, hcipher, -⟩ := h.migrated hsome
    cases hcipher.symm.trans henc
  have hbak : s.bak = none := by
    by_contra hsome
    exact h.enc_ne hsome henc
  obtain ⟨plain, enc, bak⟩ := s
  cases hplain
  cases henc
  cases hbak
  rfl

/-- What it has checked when it accepts. -/
def ByteCrypto.Accepted (crypto : ByteCrypto) (s s' : Files) : Prop :=
  s'.plain = none ∧ crypto.Writable s

/-- Whether the encrypted file can be decrypted. -/
theorem safe_readable (hI : I s) : Safe (mayFail crypto) I
    (fun ok s' => s' = s ∧ (ok = true → s.enc ≠ none → ∃ text, crypto.Holds s text))
    (readable s.enc.isSome) s := by
  unfold readable
  split
  · refine (safe_decryptFile hI).bind (fun answer s' hI' h => ?_)
    refine .pure hI' ⟨h.1, fun hsome _ => ?_⟩
    obtain ⟨text, htext⟩ := Option.isSome_iff_exists.mp hsome
    exact ⟨text, h.2 text htext⟩
  · rename_i hnone
    exact .pure hI ⟨rfl, fun _ hsome => absurd (Option.isSome_iff_ne_none.mpr hsome) hnone⟩

/-- `PrepareProtectedWrite` on the files that there are. -/
theorem safe_prepareExisting : Safe (mayFail crypto) (crypto.Prepared s)
    (fun ok s' => ok = true → crypto.Accepted s s')
    (prepareExisting s.plain.isSome s.enc.isSome s.bak.isSome) s := by
  have hfalse : Safe (mayFail crypto) (crypto.Prepared s)
      (fun ok s' => ok = true → crypto.Accepted s s') (pure false : Program Bool) s :=
    .pure (Or.inl rfl) (fun h => absurd h Bool.false_ne_true)
  unfold prepareExisting
  split
  · exact hfalse
  · rename_i hbackup
    have hbak : s.bak ≠ none → s.enc ≠ none := by
      rw [Bool.and_eq_true, not_and, Bool.not_eq_true, Bool.not_eq_false'] at hbackup
      exact fun hsome => Option.isSome_iff_ne_none.mp (hbackup (Option.isSome_iff_ne_none.mpr hsome))
    refine (safe_readable (Or.inl rfl)).bind (fun ok s' _ h => ?_)
    rw [h.1]
    cases ok with
    | false => exact hfalse
    | true =>
      have henc := h.2 rfl
      rw [if_pos rfl]
      split
      · split
        · exact hfalse
        · rename_i hfiles
          rw [Bool.or_eq_true, not_or, Bool.not_eq_true, Bool.not_eq_false'] at hfiles
          have hholds := henc (Option.isSome_iff_ne_none.mp hfiles.1)
          refine (safe_removeMigrated hholds).imp (fun ok s' hI hplain hok => ?_)
          refine ⟨hplain hok, henc, fun hsome => ?_, hbak⟩
          rcases hI with rfl | ⟨-, hmigrated⟩
          · exact absurd (hplain hok) hsome
          · exact hmigrated
      · rename_i hplain
        refine .pure (Or.inl rfl) (fun _ => ?_)
        have hnone : s.plain = none := by simpa using hplain
        exact ⟨hnone, henc, fun hsome => absurd hnone hsome, hbak⟩

/-- **`PrepareProtectedWrite`.** -/
theorem safe_prepareProtectedWrite : Safe (mayFail crypto) (crypto.Prepared s)
    (fun ok s' => ok = true → crypto.Accepted s s') prepareProtectedWrite s := by
  have hfalse : Safe (mayFail crypto) (crypto.Prepared s)
      (fun ok s' => ok = true → crypto.Accepted s s') (pure false : Program Bool) s :=
    .pure (Or.inl rfl) (fun h => absurd h Bool.false_ne_true)
  refine (safe_exists .plain (Or.inl rfl)).bind (fun plain s₁ _ h₁ => ?_)
  rw [h₁.1]
  cases plain with
  | none => exact hfalse
  | some plain =>
    refine (safe_exists .enc (Or.inl rfl)).bind (fun enc s₂ _ h₂ => ?_)
    rw [h₂.1]
    cases enc with
    | none => exact hfalse
    | some enc =>
      refine (safe_exists .bak (Or.inl rfl)).bind (fun bak s₃ _ h₃ => ?_)
      rw [h₃.1]
      cases bak with
      | none => exact hfalse
      | some bak =>
        rw [h₁.2 plain rfl, h₂.2 enc rfl, h₃.2 bak rfl]
        exact safe_prepareExisting

/-- **`WriteProtectedText`.** -/
theorem safe_writeProtectedText (text : Bytes) : Safe (mayFail crypto)
    (fun s' => crypto.Prepared s s' ∨ (∃ s₁, crypto.Prepared s s₁ ∧ crypto.Accepted s s₁
      ∧ ∃ cipher, crypto.decrypt cipher = some text ∧ s' = { s₁ with enc := some cipher }))
    (fun ok s' => ok = true → crypto.Holds s' text ∧ s'.plain = none)
    (writeProtectedText text) s := by
  have hfalse : ∀ s', crypto.Prepared s s' → Safe (mayFail crypto)
      (fun s' => crypto.Prepared s s' ∨ (∃ s₁, crypto.Prepared s s₁ ∧ crypto.Accepted s s₁
        ∧ ∃ cipher, crypto.decrypt cipher = some text ∧ s' = { s₁ with enc := some cipher }))
      (fun ok s' => ok = true → crypto.Holds s' text ∧ s'.plain = none)
      (pure false : Program Bool) s' :=
    fun s' h => .pure (Or.inl h) (fun h => absurd h Bool.false_ne_true)
  refine (safe_lock (Or.inl (Or.inl rfl))).bind (fun ok s' _ h => ?_)
  rw [h]
  cases ok with
  | false => exact hfalse s (Or.inl rfl)
  | true =>
    refine Safe.bind (Q := fun ok s₁ => crypto.Prepared s s₁ ∧ (ok = true → crypto.Accepted s s₁))
      ((safe_prepareProtectedWrite.imp (fun ok s₁ hI hQ => ⟨hI, hQ⟩)).mono (fun _ h => Or.inl h))
      (fun ok s₁ _ h₁ => ?_)
    cases ok with
    | false => exact hfalse s₁ h₁.1
    | true =>
      have haccepted := h₁.2 rfl
      refine (safe_encryptAndWrite (Or.inl h₁.1) (fun cipher hcipher =>
        Or.inr ⟨s₁, h₁.1, haccepted, cipher, hcipher, rfl⟩)).imp (fun ok s₂ _ h₂ hok => ?_)
      rcases h₂ with ⟨hno, -⟩ | ⟨cipher, hcipher, rfl⟩
      · rw [hok] at hno
        cases hno
      · exact ⟨⟨cipher, rfl, hcipher⟩, haccepted.1⟩

/-- A write succeeds only on files that can be written. -/
theorem safe_writeProtectedText_writable (text : Bytes) : Safe (mayFail crypto) (fun _ => True)
    (fun ok _ => ok = true → crypto.Writable s) (writeProtectedText text) s := by
  have hfalse : ∀ s', Safe (mayFail crypto) (fun _ => True)
      (fun ok _ => ok = true → crypto.Writable s) (pure false : Program Bool) s' :=
    fun s' => .pure trivial (fun h => absurd h Bool.false_ne_true)
  refine (safe_lock trivial).bind (fun ok s' _ h => ?_)
  rw [h]
  cases ok with
  | false => exact hfalse s
  | true =>
    refine (safe_prepareProtectedWrite.mono (fun _ _ => trivial)).bind (fun ok s' _ h => ?_)
    cases ok with
    | false => exact hfalse s'
    | true => exact (safe_true _ _).imp (fun _ _ _ _ _ => (h rfl).2)

/-- **`SettleProtectedFile`** succeeds only on such files, and leaves others alone. -/
theorem safe_settleProtectedFile : Safe (mayFail crypto) (fun _ => True)
    (fun ok s' => (ok = true → crypto.Writable s) ∧ crypto.Prepared s s') settleProtectedFile s := by
  refine (safe_lock trivial).bind (fun ok s' _ h => ?_)
  rw [h]
  cases ok with
  | false => exact .pure trivial ⟨fun h => absurd h Bool.false_ne_true, Or.inl rfl⟩
  | true =>
    exact (safe_prepareProtectedWrite.imp (fun _ _ hI h => ⟨fun hok => (h hok).2, hI⟩)).mono
      (fun _ _ => trivial)

/-- **`ReadProtectedText`** misses only what is not there. -/
theorem safe_readProtectedText : Safe (mayFail crypto) (fun _ => True)
    (fun r s' => s' = s ∧ (r.1 = .missing → s = ⟨none, none, none⟩)) readProtectedText s := by
  have hother : ∀ r : ProtectedFileSource × Bytes, r.1 ≠ .missing →
      Safe (mayFail crypto) (fun _ => True)
        (fun r s' => s' = s ∧ (r.1 = .missing → s = ⟨none, none, none⟩)) (pure r : Program _) s :=
    fun r hr => .pure trivial ⟨rfl, fun h => absurd h hr⟩
  refine (safe_exists .enc trivial).bind (fun enc s₁ _ h₁ => ?_)
  rw [h₁.1]
  cases enc with
  | none => exact hother _ (by decide)
  | some enc =>
    cases enc with
    | true =>
      refine (safe_decryptFile trivial).bind (fun answer s₂ _ h₂ => ?_)
      rw [h₂.1]
      cases answer with
      | none => exact hother _ (by decide)
      | some text => exact hother _ (fun h => by cases h)
    | false =>
      refine (safe_exists .plain trivial).bind (fun plain s₂ _ h₂ => ?_)
      rw [h₂.1]
      cases plain with
      | none => exact hother _ (by decide)
      | some plain =>
        cases plain with
        | true =>
          refine (safe_read .plain trivial).bind (fun answer s₃ _ h₃ => ?_)
          rw [h₃.1]
          cases answer with
          | none => exact hother _ (by decide)
          | some text => exact hother _ (fun h => by cases h)
        | false =>
          refine (safe_exists .bak trivial).bind (fun bak s₃ _ h₃ => ?_)
          rw [h₃.1]
          cases bak with
          | none => exact hother _ (by decide)
          | some bak =>
            cases bak with
            | true => exact hother _ (by decide)
            | false =>
              refine .pure trivial ⟨rfl, fun _ => ?_⟩
              have henc := Option.isSome_eq_false_iff.mp (h₁.2 false rfl).symm
              have hplain := Option.isSome_eq_false_iff.mp (h₂.2 false rfl).symm
              have hbak := Option.isSome_eq_false_iff.mp (h₃.2 false rfl).symm
              rw [Option.isNone_iff_eq_none] at henc hplain hbak
              obtain ⟨plain, enc, bak⟩ := s
              cases henc
              cases hplain
              cases hbak
              rfl

/-- **What `ReadProtectedText` reads** is what one of the files holds. -/
theorem safe_readProtectedText_text : Safe (mayFail crypto) (fun _ => True)
    (fun r s' => s' = s ∧ (r.1 = .encrypted → crypto.Holds s r.2)
      ∧ (r.1 = .plaintext → s.enc = none ∧ s.plain = some r.2)) readProtectedText s := by
  have hother : ∀ r : ProtectedFileSource × Bytes, r.1 ≠ .encrypted → r.1 ≠ .plaintext →
      Safe (mayFail crypto) (fun _ => True)
        (fun r s' => s' = s ∧ (r.1 = .encrypted → crypto.Holds s r.2)
          ∧ (r.1 = .plaintext → s.enc = none ∧ s.plain = some r.2)) (pure r : Program _) s :=
    fun r he hp => .pure trivial ⟨rfl, fun h => absurd h he, fun h => absurd h hp⟩
  refine (safe_exists .enc trivial).bind (fun enc s₁ _ h₁ => ?_)
  rw [h₁.1]
  cases enc with
  | none => exact hother _ (by decide) (by decide)
  | some enc =>
    cases enc with
    | true =>
      refine (safe_decryptFile trivial).bind (fun answer s₂ _ h₂ => ?_)
      rw [h₂.1]
      cases answer with
      | none => exact hother _ (by decide) (by decide)
      | some text => exact .pure trivial ⟨rfl, fun _ => h₂.2 text rfl, nofun⟩
    | false =>
      have henc : s.enc = none :=
        Option.isNone_iff_eq_none.mp (Option.isSome_eq_false_iff.mp (h₁.2 false rfl).symm)
      refine (safe_exists .plain trivial).bind (fun plain s₂ _ h₂ => ?_)
      rw [h₂.1]
      cases plain with
      | none => exact hother _ (by decide) (by decide)
      | some plain =>
        cases plain with
        | true =>
          refine (safe_read .plain trivial).bind (fun answer s₃ _ h₃ => ?_)
          rw [h₃.1]
          cases answer with
          | none => exact hother _ (by decide) (by decide)
          | some text => exact .pure trivial ⟨rfl, nofun, fun _ => ⟨henc, h₃.2 text rfl⟩⟩
        | false =>
          refine (safe_exists .bak trivial).bind (fun bak s₃ _ h₃ => ?_)
          rw [h₃.1]
          cases bak with
          | none => exact hother _ (by decide) (by decide)
          | some bak => cases bak <;> exact hother _ (by decide) (by decide)

end MayFail

/-- An encrypted file that cannot be decrypted. -/
def ByteCrypto.Unreadable (crypto : ByteCrypto) (s : Files) : Prop :=
  s.enc ≠ none ∧ ¬ ∃ text, crypto.Holds s text

/-- A plain file that was never migrated. -/
def Files.Unmigrated (s : Files) : Prop := s.plain ≠ none ∧ (s.enc = none ∨ s.bak = none)

/-- A file that was migrated has a backup and can be read. -/
theorem not_migrated {crypto : ByteCrypto} {s : Files}
    (h : crypto.Unreadable s ∨ s.Unmigrated) : ¬ crypto.Migrated s := by
  rintro ⟨hsame, text, hholds⟩
  rcases h with ⟨-, hno⟩ | ⟨hplain, hnone⟩
  · exact hno ⟨text, hholds⟩
  · rcases hnone with henc | hbak
    · obtain ⟨cipher, hcipher, -⟩ := hholds
      rw [henc] at hcipher
      cases hcipher
    · exact hplain (hsame.trans hbak)

/-- What is not readable, or was not migrated, is not accepted. -/
theorem not_accepted {crypto : ByteCrypto} {s s' : Files}
    (h : crypto.Unreadable s ∨ s.Unmigrated) : ¬ crypto.Accepted s s' := by
  rintro ⟨-, henc, hplain, -⟩
  rcases h with ⟨hsome, hno⟩ | hunmigrated
  · exact hno (henc hsome)
  · exact not_migrated (Or.inr hunmigrated) (hplain hunmigrated.1)

/-- **No failure and no stop loses the text of a store**: during a migration it
is at every moment in the plain file or in the encrypted one; a write leaves
the encrypted file as it was or with the new text, removes the plain file only
when it was migrated, and touches nothing when the encrypted file cannot be
read or the plain one was never migrated; and a store is missing only when
none of its files is there. -/
theorem protectedFiles_kept (crypto : ByteCrypto) :
    (∀ (text : Bytes) (s : Files) (trace : List Files) (r : Option Bool), s.plain = some text →
      Runs (mayFail crypto) (migratePlaintextFile text) s trace r →
        (∀ s' ∈ trace, s'.plain = some text ∨ crypto.Holds s' text)
          ∧ (r = some true → ∀ s' ∈ trace.getLast?, crypto.Holds s' text ∧ s'.plain = none))
    ∧ (∀ (text : Bytes) (s : Files) (trace : List Files) (r : Option Bool),
      Runs (mayFail crypto) (writeProtectedText text) s trace r →
        (∀ s' ∈ trace, (s'.enc = s.enc ∨ crypto.Holds s' text) ∧ s'.bak = s.bak
          ∧ (s'.plain = s.plain ∨ s'.plain = none ∧ crypto.Migrated s)
          ∧ (crypto.Unreadable s ∨ s.Unmigrated → s' = s))
          ∧ (r = some true → ∀ s' ∈ trace.getLast?, crypto.Holds s' text ∧ s'.plain = none))
    ∧ ∀ (s : Files) (trace : List Files) (r : ProtectedFileSource × Bytes),
      Runs (mayFail crypto) readProtectedText s trace (some r) → r.1 = .missing →
        s = ⟨none, none, none⟩ := by
  refine ⟨fun text s trace r hplain hruns => ?_, fun text s trace r hruns => ?_,
    fun s trace r hruns hmissing => ?_⟩
  · have hsafe : Safe (mayFail crypto) (fun s' => s'.plain = some text ∨ crypto.Holds s' text)
        (fun ok s' => ok = true → crypto.Holds s' text ∧ s'.plain = none)
        (migratePlaintextFile text) s :=
      safe_migratePlaintextFile (fun _ => Or.inl hplain)
        (fun cipher hcipher => ⟨Or.inl hplain, Or.inr ⟨cipher, rfl, hcipher⟩⟩)
    exact ⟨(hsafe.runs hruns).1, hsafe.succeeds hruns⟩
  · refine ⟨fun s' hs' => ?_, (safe_writeProtectedText text).succeeds hruns⟩
    rcases ((safe_writeProtectedText text).runs hruns).1 s' hs' with
      (rfl | ⟨rfl, hmigrated⟩) | ⟨s₁, hprepared, haccepted, cipher, hcipher, rfl⟩
    · exact ⟨Or.inl rfl, rfl, Or.inl rfl, fun _ => rfl⟩
    · exact ⟨Or.inl rfl, rfl, Or.inr ⟨rfl, hmigrated⟩, fun h => absurd hmigrated (not_migrated h)⟩
    · have hholds : crypto.Holds { s₁ with enc := some cipher } text := ⟨cipher, rfl, hcipher⟩
      refine ⟨Or.inr hholds, ?_, ?_, fun h => absurd haccepted (not_accepted h)⟩
      · rcases hprepared with rfl | ⟨rfl, -⟩ <;> rfl
      · rcases hprepared with rfl | ⟨rfl, hmigrated⟩
        · exact Or.inl rfl
        · exact Or.inr ⟨rfl, hmigrated⟩
  · obtain ⟨-, hresult⟩ := safe_readProtectedText.runs hruns
    obtain ⟨last, -, -, h⟩ := hresult r rfl
    exact h hmissing

/-! ## Recovery -/

/-- **A later attempt, in which nothing fails, succeeds**: it ends, and it can
end in no other way. -/
def ByteCrypto.Succeeds (crypto : ByteCrypto) (p : Program Bool) (s : Files) : Prop :=
  (∃ trace r, Runs (neverFails crypto) p s trace (some r))
    ∧ ∀ trace r, Runs (neverFails crypto) p s trace (some r) → r = true

/-- **The store recovers**: the migration succeeds, or it had written the text
and the store settles. -/
def ByteCrypto.Recovers (crypto : ByteCrypto) (text : Bytes) (s : Files) : Prop :=
  crypto.Succeeds (migratePlaintextFile text) s
    ∨ crypto.Holds s text ∧ crypto.Succeeds settleProtectedFile s

/-- When nothing fails every operation is answered. -/
theorem neverFails_total (crypto : ByteCrypto) (op : Op) (s : Files) :
    ∃ answer s', neverFails crypto op s answer s' := by
  cases op with
  | lock => exact ⟨true, s, rfl, rfl⟩
  | exists_ file => exact ⟨some (s.get file).isSome, s, rfl, rfl⟩
  | read file => exact ⟨s.get file, s, rfl, rfl⟩
  | copyBackup =>
    by_cases h : s.plain.isSome = true ∧ s.bak = none
    · exact ⟨true, { s with bak := s.plain }, by rw [neverFails, if_pos h]; exact ⟨rfl, rfl⟩⟩
    · exact ⟨false, s, by rw [neverFails, if_neg h]; exact ⟨rfl, rfl⟩⟩
  | flushBackup => exact ⟨true, s, rfl, rfl⟩
  | encrypt text =>
    obtain ⟨cipher, hcipher, hne⟩ := crypto.total text
    exact ⟨some cipher, s, rfl, cipher, rfl, hcipher, hne⟩
  | decrypt cipher => exact ⟨crypto.decrypt cipher, s, rfl, rfl⟩
  | writeEncrypted cipher => exact ⟨true, { s with enc := some cipher }, rfl, rfl⟩
  | removePlain =>
    by_cases h : s.plain.isSome = true
    · exact ⟨true, { s with plain := none }, by rw [neverFails, if_pos h]; exact ⟨rfl, rfl⟩⟩
    · exact ⟨false, s, by rw [neverFails, if_neg h]; exact ⟨rfl, rfl⟩⟩

section NeverFails

variable {crypto : ByteCrypto} {s : Files} {Q : Bool → Files → Prop}

/-- An attempt that can only end well succeeds. -/
theorem succeeds_of_safe {p : Program Bool}
    (h : Safe (neverFails crypto) (fun _ => True) (fun ok _ => ok = true) p s) :
    crypto.Succeeds p s := by
  refine ⟨exists_runs (neverFails_total crypto) p s, fun trace r hruns => ?_⟩
  obtain ⟨last, -, hr⟩ := (h.runs hruns).2 r rfl
  exact hr

/-- An attempt that can only end badly does not. -/
theorem not_succeeds_of_safe {p : Program Bool}
    (h : Safe (neverFails crypto) (fun _ => True) (fun ok _ => ok = false) p s) :
    ¬ crypto.Succeeds p s := by
  rintro ⟨⟨trace, r, hruns⟩, hall⟩
  obtain ⟨last, -, hr⟩ := (h.runs hruns).2 r rfl
  rw [hall trace r hruns] at hr
  cases hr

/-- The lock is taken. -/
theorem calm_lock : Safe (neverFails crypto) (fun _ => True) (fun ok s' => ok = true ∧ s' = s)
    lockProtectedFile s :=
  .ask trivial (fun _ _ h => ⟨trivial, h⟩)

/-- Whether there is a file. -/
theorem calm_exists (file : File) : Safe (neverFails crypto) (fun _ => True)
    (fun answer s' => s' = s ∧ answer = some (s.get file).isSome) (fileExists file) s :=
  .ask trivial (fun _ _ h => ⟨trivial, h⟩)

/-- What a file holds. -/
theorem calm_read (file : File) : Safe (neverFails crypto) (fun _ => True)
    (fun answer s' => s' = s ∧ answer = s.get file) (readBytes file) s :=
  .ask trivial (fun _ _ h => ⟨trivial, h⟩)

/-- A file that is read and compared. -/
theorem calm_readsAs {file : File} {bytes : Bytes} (hfile : s.get file = some bytes)
    (expected : Bytes) : Safe (neverFails crypto) (fun _ => True)
      (fun ok s' => s' = s ∧ ok = (bytes == expected)) (readsAs file expected) s := by
  refine (calm_read file).bind (fun answer s' _ h => ?_)
  rw [h.1, h.2, hfile]
  exact .pure trivial ⟨rfl, rfl⟩

/-- The encrypted file is decrypted. -/
theorem calm_decryptFile {text : Bytes} (h : crypto.Holds s text) : Safe (neverFails crypto)
    (fun _ => True) (fun answer s' => s' = s ∧ answer = some text) decryptFile s := by
  obtain ⟨cipher, henc, hdecrypt⟩ := h
  refine (calm_read .enc).bind (fun answer s' _ h => ?_)
  rw [h.1, h.2, show s.get .enc = some cipher from henc]
  refine .ask trivial (fun answer s'' (h : s'' = s ∧ answer = crypto.decrypt cipher) => ⟨trivial, h.1, ?_⟩)
  rw [h.2, hdecrypt]

/-- The text is encrypted and written. -/
theorem calm_encryptAndWrite (text : Bytes) : Safe (neverFails crypto) (fun _ => True)
    (fun ok s' => ok = true ∧ ∃ cipher, s' = { s with enc := some cipher }) (encryptAndWrite text) s := by
  refine Safe.bind (Q := fun (answer : Option Bytes) s' =>
    s' = s ∧ ∃ cipher, answer = some cipher ∧ crypto.Encrypts text cipher ∧ cipher ≠ [])
    (.ask trivial (fun _ _ h => ⟨trivial, h⟩)) (fun answer s' _ h => ?_)
  obtain ⟨rfl, cipher, rfl, -, hne⟩ := h
  dsimp only
  rw [if_neg hne]
  exact .ask trivial (fun ok s'' h => ⟨trivial, h.1, cipher, h.2⟩)

/-- The plain file is removed. -/
theorem calm_removePlain {text : Bytes} (h : s.plain = some text) : Safe (neverFails crypto)
    (fun _ => True) (fun ok s' => ok = true ∧ s' = { s with plain := none }) removePlain s := by
  refine .ask trivial (fun ok s' heffect => ⟨trivial, ?_⟩)
  change if s.plain.isSome = true then ok = true ∧ s' = { s with plain := none } else _ at heffect
  rw [if_pos (by rw [h]; rfl)] at heffect
  exact heffect

/-- **The backup is made, or found**: a file that holds something else stays and
stops the migration. -/
theorem calm_keepBackup {text : Bytes} (hplain : s.plain = some text) : Safe (neverFails crypto)
    (fun _ => True) (fun ok s' => (s.bak = none ∨ s.bak = some text →
        ok = true ∧ s' = { s with bak := some text })
      ∧ ∀ other, s.bak = some other → other ≠ text → ok = false) (keepBackup text) s := by
  refine (calm_exists .bak).bind (fun answer s' _ h => ?_)
  rw [h.1, h.2]
  cases hbak : s.bak with
  | some other =>
    rw [show s.get .bak = some other from hbak, Option.isSome_some]
    refine (calm_readsAs (show s.get .bak = some other from hbak) text).imp (fun ok s' _ h => ?_)
    obtain ⟨rfl, rfl⟩ := h
    refine ⟨fun hor => ?_, fun other' heq hne => ?_⟩
    · obtain rfl : other = text := Option.some.inj (hor.resolve_left (by simp))
      refine ⟨beq_self_eq_true _, ?_⟩
      rw [← hbak]
    · obtain rfl := Option.some.inj heq
      exact beq_false_of_ne hne
  | none =>
    rw [show s.get .bak = none from hbak, Option.isSome_none]
    refine Safe.bind (Q := fun (ok : Bool) s' => ok = true ∧ s' = { s with bak := some text })
      (.ask trivial (fun ok s' heffect => ⟨trivial, ?_⟩)) (fun ok s' _ h => ?_)
    · change if s.plain.isSome = true ∧ s.bak = none then
        ok = true ∧ s' = { s with bak := s.plain } else _ at heffect
      rw [if_pos ⟨by rw [hplain]; rfl, hbak⟩] at heffect
      refine ⟨heffect.1, heffect.2.trans ?_⟩
      rw [hplain]
    · obtain ⟨rfl, rfl⟩ := h
      refine Safe.bind (Q := fun (ok : Bool) s' => ok = true ∧ s' = { s with bak := some text })
        (.ask trivial (fun ok s' h => ⟨trivial, h⟩)) (fun ok s' _ h => ?_)
      obtain ⟨rfl, rfl⟩ := h
      refine (calm_readsAs (show Files.get { s with bak := some text } .bak = some text from rfl)
        text).imp (fun ok s' _ h => ?_)
      obtain ⟨rfl, rfl⟩ := h
      exact ⟨fun _ => ⟨beq_self_eq_true _, rfl⟩, fun other heq => by cases heq⟩

/-- **A migration in which nothing fails** succeeds, unless there is a backup of
something else. -/
theorem calm_migratePlaintextFile {text : Bytes} (hplain : s.plain = some text) (henc : s.enc = none) :
    Safe (neverFails crypto) (fun _ => True)
      (fun ok _ => (s.bak = none ∨ s.bak = some text → ok = true)
        ∧ ∀ other, s.bak = some other → other ≠ text → ok = false) (migratePlaintextFile text) s := by
  refine calm_lock.bind (fun ok s₁ _ h => ?_)
  rw [h.1, h.2, if_pos rfl]
  refine (calm_exists .enc).bind (fun answer s₁ _ h => ?_)
  rw [h.1, h.2, show s.get .enc = none from henc, Option.isSome_none]
  refine (calm_readsAs (show s.get .plain = some text from hplain) text).bind (fun ok s₁ _ h => ?_)
  rw [h.1, h.2, beq_self_eq_true, if_pos rfl]
  refine (calm_keepBackup hplain).bind (fun ok s₁ _ h => ?_)
  cases ok with
  | false =>
    exact .pure trivial ⟨fun hbak => absurd (h.1 hbak).1 Bool.false_ne_true, fun _ _ _ => rfl⟩
  | true =>
    have hbad : ∀ other, s.bak = some other → other ≠ text → False :=
      fun other hbak hne => by cases h.2 other hbak hne
    have hbak : s.bak = none ∨ s.bak = some text := by
      cases hbak : s.bak with
      | none => exact Or.inl rfl
      | some other => exact Or.inr (by rw [not_not.mp (fun hne => hbad other hbak hne)])
    rw [(h.1 hbak).2, if_pos rfl]
    refine Safe.imp (Q := fun ok _ => ok = true) ?_
      (fun ok _ _ hok => ⟨fun _ => hok, fun other hother hne => (hbad other hother hne).elim⟩)
    refine (calm_readsAs (show Files.get { s with bak := some text } .plain = some text from hplain)
      text).bind (fun ok s₂ _ h₂ => ?_)
    rw [h₂.1, h₂.2, beq_self_eq_true, if_pos rfl]
    refine (calm_encryptAndWrite text).bind (fun ok s₃ _ h₃ => ?_)
    obtain ⟨rfl, cipher, rfl⟩ := h₃
    rw [if_pos rfl]
    refine (calm_readsAs (show Files.get { s with enc := some cipher, bak := some text } .plain
      = some text from hplain) text).bind (fun ok s₄ _ h₄ => ?_)
    rw [h₄.1, h₄.2, beq_self_eq_true, if_pos rfl]
    have hkept : Files.plain { s with enc := some cipher, bak := some text } = some text := hplain
    exact (calm_removePlain hkept).imp (fun ok _ _ h => h.1)

/-- An encrypted file that is there is read. -/
theorem calm_readable (h : crypto.Writable s) : Safe (neverFails crypto) (fun _ => True)
    (fun ok s' => ok = true ∧ s' = s) (readable s.enc.isSome) s := by
  unfold readable
  split
  · rename_i henc
    obtain ⟨text, hholds⟩ := h.holds (Option.isSome_iff_ne_none.mp henc)
    refine (calm_decryptFile hholds).bind (fun answer s' _ h => ?_)
    rw [h.2]
    exact .pure trivial ⟨rfl, h.1⟩
  · exact .pure trivial ⟨rfl, rfl⟩

/-- The plain file that was migrated goes. -/
theorem calm_prepareExisting (h : crypto.Writable s) : Safe (neverFails crypto) (fun _ => True)
    (fun ok s' => ok = true ∧ s' = { s with plain := none })
    (prepareExisting s.plain.isSome s.enc.isSome s.bak.isSome) s := by
  unfold prepareExisting
  have hbackup : ¬ (s.bak.isSome && !s.enc.isSome) = true := by
    rw [Bool.and_eq_true, not_and, Bool.not_eq_true, Bool.not_eq_false']
    exact fun hsome => Option.isSome_iff_ne_none.mpr (h.enc_ne (Option.isSome_iff_ne_none.mp hsome))
  rw [if_neg hbackup]
  refine (calm_readable h).bind (fun ok s' _ hread => ?_)
  rw [hread.1, hread.2, if_pos rfl]
  cases hplain : s.plain with
  | none =>
    refine .pure trivial ⟨rfl, ?_⟩
    rw [← hplain]
  | some text =>
    obtain ⟨hsame, other, cipher, hcipher, -⟩ := h.migrated (by rw [hplain]; exact nofun)
    have hbak : s.bak = some text := hsame.symm.trans hplain
    rw [show s.enc.isSome = true by rw [hcipher]; rfl, show s.bak.isSome = true by rw [hbak]; rfl,
      Option.isSome_some, if_pos rfl, if_neg (by decide)]
    refine (calm_read .bak).bind (fun answer s' _ hread => ?_)
    rw [hread.1, hread.2, show s.get .bak = some text from hbak]
    refine (calm_readsAs (show s.get .plain = some text from hplain) text).bind
      (fun ok s' _ hread => ?_)
    rw [hread.1, hread.2, beq_self_eq_true, if_pos rfl]
    exact calm_removePlain hplain

/-- **Files that can be written are prepared.** -/
theorem calm_prepareProtectedWrite (h : crypto.Writable s) : Safe (neverFails crypto)
    (fun _ => True) (fun ok s' => ok = true ∧ s' = { s with plain := none })
    prepareProtectedWrite s := by
  refine (calm_exists .plain).bind (fun answer s' _ hplain => ?_)
  rw [hplain.1, hplain.2]
  refine (calm_exists .enc).bind (fun answer s' _ henc => ?_)
  rw [henc.1, henc.2]
  refine (calm_exists .bak).bind (fun answer s' _ hbak => ?_)
  rw [hbak.1, hbak.2]
  exact calm_prepareExisting h

/-- **They settle.** -/
theorem calm_settleProtectedFile (h : crypto.Writable s) : Safe (neverFails crypto)
    (fun _ => True) (fun ok s' => ok = true ∧ s' = { s with plain := none })
    settleProtectedFile s := by
  refine calm_lock.bind (fun ok s' _ hlock => ?_)
  rw [hlock.1, hlock.2, if_pos rfl]
  exact calm_prepareProtectedWrite h

/-- **They are written.** -/
theorem calm_writeProtectedText (h : crypto.Writable s) (text : Bytes) : Safe (neverFails crypto)
    (fun _ => True) (fun ok _ => ok = true) (writeProtectedText text) s := by
  refine calm_lock.bind (fun ok s' _ hlock => ?_)
  rw [hlock.1, hlock.2, if_pos rfl]
  refine (calm_prepareProtectedWrite h).bind (fun ok s' _ hprepared => ?_)
  rw [hprepared.1, if_pos rfl]
  exact (calm_encryptAndWrite text).imp (fun ok _ _ hwritten => hwritten.1)

end NeverFails

/-- **What a migration can leave behind**: the plain file and some backup, or the
encrypted text behind a whole backup. -/
def ByteCrypto.Left (crypto : ByteCrypto) (text : Bytes) (s : Files) : Prop :=
  (s.plain = some text ∧ s.enc = none)
    ∨ (crypto.Holds s text ∧ s.bak = some text ∧ (s.plain = some text ∨ s.plain = none))

/-- A migration of a file that was never migrated leaves nothing else. -/
theorem left_of_runs {crypto : ByteCrypto} {text : Bytes} {trace : List Files} {r : Option Bool}
    (h : Runs (mayFail crypto) (migratePlaintextFile text) ⟨some text, none, none⟩ trace r) :
    ∀ s ∈ trace, crypto.Left text s := by
  have hsafe : Safe (mayFail crypto) (crypto.Left text)
      (fun ok s' => ok = true → crypto.Holds s' text ∧ s'.plain = none)
      (migratePlaintextFile text) ⟨some text, none, none⟩ := by
    refine safe_migratePlaintextFile (fun _ => Or.inl ⟨rfl, rfl⟩) (fun cipher hcipher => ⟨?_, ?_⟩)
    · exact Or.inr ⟨⟨cipher, rfl, hcipher⟩, rfl, Or.inl rfl⟩
    · exact Or.inr ⟨⟨cipher, rfl, hcipher⟩, rfl, Or.inr rfl⟩
  exact (hsafe.runs h).1

/-- A store recovers when its backup is not something else than the text. -/
theorem recovers_of_left {crypto : ByteCrypto} {text : Bytes} {s : Files}
    (h : crypto.Left text s) : crypto.Recovers text s ↔ s.bak = none ∨ s.bak = some text := by
  rcases h with ⟨hplain, henc⟩ | ⟨hholds, hbak, hplain⟩
  · constructor
    · intro hrecovers
      cases hbak : s.bak with
      | none => exact Or.inl rfl
      | some other =>
        refine Or.inr ?_
        by_contra hne
        rcases hrecovers with hmigrate | ⟨⟨cipher, hcipher, -⟩, -⟩
        · refine not_succeeds_of_safe ((calm_migratePlaintextFile hplain henc).imp
            (fun ok s' _ hok => hok.2 other hbak ?_)) hmigrate
          exact fun heq => hne (by rw [heq])
        · rw [henc] at hcipher
          cases hcipher
    · intro hbak
      exact Or.inl (succeeds_of_safe ((calm_migratePlaintextFile hplain henc).imp
        (fun ok s' _ hok => hok.1 hbak)))
  · have hwritable : crypto.Writable s :=
      hholds.writable fun hsome => (hplain.resolve_right hsome).trans hbak.symm
    have hsettles := (calm_settleProtectedFile hwritable).imp (fun ok _ _ h => h.1)
    exact iff_of_true (Or.inr ⟨hholds, succeeds_of_safe hsettles⟩) (Or.inr hbak)

/-- **When a migration that was stopped recovers**: whatever failed and wherever
it stopped, a later attempt succeeds exactly when the backup was not left with
something else than the text. -/
theorem recovers_iff {crypto : ByteCrypto} {text : Bytes} {trace : List Files} {r : Option Bool}
    (h : Runs (mayFail crypto) (migratePlaintextFile text) ⟨some text, none, none⟩ trace r)
    {s : Files} (hs : trace.getLast? = some s) :
    crypto.Recovers text s ↔ s.bak = none ∨ s.bak = some text :=
  recovers_of_left (left_of_runs h s (List.mem_of_getLast? hs))

/-- A cipher for trying things out: a byte in front of the text. -/
def tagCrypto : ByteCrypto where
  Encrypts text cipher := cipher = 1 :: text
  decrypt cipher := if cipher.head? = some 1 then some cipher.tail else none
  inverse := by
    rintro text cipher rfl
    rfl
  total text := ⟨1 :: text, rfl, List.cons_ne_nil _ _⟩

/-- A migration that stops behind the copy of the backup. -/
theorem runs_stopped {crypto : ByteCrypto} {text : Bytes} {s : Files} (ok : Bool)
    (hcopy : mayFail crypto .copyBackup ⟨some text, none, none⟩ ok s) :
    Runs (mayFail crypto) (migratePlaintextFile text) ⟨some text, none, none⟩
      (List.replicate 5 ⟨some text, none, none⟩ ++ [s]) none := by
  have hlock : mayFail crypto .lock ⟨some text, none, none⟩ true ⟨some text, none, none⟩ := rfl
  have henc : mayFail crypto (.exists_ .enc) ⟨some text, none, none⟩ (some false)
      ⟨some text, none, none⟩ := ⟨rfl, Or.inr rfl⟩
  have hplain : mayFail crypto (.read .plain) ⟨some text, none, none⟩ (some text)
      ⟨some text, none, none⟩ := ⟨rfl, Or.inr rfl⟩
  have hbak : mayFail crypto (.exists_ .bak) ⟨some text, none, none⟩ (some false)
      ⟨some text, none, none⟩ := ⟨rfl, Or.inr rfl⟩
  refine .call hlock (.call henc (.call hplain ?_))
  show Runs _ (if (text == text) = true then keepBackup text >>= _ else _) _ _ _
  rw [beq_self_eq_true, if_pos rfl]
  exact .call hbak (.call hcopy (.stop _ _))

/-- A migration that stops behind a complete backup recovers. -/
theorem recovers_iff_copied : tagCrypto.Recovers [0x61] ⟨some [0x61], none, some [0x61]⟩ :=
  (recovers_iff (runs_stopped true (Or.inl ⟨rfl, rfl, rfl, rfl⟩)) rfl).mpr (Or.inr rfl)

/-- One that stops while the backup is empty never does. -/
theorem not_recovers_halfWritten :
    (∃ trace, Runs (mayFail tagCrypto) (migratePlaintextFile [0x61]) ⟨some [0x61], none, none⟩
        trace none ∧ trace.getLast? = some ⟨some [0x61], none, some []⟩)
      ∧ ¬ tagCrypto.Recovers [0x61] ⟨some [0x61], none, some []⟩ := by
  refine ⟨⟨_, runs_stopped false (Or.inr ⟨rfl, Or.inr ⟨rfl, [], rfl⟩⟩), rfl⟩, fun h => ?_⟩
  rcases (recovers_of_left (Or.inl ⟨rfl, rfl⟩)).mp h with hbak | hbak
  · cases hbak
  · cases hbak

end AzooKey.Learning

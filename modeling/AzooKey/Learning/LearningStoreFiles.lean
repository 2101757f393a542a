import AzooKey.Learning.LearningStoreText
import AzooKey.Learning.ProtectedFile

/-!
# The files of the learning stores

`Save`, `ClearLegacyFile` and what they use of `learning/src/LearningStore.cpp`.
A store has two protected files: the current one and the one of an older
version, which is read until the current one exists and removed after the
first save that could be verified. The host has two stores, so the disk has
four places (`Disk`), and a program over one protected file runs at one of
them (`onPlace`) and leaves the others alone.

`Agrees` is what a flag is for: a store that is not dirty has the rows that its
file holds. A save keeps it (`safe_saveIfDirty`), whatever fails.
-/

namespace AzooKey.Learning.LearningStore

open Interactive

/-! ## The disk -/

/-- The two learning channels of the host. -/
inductive Channel
  | kana
  | english
deriving DecidableEq

/-- The protected files: the current one and the old one of a channel. -/
inductive Place
  | v2 (channel : Channel)
  | legacy (channel : Channel)
deriving DecidableEq

/-- What the files hold. -/
abbrev Disk := Place → Files

/-- The operations on the disk: those on the files of a place, the copy that
`KeepAsideCopy` makes, and the removal of an encrypted file. -/
inductive DiskOp
  | on (place : Place) (op : Op)
  | keepAside
  | removeEncrypted (place : Place)

/-- What an operation answers. Whether a removal succeeds is not asked. -/
def DiskOp.Answer : DiskOp → Type
  | .on _ op => op.Answer
  | .keepAside => Bool
  | .removeEncrypted _ => Unit

/-- A program over the disk. -/
abbrev DiskProgram := Interactive DiskOp DiskOp.Answer

/-- Every place but one is as it was. -/
def SameBut (place : Place) (d d' : Disk) : Prop := ∀ q, q ≠ place → d' q = d q

/-- **What the operations do when anything may fail.** The copy goes to a file of
its own. -/
def diskMayFail (crypto : ByteCrypto) : (op : DiskOp) → Disk → op.Answer → Disk → Prop
  | .on place op, d, answer, d' => mayFail crypto op (d place) answer (d' place) ∧ SameBut place d d'
  | .keepAside, d, _, d' => d' = d
  | .removeEncrypted place, d, _, d' =>
    d' = d ∨ d' place = { d place with enc := none } ∧ SameBut place d d'

/-- A program over the files of a place. -/
def onPlace {α : Type} (place : Place) (p : Program α) : DiskProgram α :=
  p.lift (DiskOp.on place) (fun _ answer => answer)

/-- The copy that `KeepAsideCopy` makes. -/
def keepAside : DiskProgram Bool := ask DiskOp.keepAside

/-- The removal of an encrypted file. -/
def removeEncrypted (place : Place) : DiskProgram Unit := ask (DiskOp.removeEncrypted place)

/-! ## Saving -/

/-- `CountValidLearningRows` has a value: every line is a row. -/
def isValidText (text : Bytes) : Bool := (parseLines (Bytes.pieces 0x0a text)).1 = 0

/-- Whether the current file exists, encrypted or plain. -/
def v2Exists (channel : Channel) : DiskProgram (Option Bool) := do
  let enc ← onPlace (.v2 channel) (fileExists .enc)
  if enc = some true then pure (some true)
  else
    let plain ← onPlace (.v2 channel) (fileExists .plain)
    pure (if enc = none then none else plain)

/-- `RemoveVerifiedLegacyFile`: the old file goes when the current one was read
back as it was written. -/
def removeVerifiedLegacyFile (channel : Channel) (savedText : Bytes) : DiskProgram Unit := do
  if (← onPlace (.legacy channel) (fileExists .enc)) = some true then
    if ← onPlace (.v2 channel) lockProtectedFile then
      if ← onPlace (.legacy channel) lockProtectedFile then
        if (← onPlace (.legacy channel) (fileExists .plain)) = some false then
          let v2 ← onPlace (.v2 channel) readProtectedText
          if v2.1 = .encrypted ∧ v2.2 = savedText ∧ isValidText v2.2 then
            let legacy ← onPlace (.legacy channel) readProtectedText
            if legacy.1 = .encrypted ∧ isValidText legacy.2 then
              removeEncrypted (.legacy channel)
            else pure ()
          else pure ()
        else pure ()
      else pure ()
    else pure ()
  else pure ()

/-- The store after its rows were written. -/
def Store.saved (s : Store) : Store := { s with dirty := false, preserveBeforeSave := false }

/-- The old file is in order, when it is still the one that is read. -/
def settled (channel : Channel) (exists_ : Bool) : DiskProgram Bool :=
  if exists_ then pure true else onPlace (.legacy channel) settleProtectedFile

/-- The copy of a file with malformed rows. -/
def keptAside (s : Store) : DiskProgram Bool :=
  if s.preserveBeforeSave then keepAside else pure true

/-- **`Save`**: whether the rows were written, and the store. -/
def Store.save (channel : Channel) (s : Store) : DiskProgram (Bool × Store) :=
  if s.saveBlockedByLoadFailure then pure (false, s)
  else do
    match ← v2Exists channel with
    | none => pure (false, s)
    | some exists_ =>
      if ← settled channel exists_ then
        if ← keptAside s then
          if ← onPlace (.v2 channel) (writeProtectedText s.serializeText) then
            removeVerifiedLegacyFile channel s.serializeText
            pure (true, s.saved)
          else pure (false, s)
        else pure (false, s)
      else pure (false, s)

/-! ## The old file -/

/-- A line is a row that goes: of the pair, or any when there is none. -/
def dropsRow (pair : Option (Bytes × Bytes)) (escapedFields : Bool) (line : Bytes) : Bool :=
  line ≠ [] && ((parseLegacyRow escapedFields line).any (fun row =>
    pair.all (fun p => row.1.reading = p.1 ∧ row.1.surface = p.2)))

/-- `WithoutLegacyRows`: the text without the rows of the pair, and whether one
was dropped. The other lines keep their bytes. The header is no row. -/
def withoutLegacyRows (pair : Option (Bytes × Bytes)) (text : Bytes) : Bytes × Bool :=
  let segments := Bytes.segments 0x0a text
  let escapedFields := segments.head?.map (Bytes.segmentText 0x0a) = some escapedTsvHeader
  let drops := fun segment => dropsRow pair escapedFields (Bytes.segmentText 0x0a segment)
  ((segments.filter (fun segment => !drops segment)).flatten, segments.any drops)

/-- **`RewriteLegacyFile`**: whether it succeeded, and whether a row was
removed. -/
def rewriteLegacyFile (pair : Option (Bytes × Bytes)) : Program (Bool × Bool) := do
  let read ← readProtectedText
  match read.1 with
  | .missing => pure (true, false)
  | .error => pure (false, false)
  | _ =>
    let rewritten := withoutLegacyRows pair read.2
    if rewritten.2 then
      let ok ← writeProtectedText rewritten.1
      pure (ok, ok)
    else pure (true, false)

/-- `ClearLegacyFile`. -/
def clearLegacyFile : Program Bool := do
  let rewritten ← rewriteLegacyFile none
  pure rewritten.1

/-! ## What a file holds -/

/-- The text that is read from the files when nothing fails. -/
def contents (crypto : ByteCrypto) (files : Files) : Option Bytes :=
  files.enc.elim files.plain crypto.decrypt

/-- The rows of the text that are not forgotten. -/
def fileRows (crypto : ByteCrypto) (files : Files) : Table :=
  ((contents crypto files).map (fun text =>
    ((({} : Store).loadText text).2).kept)).getD .empty

/-- **A store that is not dirty has the rows that its file holds.** -/
def Agrees (crypto : ByteCrypto) (s : Store) (files : Files) : Prop :=
  s.dirty = false → fileRows crypto files = s.kept

/-- **No row is left in an old file.** -/
def NoLegacyRow (crypto : ByteCrypto) (files : Files) : Prop :=
  ∀ text, contents crypto files = some text → ∀ segment ∈ Bytes.segments 0x0a text,
    parseLegacyRow false (Bytes.segmentText 0x0a segment) = none

/-! ## What can be written -/

/-- **A channel whose store can be saved**: the current file can be written, and
where it is missing so can the old one. -/
structure Savable (crypto : ByteCrypto) (v2 legacy : Files) : Prop where
  writable : crypto.Writable v2
  settles : v2.enc = none → crypto.Writable legacy

/-- **An old file without rows, or whose rows can be removed.** -/
def Clearable (crypto : ByteCrypto) (files : Files) : Prop :=
  crypto.Writable files ∨ contents crypto files ≠ none ∧ NoLegacyRow crypto files

/-- What is held is what is read. -/
theorem contents_of_holds {crypto : ByteCrypto} {files : Files} {text : Bytes}
    (h : crypto.Holds files text) : contents crypto files = some text := by
  obtain ⟨cipher, henc, hcipher⟩ := h
  rw [contents, henc]
  exact hcipher

/-- The rows that are not forgotten have none that is. -/
theorem kept_kept (s : Store) {t : Store} (ht : t.table = s.kept) : t.kept = s.kept := by
  refine OrderedMap.ext_of_find? (fun key => ?_)
  unfold Store.kept at ht ⊢
  rw [ht, OrderedMap.find?_filter, OrderedMap.find?_filter]
  cases s.table.find? key with
  | none => rfl
  | some rec =>
    cases hrec : rec.isForgotten with
    | true => simp [Option.filter, hrec]
    | false => simp [Option.filter, hrec]

/-- **A file with the text of a store holds its rows.** -/
theorem fileRows_of_holds {crypto : ByteCrypto} {s : Store} {files : Files} (hs : s.Filed)
    (h : crypto.Holds files s.serializeText) : fileRows crypto files = s.kept := by
  rw [fileRows, contents_of_holds h, Option.map_some, Option.getD_some,
    loadText_serializeText (OrderedMap.Holds.filter hs _)]
  exact kept_kept s rfl

/-! ## What the programs do when anything may fail -/

section MayFail

variable {crypto : ByteCrypto} {d : Disk}

/-- **A program at a place** does there what it does alone, and nothing
elsewhere. -/
theorem safe_onPlace {α : Type} {place : Place} {p : Program α} {I : Files → Prop}
    {Q : α → Files → Prop} (h : Safe (mayFail crypto) I Q p (d place)) :
    Safe (diskMayFail crypto) (fun _ => True) (fun a d' => Q a (d' place) ∧ SameBut place d d')
      (onPlace place p) d :=
  Safe.lift (fun d : Disk => d place) (SameBut place) (fun _ _ _ => rfl)
    (fun _ _ _ h₁ h₂ q hq => (h₂ q hq).trans (h₁ q hq))
    (fun _ _ _ _ heffect => heffect) h

/-- A program that only looks at its place leaves the disk as it is. -/
theorem safe_onPlace_look {α : Type} {place : Place} {p : Program α} {R : α → Prop}
    (h : Safe (mayFail crypto) (fun _ => True) (fun a s' => s' = d place ∧ R a) p (d place)) :
    Safe (diskMayFail crypto) (fun _ => True) (fun a d' => d' = d ∧ R a) (onPlace place p) d := by
  refine (safe_onPlace h).imp (fun a d' _ hd => ⟨funext (fun q => ?_), hd.1.2⟩)
  by_cases hq : q = place
  · rw [hq]
    exact hd.1.1
  · exact hd.2 q hq

/-- Looking for a file. -/
theorem safe_onPlace_exists (place : Place) (file : File) :
    Safe (diskMayFail crypto) (fun _ => True)
      (fun answer d' => d' = d ∧ ∀ b ∈ answer, b = ((d place).get file).isSome)
      (onPlace place (fileExists file)) d :=
  safe_onPlace_look (safe_exists file trivial)

/-- Taking a lock. -/
theorem safe_onPlace_lock (place : Place) :
    Safe (diskMayFail crypto) (fun _ => True) (fun _ d' => d' = d ∧ True)
      (onPlace place lockProtectedFile) d :=
  safe_onPlace_look ((safe_lock trivial).imp (fun _ _ _ h => ⟨h, trivial⟩))

/-- Reading a file. -/
theorem safe_onPlace_read (place : Place) :
    Safe (diskMayFail crypto) (fun _ => True)
      (fun r d' => d' = d ∧ (r.1 = .encrypted → crypto.Holds (d place) r.2))
      (onPlace place readProtectedText) d :=
  safe_onPlace_look (safe_readProtectedText_text.imp (fun _ _ _ h => ⟨h.1, h.2.1⟩))

/-- Looking for the current file. -/
theorem safe_v2Exists (channel : Channel) :
    Safe (diskMayFail crypto) (fun _ => True)
      (fun found d' => d' = d
        ∧ ∀ b ∈ found, b = ((d (.v2 channel)).enc.isSome || (d (.v2 channel)).plain.isSome))
      (v2Exists channel) d := by
  refine (safe_onPlace_exists _ _).bind (fun enc d₁ _ h₁ => ?_)
  obtain ⟨rfl, henc⟩ := h₁
  split
  · rename_i hthere
    refine .pure trivial ⟨rfl, fun b hb => ?_⟩
    rw [← show true = (d₁ (.v2 channel)).enc.isSome from henc true hthere, Bool.true_or]
    exact (Option.some.inj hb).symm
  · rename_i hnot
    refine (safe_onPlace_exists _ _).bind (fun plain d₂ _ h₂ => ?_)
    obtain ⟨rfl, hplain⟩ := h₂
    refine .pure trivial ⟨rfl, fun b hb => ?_⟩
    split at hb
    · cases hb
    · rename_i hsome
      obtain ⟨there, rfl⟩ := Option.ne_none_iff_exists'.mp hsome
      have hfalse : there = false := by
        rw [← Bool.not_eq_true]
        exact fun htrue => hnot (congrArg some htrue)
      rw [← show there = (d₂ (.v2 channel)).enc.isSome from henc there rfl, hfalse, Bool.false_or]
      exact hplain b hb

/-- **The removal of the old file** happens, if it does, to a file that could be
written. -/
theorem safe_removeVerifiedLegacyFile
    {effect : (op : DiskOp) → Disk → op.Answer → Disk → Prop}
    (hless : ∀ op d answer d', effect op d answer d' → diskMayFail crypto op d answer d')
    (channel : Channel) (savedText : Bytes) :
    Safe effect (fun _ => True)
      (fun _ d' => d' = d ∨ crypto.Writable (d (.legacy channel))
        ∧ effect (.removeEncrypted (.legacy channel)) d () d')
      (removeVerifiedLegacyFile channel savedText) d := by
  have hunit : Safe effect (fun _ => True)
      (fun _ d' => d' = d ∨ crypto.Writable (d (.legacy channel))
        ∧ effect (.removeEncrypted (.legacy channel)) d () d') (pure () : DiskProgram Unit) d :=
    .pure trivial (Or.inl rfl)
  refine ((safe_onPlace_exists _ _).restrict hless).bind (fun enc d₁ _ h => ?_)
  obtain ⟨rfl, -⟩ := h
  split
  on_goal 2 => exact hunit
  refine ((safe_onPlace_lock _).restrict hless).bind (fun locked d₁ _ h => ?_)
  obtain ⟨rfl, -⟩ := h
  split
  on_goal 2 => exact hunit
  refine ((safe_onPlace_lock _).restrict hless).bind (fun locked d₁ _ h => ?_)
  obtain ⟨rfl, -⟩ := h
  split
  on_goal 2 => exact hunit
  refine ((safe_onPlace_exists _ _).restrict hless).bind (fun plain d₁ _ h => ?_)
  obtain ⟨rfl, hplain⟩ := h
  split
  on_goal 2 => exact hunit
  rename_i hmissing
  refine ((safe_onPlace_read _).restrict hless).bind (fun v2 d₁ _ h => ?_)
  obtain ⟨rfl, -⟩ := h
  split
  on_goal 2 => exact hunit
  refine ((safe_onPlace_read _).restrict hless).bind (fun legacy d₁ _ h => ?_)
  obtain ⟨rfl, hread⟩ := h
  split
  on_goal 2 => exact hunit
  rename_i hvalid
  have hnone : (d₁ (.legacy channel)).plain = none :=
    Option.isNone_iff_eq_none.mp (Option.isSome_eq_false_iff.mp (hplain false hmissing).symm)
  have hwritable : crypto.Writable (d₁ (.legacy channel)) :=
    (hread hvalid.1).writable fun hsome => absurd hnone hsome
  exact .ask trivial (fun _ _ h => ⟨trivial, Or.inr ⟨hwritable, h⟩⟩)

/-- The files of the other channel are as they were. -/
def SameElsewhere (channel : Channel) (d d' : Disk) : Prop :=
  ∀ q, q ≠ .v2 channel → q ≠ .legacy channel → d' q = d q

/-- **What a save leaves**: the other channel as it was, and the old file too unless
it could be written. It succeeds only on files that can be written, and then
the file holds the rows of the store. -/
theorem safe_save (channel : Channel) (s : Store) :
    Safe (diskMayFail crypto) (fun _ => True)
      (fun r d' => SameElsewhere channel d d'
        ∧ (d' (.legacy channel) = d (.legacy channel) ∨ crypto.Writable (d (.legacy channel)))
        ∧ (r = (false, s) ∨ r = (true, s.saved)
          ∧ Savable crypto (d (.v2 channel)) (d (.legacy channel))
          ∧ crypto.Holds (d' (.v2 channel)) s.serializeText ∧ (d' (.v2 channel)).plain = none))
      (s.save channel) d := by
  have hfalse : ∀ d', SameElsewhere channel d d' →
      d' (.legacy channel) = d (.legacy channel) ∨ crypto.Writable (d (.legacy channel)) →
      Safe (diskMayFail crypto) (fun _ => True)
      (fun r d' => SameElsewhere channel d d'
        ∧ (d' (.legacy channel) = d (.legacy channel) ∨ crypto.Writable (d (.legacy channel)))
        ∧ (r = (false, s) ∨ r = (true, s.saved)
          ∧ Savable crypto (d (.v2 channel)) (d (.legacy channel))
          ∧ crypto.Holds (d' (.v2 channel)) s.serializeText ∧ (d' (.v2 channel)).plain = none))
      (pure (false, s) : DiskProgram (Bool × Store)) d' :=
    fun d' helse hlegacy => .pure trivial ⟨helse, hlegacy, Or.inl rfl⟩
  unfold Store.save
  split
  · exact hfalse d (fun _ _ _ => rfl) (Or.inl rfl)
  refine (safe_v2Exists channel).bind (fun found d₁ _ h₁ => ?_)
  obtain ⟨rfl, hfound⟩ := h₁
  cases found with
  | none => exact hfalse d₁ (fun _ _ _ => rfl) (Or.inl rfl)
  | some found =>
    -- where there is no current file, the old one has to be in order
    refine Safe.bind (Q := fun ok d₂ => SameBut (.legacy channel) d₁ d₂
      ∧ (d₂ (.legacy channel) = d₁ (.legacy channel) ∨ crypto.Writable (d₁ (.legacy channel)))
      ∧ (ok = true → found = false → crypto.Writable (d₁ (.legacy channel)))) ?_
      (fun ok d₂ _ h₂ => ?_)
    · unfold settled
      split
      · rename_i htrue
        exact .pure trivial ⟨fun _ _ => rfl, Or.inl rfl,
          fun _ hno => absurd (htrue.symm.trans hno) nofun⟩
      · exact (safe_onPlace safe_settleProtectedFile).imp
          (fun _ _ _ h => ⟨h.2, h.1.2.writable, fun hok _ => h.1.1 hok⟩)
    obtain ⟨hbut, hlegacy, hsettled⟩ := h₂
    have helse : SameElsewhere channel d₁ d₂ := fun q _ hq => hbut q hq
    cases ok with
    | false => exact hfalse d₂ helse hlegacy
    | true =>
      refine Safe.bind (Q := fun _ d₃ => d₃ = d₂) ?_ (fun ok d₃ _ h₃ => ?_)
      · unfold keptAside
        split
        · exact .ask trivial (fun _ _ h => ⟨trivial, h⟩)
        · exact .pure trivial rfl
      subst h₃
      cases ok with
      | false => exact hfalse d₃ helse hlegacy
      | true =>
        have hv2 : d₃ (.v2 channel) = d₁ (.v2 channel) := hbut _ (fun h => Place.noConfusion h)
        refine (safe_onPlace (((safe_writeProtectedText s.serializeText).mono
          (fun _ _ => trivial)).and (safe_writeProtectedText_writable s.serializeText))).bind
          (fun ok d₄ _ h₄ => ?_)
        obtain ⟨⟨hwritten, hwritable⟩, hsame⟩ := h₄
        have helse₄ : SameElsewhere channel d₁ d₄ :=
          fun q hq hqLegacy => (hsame q hq).trans (helse q hq hqLegacy)
        have hlegacySame : d₄ (.legacy channel) = d₃ (.legacy channel) :=
          hsame _ (fun h => Place.noConfusion h)
        rw [← hlegacySame] at hlegacy
        cases ok with
        | false => exact hfalse d₄ helse₄ hlegacy
        | true =>
          -- the rows are written, so both files could be
          have hsavable : Savable crypto (d₁ (.v2 channel)) (d₁ (.legacy channel)) := by
            have hv2Writable := hwritable rfl
            rw [hv2] at hv2Writable
            refine ⟨hv2Writable, fun henc => hsettled rfl ?_⟩
            rw [hfound found rfl, hv2Writable.eq_none henc]
            rfl
          refine (safe_removeVerifiedLegacyFile (fun _ _ _ _ h => h) channel
            s.serializeText).bind (fun _ d₅ _ h₅ => .pure trivial ?_)
          have hbut₅ : SameBut (.legacy channel) d₄ d₅ := by
            rcases h₅ with rfl | ⟨-, rfl | ⟨-, h₅⟩⟩
            · exact fun _ _ => rfl
            · exact fun _ _ => rfl
            · exact h₅
          refine ⟨fun q hq hqLegacy => (hbut₅ q hqLegacy).trans (helse₄ q hq hqLegacy), ?_,
            Or.inr ⟨rfl, hsavable, ?_⟩⟩
          · rcases hlegacy with hlegacy | hlegacy
            · rw [← hlegacy]
              exact h₅.imp (fun h => by rw [h]) (fun h => h.1)
            · exact Or.inr hlegacy
          · rw [hbut₅ (.v2 channel) (fun h => Place.noConfusion h)]
            exact hwritten rfl

/-! ### The old file -/

/-- Whether a line is a row does not depend on how its fields are read. -/
theorem isSome_parseLegacyRow (escapedFields : Bool) (line : Bytes) :
    (parseLegacyRow escapedFields line).isSome = (parseLegacyRow false line).isSome := by
  unfold parseLegacyRow
  cases Bytes.readFields 0x09 2 line with
  | none => rfl
  | some fields =>
    rw [Option.bind_some, Option.bind_some]
    unfold legacyRowOfFields
    split
    · simp only [Option.bind_eq_bind]
      cases parseRecordValues _ <;> rfl
    · rfl

/-- A line that stays when every row goes is no row. -/
theorem parseLegacyRow_of_not_drops {escapedFields : Bool} {line : Bytes}
    (h : dropsRow none escapedFields line = false) : parseLegacyRow false line = none := by
  rw [← Option.not_isSome_iff_eq_none, ← isSome_parseLegacyRow escapedFields]
  intro hsome
  unfold dropsRow at h
  rw [Bool.and_eq_false_iff] at h
  rcases h with hnil | hany
  · have hline : line = [] := by simpa using hnil
    rw [hline] at hsome
    cases hsome
  · obtain ⟨row, hrow⟩ := Option.isSome_iff_exists.mp hsome
    rw [hrow] at hany
    cases hany

/-- **The text without its rows has no row.** -/
theorem parseLegacyRow_withoutLegacyRows (text : Bytes) :
    ∀ segment ∈ Bytes.segments 0x0a (withoutLegacyRows none text).1,
      parseLegacyRow false (Bytes.segmentText 0x0a segment) = none := by
  intro segment hsegment
  unfold withoutLegacyRows at hsegment
  rw [((Bytes.segmented_segments 0x0a text).filter _).segments_flatten] at hsegment
  have hkept := (List.mem_filter.mp hsegment).2
  exact parseLegacyRow_of_not_drops (by simpa using hkept)

/-- A text that loses no row has none. -/
theorem parseLegacyRow_of_not_removed {text : Bytes} (h : (withoutLegacyRows none text).2 = false) :
    ∀ segment ∈ Bytes.segments 0x0a text,
      parseLegacyRow false (Bytes.segmentText 0x0a segment) = none := by
  intro segment hsegment
  exact parseLegacyRow_of_not_drops (by simpa using List.any_eq_false.mp h segment hsegment)

/-- No files can be written. -/
theorem writable_none : crypto.Writable ⟨none, none, none⟩ :=
  ⟨fun h => absurd rfl h, fun h => absurd rfl h, fun h => absurd rfl h⟩

/-- **`ClearLegacyFile`** succeeds only where it can, and leaves no row then. -/
theorem safe_clearLegacyFile {files : Files} : Safe (mayFail crypto) (fun _ => True)
    (fun ok files' => ok = true → NoLegacyRow crypto files' ∧ Clearable crypto files)
    clearLegacyFile files := by
  refine Safe.bind (Q := fun (r : Bool × Bool) files' => r.1 = true →
    NoLegacyRow crypto files' ∧ Clearable crypto files) ?_ (fun r files' _ h => .pure trivial h)
  have hread : Safe (mayFail crypto) (fun _ => True) (fun r files' => files' = files
      ∧ (r.1 = .missing → files = ⟨none, none, none⟩)
      ∧ (r.1 ≠ .missing → r.1 ≠ .error → contents crypto files = some r.2))
      readProtectedText files := by
    refine (safe_readProtectedText.and safe_readProtectedText_text).imp (fun r files' _ h => ?_)
    obtain ⟨⟨rfl, hmissing⟩, -, henc, hplain⟩ := h
    refine ⟨rfl, hmissing, fun hne herror => ?_⟩
    obtain ⟨source, text⟩ := r
    cases source with
    | missing => exact absurd rfl hne
    | error => exact absurd rfl herror
    | encrypted => exact contents_of_holds (henc rfl)
    | plaintext =>
      obtain ⟨hnone, hsome⟩ := hplain rfl
      rw [contents, hnone]
      exact hsome
  -- a text that was read is rewritten without its rows, or has none
  have hrewrite : ∀ text, contents crypto files = some text →
      Safe (mayFail crypto) (fun _ => True)
        (fun (r : Bool × Bool) files' => r.1 = true →
          NoLegacyRow crypto files' ∧ Clearable crypto files)
        (if (withoutLegacyRows none text).2 then do
            let ok ← writeProtectedText (withoutLegacyRows none text).1
            pure (ok, ok)
          else pure (true, false) : Program (Bool × Bool)) files := by
    intro text htext
    split
    · refine (((safe_writeProtectedText _).mono (fun _ _ => trivial)).and
        (safe_writeProtectedText_writable _)).bind (fun ok files' _ h => ?_)
      refine .pure trivial (fun hok => ⟨fun read hcontents => ?_, Or.inl (h.2 hok)⟩)
      rw [contents_of_holds (h.1 hok).1] at hcontents
      rw [← Option.some.inj hcontents]
      exact parseLegacyRow_withoutLegacyRows text
    · rename_i hremoved
      have hnone : NoLegacyRow crypto files := by
        intro read hcontents
        rw [htext] at hcontents
        rw [← Option.some.inj hcontents]
        exact parseLegacyRow_of_not_removed (by simpa using hremoved)
      refine .pure trivial (fun _ => ⟨hnone, Or.inr ⟨?_, hnone⟩⟩)
      rw [htext]
      exact nofun
  refine hread.bind (fun r files' _ h => ?_)
  obtain ⟨source, text⟩ := r
  obtain ⟨rfl, hmissing, htext⟩ := h
  cases source with
  | missing =>
    rw [hmissing rfl]
    refine .pure trivial (fun _ => ⟨fun read hcontents => ?_, Or.inl writable_none⟩)
    cases hcontents
  | error => exact .pure trivial (fun h => absurd h Bool.false_ne_true)
  | encrypted => exact hrewrite text (htext nofun nofun)
  | plaintext => exact hrewrite text (htext nofun nofun)

end MayFail

end AzooKey.Learning.LearningStore

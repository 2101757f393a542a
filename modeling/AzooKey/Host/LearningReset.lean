import AzooKey.Learning.LearningStoreSaves

/-!
# The reset of the learning channels

`inference-host/src/InferenceEngineLearningData.cpp`: the user resets what was
learned, for kana and for English at once. Both stores are emptied and saved,
and then the old file of the kana store loses its rows. If any of this fails,
the rows are put back from the text that the stores had before, and saved
again.

`AllOrNone` states what this is for, and `AllOrNoneWhen` the condition for it.
What comes back is what the text can hold: a row without a reading or a surface,
which the observation of a commit may bring in and which the format does not
have, is lost. A store that is not dirty and has no rows is not saved: what its
file holds all the same, malformed rows above all, stays where a reset succeeds.
And nothing is done when a store is blocked (`resetLearningChannels_iff`).
-/

namespace AzooKey.Host

open Learning Learning.LearningStore Interactive

/-! ## The source -/

/-- Two stores, for each channel one. -/
def channels (kana english : Store) : Channel → Store
  | .kana => kana
  | .english => english

/-- A store is saved if it is dirty. -/
def saveIfDirty (channel : Channel) (s : Store) : DiskProgram (Bool × Store) :=
  if s.dirty then s.save channel else pure (true, s)

/-- **`SaveLearningSnapshots`**: both stores are tried, whatever happens to the
first. -/
def saveLearningSnapshots (snapshots : Channel → Store) : DiskProgram (Bool × (Channel → Store)) := do
  let kana ← saveIfDirty .kana (snapshots .kana)
  let english ← saveIfDirty .english (snapshots .english)
  pure (kana.1 && english.1, channels kana.2 english.2)

/-- `ResetOutcome`. -/
inductive ResetOutcome
  | reset
  | saveFailed
deriving DecidableEq

/-- The old file of the kana store, once the stores are saved. -/
def clearAfterSave (saved : Bool) : DiskProgram Bool :=
  if saved then onPlace (.legacy .kana) clearLegacyFile else pure false

/-- The rows of the stores before, read from their text. -/
def rollBack (before snapshots : Channel → Store) : Channel → Store :=
  fun c => ((snapshots c).loadText (before c).serializeText).2

/-- A store that cannot be saved. -/
def isBlocked (before : Channel → Store) : Bool :=
  (before .kana).saveBlockedByLoadFailure || (before .english).saveBlockedByLoadFailure

/-- **`ResetLearningChannels`**: the outcome and the stores. -/
def resetLearningChannels (before : Channel → Store) : DiskProgram (ResetOutcome × (Channel → Store)) :=
  if isBlocked before then pure (.saveFailed, before)
  else do
    let snapshots ← saveLearningSnapshots (fun c => (before c).reset)
    let saved ← clearAfterSave snapshots.1
    if saved then pure (.reset, snapshots.2)
    else do
      let restored ← saveLearningSnapshots (rollBack before snapshots.2)
      pure (.saveFailed, restored.2)

/-! ## The condition -/

/-- A text with no line but the header. -/
def EmptyText (text : Bytes) : Prop := ∀ line ∈ Bytes.pieces 0x0a text, line = [] ∨ line = v2Header

/-- **Empty files**: none is there, or it holds an empty text. -/
structure EmptyFiles (crypto : ByteCrypto) (files : Files) : Prop where
  enc : files.enc ≠ none → ∃ text, crypto.Holds files text ∧ EmptyText text
  plain : ∀ text, files.plain = some text → EmptyText text

/-- **All or none.** Either both stores are empty, in memory and on disk, and no
row is left in the old file; or every row that is not forgotten is as it was.
And a store that differs from its file is dirty. -/
def AllOrNone (crypto : ByteCrypto) (before : Channel → Store) (outcome : ResetOutcome)
    (after : Channel → Store) (d : Disk) : Prop :=
  ((outcome = .reset ∧ (∀ c, (after c).table = .empty ∧ EmptyFiles crypto (d (.v2 c)))
        ∧ NoLegacyRow crypto (d (.legacy .kana)))
      ∨ outcome = .saveFailed ∧ ∀ c, (after c).kept = (before c).kept)
    ∧ ∀ c, Agrees crypto (after c) (d (.v2 c))

/-- **Rows that the file can hold**, those that are forgotten apart. -/
def Restorable (s : Store) : Prop := OrderedMap.Holds Filed s.kept

/-- A store that a reset saves: it is dirty, or has rows. -/
def isSavedByReset (s : Store) : Bool := s.dirty || s.table.entries ≠ []

/-- **A reset may succeed**: every store that it saves can be saved, and the rows of
the old file can be removed. -/
structure Resettable (crypto : ByteCrypto) (before : Channel → Store) (d : Disk) : Prop where
  savable : ∀ c, isSavedByReset (before c) = true → Savable crypto (d (.v2 c)) (d (.legacy c))
  clearable : Clearable crypto (d (.legacy .kana))

/-- **When a reset is all or none.** A store is blocked, and both are dirty where
they differ from their files; or the files can hold every row, and those that a
reset which may succeed does not save are empty. -/
def AllOrNoneWhen (crypto : ByteCrypto) (before : Channel → Store) (d : Disk) : Prop :=
  (isBlocked before = true ∧ ∀ c, Agrees crypto (before c) (d (.v2 c)))
    ∨ isBlocked before = false ∧ (∀ c, Restorable (before c))
      ∧ (Resettable crypto before d →
          ∀ c, isSavedByReset (before c) = false → EmptyFiles crypto (d (.v2 c)))

/-! ## Empty files -/

/-- The empty table is the text of the header. -/
theorem emptyText_serializeText {s : Store} (h : s.table = .empty) : EmptyText s.serializeText := by
  have hlines : Bytes.pieces 0x0a ({} : Store).serializeText = [v2Header] := by
    set_option maxRecDepth 10000 in decide
  have htext : s.serializeText = ({} : Store).serializeText := by
    unfold Store.serializeText
    rw [h]
  intro line hline
  rw [htext, hlines, List.mem_singleton] at hline
  exact Or.inr hline

/-- A file with the text of an empty store, and no other, is empty. -/
theorem emptyFiles_of_holds {crypto : ByteCrypto} {s : Store} {files : Files}
    (htable : s.table = .empty) (h : crypto.Holds files s.serializeText)
    (hplain : files.plain = none) : EmptyFiles crypto files := by
  refine ⟨fun _ => ⟨_, h, emptyText_serializeText htable⟩, fun text htext => ?_⟩
  cases htext.symm.trans hplain

set_option maxRecDepth 10000 in
/-- The header is no row. -/
theorem parseRow_v2Header :
    parseV2Row v2Header = none ∧ ∀ escapedFields, parseLegacyRow escapedFields v2Header = none := by
  decide

/-- Lines without rows leave the table as it is. -/
theorem foldl_parseLine_empty {parseRow : Bytes → Option (Key × Record)} {lines : List Bytes}
    (hrow : parseRow v2Header = none) (h : ∀ line ∈ lines, line = [] ∨ line = v2Header)
    (acc : ℕ × Table) : (lines.foldl (parseLine parseRow) acc).2 = acc.2 := by
  induction lines generalizing acc with
  | nil => rfl
  | cons line lines ih =>
    rw [List.foldl_cons, ih (fun other hother => h other (List.mem_cons_of_mem _ hother))]
    unfold parseLine
    split
    · rfl
    · rename_i hne
      rw [(h line List.mem_cons_self).resolve_left hne, hrow]

/-- **An empty text has no rows.** -/
theorem parseLines_emptyText {text : Bytes} (h : EmptyText text) :
    (parseLines (Bytes.pieces 0x0a text)).2 = .empty := by
  unfold EmptyText at h
  generalize Bytes.pieces 0x0a text = lines at h
  cases lines with
  | nil => rfl
  | cons first lines =>
    have hlines : ∀ line ∈ lines, line = [] ∨ line = v2Header :=
      fun line hline => h line (List.mem_cons_of_mem _ hline)
    rw [parseLines]
    by_cases hv2 : first = v2Header
    · rw [if_pos hv2]
      exact foldl_parseLine_empty parseRow_v2Header.1 hlines _
    rw [if_neg hv2]
    by_cases hescaped : first = escapedTsvHeader
    · rw [if_pos hescaped]
      exact foldl_parseLine_empty (parseRow_v2Header.2 true) hlines _
    · rw [if_neg hescaped]
      exact foldl_parseLine_empty (parseRow_v2Header.2 false) h _

/-- An empty store has no rows that are not forgotten. -/
theorem kept_of_empty {s : Store} (h : s.table = .empty) : s.kept = .empty := by
  unfold Store.kept
  rw [h]
  rfl

/-- **Empty files have no rows.** -/
theorem fileRows_of_emptyFiles {crypto : ByteCrypto} {files : Files} (h : EmptyFiles crypto files) :
    fileRows crypto files = .empty := by
  have hrows : ∀ text, EmptyText text → (({} : Store).loadText text).2.kept = .empty :=
    fun text htext => kept_of_empty (parseLines_emptyText htext)
  unfold fileRows
  cases henc : files.enc with
  | some cipher =>
    obtain ⟨text, hholds, htext⟩ := h.enc (by rw [henc]; exact nofun)
    rw [contents_of_holds hholds, Option.map_some, Option.getD_some, hrows text htext]
  | none =>
    have hcontents : contents crypto files = files.plain := by
      rw [contents, henc]
      rfl
    rw [hcontents]
    cases hplain : files.plain with
    | none => rfl
    | some text => rw [Option.map_some, Option.getD_some, hrows text (h.plain text hplain)]

/-! ## What the program does when anything may fail -/

section MayFail

variable {crypto : ByteCrypto} {d : Disk}

/-- **What an attempt to save a store leaves**, from the files of its channel to those
behind it. -/
structure Attempted (crypto : ByteCrypto) (s : Store) (v2 legacy v2' legacy' : Files)
    (r : Bool × Store) : Prop where
  table : r.2.table = s.table
  old : legacy' = legacy ∨ crypto.Writable legacy
  agrees : s.Filed → s.dirty = true → Agrees crypto r.2 v2'
  untouched : s.dirty = false → v2' = v2
  holds : r.1 = true → s.dirty = true →
    Savable crypto v2 legacy ∧ crypto.Holds v2' s.serializeText ∧ v2'.plain = none

/-- **A save keeps the flag right.** -/
theorem safe_saveIfDirty (channel : Channel) (s : Store) :
    Safe (diskMayFail crypto) (fun _ => True)
      (fun r d' => SameElsewhere channel d d' ∧ Attempted crypto s (d (.v2 channel))
        (d (.legacy channel)) (d' (.v2 channel)) (d' (.legacy channel)) r)
      (saveIfDirty channel s) d := by
  unfold saveIfDirty
  split
  · rename_i hdirty
    refine (safe_save channel s).imp (fun r d' _ h => ?_)
    obtain ⟨helse, hlegacy, rfl | ⟨rfl, hsavable, hholds, hplain⟩⟩ := h
    · exact ⟨helse, rfl, hlegacy, fun _ _ hclean => absurd (hdirty.symm.trans hclean) nofun,
        fun hclean => absurd (hdirty.symm.trans hclean) nofun, nofun⟩
    · exact ⟨helse, rfl, hlegacy, fun hs _ _ => fileRows_of_holds hs hholds,
        fun hclean => absurd (hdirty.symm.trans hclean) nofun, fun _ _ => ⟨hsavable, hholds, hplain⟩⟩
  · rename_i hclean
    exact .pure trivial ⟨fun _ _ _ => rfl, rfl, Or.inl rfl, fun _ hdirty => absurd hdirty hclean,
      fun _ => rfl, fun _ hdirty => absurd hdirty hclean⟩

/-- **Both stores are tried.** -/
theorem safe_saveLearningSnapshots (snapshots : Channel → Store) :
    Safe (diskMayFail crypto) (fun _ => True)
      (fun r d' => ∃ ok : Channel → Bool, r.1 = (ok .kana && ok .english)
        ∧ ∀ c, Attempted crypto (snapshots c) (d (.v2 c)) (d (.legacy c)) (d' (.v2 c))
            (d' (.legacy c)) (ok c, r.2 c))
      (saveLearningSnapshots snapshots) d := by
  refine (safe_saveIfDirty .kana _).bind (fun kana d₁ _ hkana => ?_)
  refine (safe_saveIfDirty .english _).bind (fun english d₂ _ henglish => .pure trivial ?_)
  obtain ⟨helse₁, hkana⟩ := hkana
  obtain ⟨helse₂, henglish⟩ := henglish
  -- each of the two saves leaves the files of the other alone
  rw [helse₁ _ (by decide) (by decide), helse₁ _ (by decide) (by decide)] at henglish
  rw [← helse₂ (.v2 .kana) (by decide) (by decide),
    ← helse₂ (.legacy .kana) (by decide) (by decide)] at hkana
  refine ⟨fun c => if c = .kana then kana.1 else english.1, rfl, fun c => ?_⟩
  cases c with
  | kana => exact hkana
  | english => exact henglish

/-- The text of a store is in the current format. -/
theorem head?_serializeText (s : Store) :
    (Bytes.pieces 0x0a s.serializeText).head? = some v2Header := by
  unfold Store.serializeText
  rw [List.flatMap_cons, List.append_assoc, List.singleton_append,
    Bytes.pieces_of_getline (Bytes.getline_append (by decide) _)]
  rfl

/-- Rows that were put back are such as the file can hold. -/
theorem filed_rollBack (before snapshots : Channel → Store) (c : Channel) :
    (rollBack before snapshots c).Filed :=
  Store.filed_loadText _ (head?_serializeText _)

/-- **What a reset that succeeds leaves.** -/
structure Emptied (crypto : ByteCrypto) (before after : Channel → Store) (d d' : Disk) : Prop where
  resettable : Resettable crypto before d
  table : ∀ c, (after c).table = .empty
  emptied : ∀ c, isSavedByReset (before c) = true → EmptyFiles crypto (d' (.v2 c))
  untouched : ∀ c, isSavedByReset (before c) = false → d' (.v2 c) = d (.v2 c)
  legacy : NoLegacyRow crypto (d' (.legacy .kana))

/-- **What one that fails leaves.** -/
structure RolledBack (crypto : ByteCrypto) (before after : Channel → Store) (d' : Disk) : Prop where
  table : ∃ snapshots, ∀ c, (after c).table = (rollBack before snapshots c).table
  agrees : ∀ c, Agrees crypto (after c) (d' (.v2 c))

/-- **What the reset does, whatever fails.** -/
theorem safe_resetLearningChannels {before : Channel → Store} (hfree : isBlocked before = false) :
    Safe (diskMayFail crypto) (fun _ => True)
      (fun r d' => (r.1 = .reset ∧ Emptied crypto before r.2 d d')
        ∨ r.1 = .saveFailed ∧ RolledBack crypto before r.2 d')
      (resetLearningChannels before) d := by
  unfold resetLearningChannels
  rw [hfree, if_neg Bool.false_ne_true]
  refine (safe_saveLearningSnapshots _).bind (fun snapshots d₁ _ h₁ => ?_)
  obtain ⟨ok, hok, hattempted⟩ := h₁
  -- the old file loses its rows only when both stores are saved
  refine Safe.bind (Q := fun saved d₂ => (∀ c, d₂ (.v2 c) = d₁ (.v2 c)) ∧ (saved = true →
    snapshots.1 = true ∧ NoLegacyRow crypto (d₂ (.legacy .kana))
      ∧ Clearable crypto (d₁ (.legacy .kana)))) ?_ (fun saved d₂ _ h₂ => ?_)
  · unfold clearAfterSave
    split
    · rename_i hsaved
      refine (safe_onPlace safe_clearLegacyFile).imp (fun ok d₂ _ h => ?_)
      exact ⟨fun c => h.2 _ (fun h => Place.noConfusion h), fun hok => ⟨hsaved, h.1 hok⟩⟩
    · exact .pure trivial ⟨fun _ => rfl, fun h => absurd h Bool.false_ne_true⟩
  obtain ⟨hfiles, hcleared⟩ := h₂
  cases saved with
  | true =>
    obtain ⟨hsaved, hlegacy, hclearable⟩ := hcleared rfl
    rw [hok, Bool.and_eq_true] at hsaved
    have hall : ∀ c, ok c = true := fun c => by
      cases c with
      | kana => exact hsaved.1
      | english => exact hsaved.2
    refine .pure trivial (Or.inl ⟨rfl, ⟨fun c hc => ((hattempted c).holds (hall c) hc).1, ?_⟩,
      fun c => (hattempted c).table, fun c hc => ?_, fun c hc => ?_, hlegacy⟩)
    · rcases (hattempted .kana).old with hsame | hwritable
      · rw [← hsame]
        exact hclearable
      · exact Or.inl hwritable
    · obtain ⟨-, hholds, hplain⟩ := (hattempted c).holds (hall c) hc
      rw [hfiles c]
      exact emptyFiles_of_holds rfl hholds hplain
    · rw [hfiles c]
      exact (hattempted c).untouched hc
  | false =>
    -- something failed: the rows come back, and are saved once more
    refine (safe_saveLearningSnapshots (rollBack before snapshots.2)).bind
      (fun restored d₃ _ h₃ => ?_)
    obtain ⟨_, -, hrestored⟩ := h₃
    exact .pure trivial (Or.inr ⟨rfl, ⟨snapshots.2, fun c => (hrestored c).table⟩,
      fun c => (hrestored c).agrees (filed_rollBack before snapshots.2 c) rfl⟩)

end MayFail

/-! ## A reset that succeeds -/

section Calm

variable {crypto : ByteCrypto} {d : Disk}

/-- A store that is not blocked is saved. -/
theorem calm_saveIfDirty {channel : Channel} {s : Store}
    (hblocked : s.saveBlockedByLoadFailure = false)
    (hsavable : s.dirty = true → Savable crypto (d (.v2 channel)) (d (.legacy channel))) :
    Safe (diskCalm crypto) (fun _ => True)
      (fun r d' => r.1 = true ∧ SameElsewhere channel d d'
        ∧ (d' (.legacy channel) = d (.legacy channel) ∨ crypto.Writable (d' (.legacy channel))))
      (saveIfDirty channel s) d := by
  unfold saveIfDirty
  split
  · rename_i hdirty
    exact ((calm_save hblocked (hsavable hdirty)).and
      ((safe_save channel s).restrict (mayFail_of_calm crypto))).imp
        (fun r d' _ h => ⟨h.1.1, h.2.1, h.1.2⟩)
  · exact .pure trivial ⟨rfl, fun _ _ _ => rfl, Or.inl rfl⟩

/-- **A reset that may succeed does** where nothing fails. -/
theorem calm_resetLearningChannels {before : Channel → Store} (hfree : isBlocked before = false)
    (h : Resettable crypto before d) :
    Safe (diskCalm crypto) (fun _ => True) (fun r _ => r.1 = .reset)
      (resetLearningChannels before) d := by
  have hblocked : ∀ c, (before c).reset.saveBlockedByLoadFailure = false := by
    unfold isBlocked at hfree
    rw [Bool.or_eq_false_iff] at hfree
    intro c
    cases c with
    | kana => exact hfree.1
    | english => exact hfree.2
  unfold resetLearningChannels
  rw [hfree, if_neg Bool.false_ne_true]
  refine Safe.bind (Q := fun r d₁ => r.1 = true ∧ Clearable crypto (d₁ (.legacy .kana))) ?_
    (fun snapshots d₁ _ h₁ => ?_)
  · refine (calm_saveIfDirty (hblocked .kana) (h.savable .kana)).bind (fun kana d₁ _ hkana => ?_)
    obtain ⟨hkana, helse₁, hlegacy⟩ := hkana
    refine Safe.bind (calm_saveIfDirty (hblocked .english) fun hdirty => ?_)
      (fun english d₂ _ henglish => .pure trivial ⟨?_, ?_⟩)
    · rw [helse₁ _ (by decide) (by decide), helse₁ _ (by decide) (by decide)]
      exact h.savable .english hdirty
    · rw [hkana, henglish.1, Bool.true_and]
    · rw [henglish.2.1 _ (by decide) (by decide)]
      rcases hlegacy with hsame | hwritable
      · rw [hsame]
        exact h.clearable
      · exact Or.inl hwritable
  · obtain ⟨hsaved, hclearable⟩ := h₁
    rw [hsaved]
    refine Safe.bind (Q := fun saved _ => saved = true) ?_ (fun saved d₂ _ h₂ => ?_)
    · exact (calm_onPlace (calm_clearLegacyFile hclearable)).imp (fun _ _ _ h => h.1)
    · rw [h₂]
      exact .pure trivial rfl

end Calm

/-! ## When the rows come back -/

/-- **The rows come back from their text if and only if the file can hold
them.** -/
theorem kept_rollBack_iff {before snapshots : Channel → Store} {s : Store} (c : Channel)
    (hs : s.table = (rollBack before snapshots c).table) :
    s.kept = (before c).kept ↔ Restorable (before c) := by
  constructor
  · intro h
    unfold Restorable
    rw [← h]
    have hfiled := filed_rollBack before snapshots c
    unfold Store.Filed at hfiled
    rw [← hs] at hfiled
    exact OrderedMap.Holds.filter hfiled _
  · intro h
    unfold rollBack at hs
    rw [loadText_serializeText h] at hs
    exact kept_kept (before c) hs

/-! ## A disk on which everything fails -/

/-- The answer of an operation that fails. -/
def DiskOp.failure : (op : DiskOp) → op.Answer
  | .on _ .lock | .on _ .copyBackup | .on _ .flushBackup | .on _ (.writeEncrypted _)
  | .on _ .removePlain => false
  | .on _ (.exists_ _) => (none : Option Bool)
  | .on _ (.read _) | .on _ (.encrypt _) | .on _ (.decrypt _) => (none : Option Bytes)
  | .keepAside => false
  | .removeEncrypted _ => ()

/-- **Every operation fails.** -/
def diskFails (op : DiskOp) (d : Disk) (answer : op.Answer) (d' : Disk) : Prop :=
  answer = DiskOp.failure op ∧ d' = d

/-- Every operation may fail. -/
theorem mayFail_of_fails (crypto : ByteCrypto) (op : DiskOp) (d : Disk) (answer : op.Answer)
    (d' : Disk) (h : diskFails op d answer d') : diskMayFail crypto op d answer d' := by
  obtain ⟨rfl, rfl⟩ := h
  cases op with
  | on place op =>
    refine ⟨?_, fun _ _ => rfl⟩
    cases op with
    | lock => exact rfl
    | exists_ file => exact ⟨rfl, Or.inl rfl⟩
    | read file => exact ⟨rfl, Or.inl rfl⟩
    | copyBackup => exact Or.inr ⟨rfl, Or.inl rfl⟩
    | flushBackup => exact rfl
    | encrypt text => exact ⟨rfl, nofun⟩
    | decrypt cipher => exact ⟨rfl, Or.inl rfl⟩
    | writeEncrypted cipher => exact Or.inr ⟨rfl, rfl⟩
    | removePlain => exact Or.inr ⟨rfl, rfl⟩
  | keepAside => exact rfl
  | removeEncrypted place => exact Or.inl rfl

section Fails

variable {d : Disk}

/-- No file is found. -/
theorem fails_exists (place : Place) (file : File) :
    Safe diskFails (fun _ => True) (fun answer _ => answer = none) (onPlace place (fileExists file))
      d :=
  ⟨trivial, fun _ _ h => ⟨trivial, h.1⟩⟩

/-- A save fails and leaves the store as it is. -/
theorem fails_save (channel : Channel) (s : Store) :
    Safe diskFails (fun _ => True) (fun r _ => r = (false, s)) (s.save channel) d := by
  unfold Store.save
  split
  · exact .pure trivial rfl
  refine Safe.bind (Q := fun found _ => found = none) ?_ (fun found d₁ _ h₁ => ?_)
  · refine (fails_exists _ _).bind (fun enc d₁ _ h₁ => ?_)
    subst h₁
    refine (fails_exists _ _).bind (fun plain d₂ _ h₂ => .pure trivial ?_)
    rfl
  · subst h₁
    exact .pure trivial rfl

/-- A dirty store cannot be saved. -/
theorem fails_saveIfDirty (channel : Channel) (s : Store) :
    Safe diskFails (fun _ => True) (fun r _ => r = (!s.dirty, s)) (saveIfDirty channel s) d := by
  unfold saveIfDirty
  split
  · rename_i hdirty
    exact (fails_save channel s).imp (fun r _ _ h => by rw [h, hdirty]; rfl)
  · rename_i hclean
    rw [Bool.not_eq_true] at hclean
    exact .pure trivial (by rw [hclean]; rfl)

/-- The stores stay as they are, and the save of one that is dirty fails. -/
theorem fails_saveLearningSnapshots (snapshots : Channel → Store) :
    Safe diskFails (fun _ => True)
      (fun r _ => r = (!(snapshots .kana).dirty && !(snapshots .english).dirty, snapshots))
      (saveLearningSnapshots snapshots) d := by
  refine (fails_saveIfDirty .kana _).bind (fun kana d₁ _ h₁ => ?_)
  refine (fails_saveIfDirty .english _).bind (fun english d₂ _ h₂ => .pure trivial ?_)
  rw [h₁, h₂]
  refine congrArg (Prod.mk _) (funext (fun c => ?_))
  cases c <;> rfl

/-- **A reset of a row fails when everything does**, and the rows come from their
text. -/
theorem fails_resetLearningChannels {before : Channel → Store} (hblocked : isBlocked before = false)
    {c₀ : Channel} (hrow : (before c₀).table.entries ≠ []) :
    Safe diskFails (fun _ => True)
      (fun r _ => r.1 = .saveFailed ∧ ∃ snapshots, ∀ c, (r.2 c).table = (rollBack before snapshots c).table)
      (resetLearningChannels before) d := by
  have hdirty : (before c₀).reset.dirty = true := by
    unfold Store.reset
    rw [Bool.or_eq_true]
    exact Or.inr (decide_eq_true hrow)
  have hnot : (!(before .kana).reset.dirty && !(before .english).reset.dirty) = false := by
    cases c₀ with
    | kana => rw [hdirty]; rfl
    | english => rw [hdirty, Bool.not_true, Bool.and_false]
  unfold resetLearningChannels
  rw [hblocked, if_neg Bool.false_ne_true]
  refine (fails_saveLearningSnapshots _).bind (fun snapshots d₁ _ h₁ => ?_)
  subst h₁
  dsimp only
  rw [hnot]
  show Safe diskFails _ _ (saveLearningSnapshots (rollBack before _) >>= _) d₁
  refine (fails_saveLearningSnapshots _).bind (fun restored d₂ _ h₂ => .pure trivial ?_)
  rw [h₂]
  exact ⟨rfl, _, fun c => rfl⟩

end Fails

/-! ## The reset -/

/-- A row that the file cannot hold is lost in some execution. -/
theorem not_allOrNone (crypto : ByteCrypto) (before : Channel → Store) (d : Disk)
    (hblocked : isBlocked before = false) {c₀ : Channel} (hrow : ¬ Restorable (before c₀)) :
    ∃ trace outcome after last, Runs (diskMayFail crypto) (resetLearningChannels before) d trace
        (some (outcome, after)) ∧ trace.getLast? = some last
      ∧ ¬ AllOrNone crypto before outcome after last := by
  have hsome : (before c₀).table.entries ≠ [] := by
    intro hnil
    refine hrow (fun key rec hfound => ?_)
    have hmem := (List.mem_filter.mp ((before c₀).kept.find?_eq_some_iff.mp hfound)).1
    rw [hnil] at hmem
    exact absurd hmem List.not_mem_nil
  have hends : ∃ trace r, Runs diskFails (resetLearningChannels before) d trace (some r) :=
    exists_runs (fun op d => ⟨DiskOp.failure op, d, rfl, rfl⟩) _ d
  obtain ⟨trace, ⟨outcome, after⟩, hruns⟩ := hends
  obtain ⟨-, hresult⟩ := (fails_resetLearningChannels hblocked hsome).runs hruns
  obtain ⟨last, hlast, rfl, snapshots, htable⟩ := hresult _ rfl
  refine ⟨trace, _, after, last, hruns.mono (mayFail_of_fails crypto), hlast, ?_⟩
  rintro ⟨⟨hreset, -⟩ | ⟨-, hkept⟩, -⟩
  · cases hreset
  · exact hrow ((kept_rollBack_iff c₀ (htable c₀)).mp (hkept c₀))

/-- **A reset that may succeed does so in some execution**, and leaves the files that
it does not save as they are. -/
theorem exists_reset {crypto : ByteCrypto} {before : Channel → Store} {d : Disk}
    (hfree : isBlocked before = false) (h : Resettable crypto before d) :
    ∃ trace after last, Runs (diskMayFail crypto) (resetLearningChannels before) d trace
        (some (.reset, after)) ∧ trace.getLast? = some last
      ∧ Emptied crypto before after d last := by
  obtain ⟨trace, ⟨outcome, after⟩, hruns⟩ :=
    exists_runs (diskCalm_total crypto) (resetLearningChannels before) d
  obtain ⟨last, hlast, hreset⟩ := ((calm_resetLearningChannels hfree h).runs hruns).2 _ rfl
  obtain rfl : outcome = .reset := hreset
  have hmay := hruns.mono (mayFail_of_calm crypto)
  obtain ⟨last', hlast', hresult⟩ := ((safe_resetLearningChannels hfree).runs hmay).2 _ rfl
  obtain rfl := Option.some.inj (hlast.symm.trans hlast')
  refine ⟨trace, after, last, hmay, hlast, ?_⟩
  rcases hresult with ⟨-, hemptied⟩ | ⟨hno, -⟩
  · exact hemptied
  · cases hno

/-- What is emptied is all or none, where what is not saved was empty. -/
theorem Emptied.allOrNone {crypto : ByteCrypto} {before after : Channel → Store} {d d' : Disk}
    (h : Emptied crypto before after d d')
    (hempty : ∀ c, isSavedByReset (before c) = false → EmptyFiles crypto (d (.v2 c))) :
    AllOrNone crypto before .reset after d' := by
  have hfiles : ∀ c, EmptyFiles crypto (d' (.v2 c)) := by
    intro c
    cases hc : isSavedByReset (before c) with
    | true => exact h.emptied c hc
    | false =>
      rw [h.untouched c hc]
      exact hempty c hc
  refine ⟨Or.inl ⟨rfl, fun c => ⟨h.table c, hfiles c⟩, h.legacy⟩, fun c _ => ?_⟩
  rw [fileRows_of_emptyFiles (hfiles c), kept_of_empty (h.table c)]

/-- What is rolled back is all or none, where the file can hold every row. -/
theorem RolledBack.allOrNone {crypto : ByteCrypto} {before after : Channel → Store} {d' : Disk}
    (h : RolledBack crypto before after d') (hrows : ∀ c, Restorable (before c)) :
    AllOrNone crypto before .saveFailed after d' := by
  obtain ⟨snapshots, htable⟩ := h.table
  exact ⟨Or.inr ⟨rfl, fun c => (kept_rollBack_iff c (htable c)).mpr (hrows c)⟩, h.agrees⟩

/-- A store that is blocked is all that a reset looks at. -/
theorem resetLearningChannels_of_blocked {before : Channel → Store} (h : isBlocked before = true) :
    resetLearningChannels before = pure (.saveFailed, before) := by
  unfold resetLearningChannels
  rw [if_pos h]

/-- **When the reset is all or none**: of every execution, with every failure of every
file operation, both stores are empty in memory and on disk, or all rows are as they
were, and a store that differs from its file is dirty, if and only if `AllOrNoneWhen`
holds of the stores and the files before. -/
theorem resetLearningChannels_iff (crypto : ByteCrypto) (before : Channel → Store) (d : Disk) :
    (∀ trace outcome after last, Runs (diskMayFail crypto) (resetLearningChannels before) d trace
        (some (outcome, after)) → trace.getLast? = some last →
          AllOrNone crypto before outcome after last)
      ↔ AllOrNoneWhen crypto before d := by
  cases hfree : isBlocked before with
  | true =>
    rw [resetLearningChannels_of_blocked hfree]
    constructor
    · intro h
      exact Or.inl ⟨hfree, (h [d] _ _ d (.done _ d) rfl).2⟩
    · rintro (⟨-, hagrees⟩ | ⟨hno, -⟩) trace outcome after last hruns hlast
      · cases hruns
        obtain rfl := Option.some.inj hlast
        exact ⟨Or.inr ⟨rfl, fun _ => rfl⟩, hagrees⟩
      · cases hfree.symm.trans hno
  | false =>
    constructor
    · intro h
      refine Or.inr ⟨hfree, fun c => ?_, fun hresettable c hc => ?_⟩
      · by_contra hrow
        obtain ⟨trace, outcome, after, last, hruns, hlast, hnot⟩ :=
          not_allOrNone crypto before d hfree hrow
        exact hnot (h trace outcome after last hruns hlast)
      · obtain ⟨trace, after, last, hruns, hlast, hemptied⟩ := exists_reset hfree hresettable
        obtain ⟨⟨-, hempty, -⟩ | ⟨hno, -⟩, -⟩ := h trace _ after last hruns hlast
        · rw [← hemptied.untouched c hc]
          exact (hempty c).2
        · cases hno
    · -- a reset that succeeds empties what it saves, and one that fails puts the rows back
      rintro (⟨hno, -⟩ | ⟨-, hrows, hempty⟩) trace outcome after last hruns hlast
      · cases hfree.symm.trans hno
      obtain ⟨last', hlast', hresult⟩ := ((safe_resetLearningChannels hfree).runs hruns).2 _ rfl
      obtain rfl := Option.some.inj (hlast.symm.trans hlast')
      rcases hresult with ⟨hreset, hemptied⟩ | ⟨hfailed, hrolled⟩
      · obtain rfl : outcome = .reset := hreset
        exact hemptied.allOrNone (hempty hemptied.resettable)
      · obtain rfl : outcome = .saveFailed := hfailed
        exact hrolled.allOrNone hrows

/-- No file is there. -/
def noFiles : Disk := fun _ => ⟨none, none, none⟩

/-- No files are empty. -/
theorem emptyFiles_noFiles (crypto : ByteCrypto) (place : Place) :
    EmptyFiles crypto (noFiles place) :=
  ⟨fun h => absurd rfl h, fun _ h => by cases h⟩

/-- A word in each store. -/
def withWord : Channel → Store :=
  channels (({} : Store).observe [0x23, 0x09] [0x5c, 0x0a] (.round false (1 / 2)) 7)
    (({} : Store).observe [0x23, 0x09] [0x5c, 0x0a] (.round false (1 / 2)) 7)

/-- **A word in each store, and no files**: the reset is all or none, and it succeeds in
some execution. -/
theorem resetLearningChannels_iff_withWord :
    (∀ trace outcome after last,
        Runs (diskMayFail tagCrypto) (resetLearningChannels withWord) noFiles trace
          (some (outcome, after)) → trace.getLast? = some last →
            AllOrNone tagCrypto withWord outcome after last)
      ∧ ∃ trace after, Runs (diskMayFail tagCrypto) (resetLearningChannels withWord)
          noFiles trace (some (.reset, after)) := by
  have hrows : ∀ c, Restorable (withWord c) := by
    intro c
    cases c with
    | kana => exact OrderedMap.Holds.filter reachable_observed.filed _
    | english => exact OrderedMap.Holds.filter reachable_observed.filed _
  have hresettable : Resettable tagCrypto withWord noFiles :=
    ⟨fun _ _ => ⟨writable_none, fun _ => writable_none⟩, Or.inl writable_none⟩
  refine ⟨(resetLearningChannels_iff tagCrypto _ noFiles).mpr (Or.inr ⟨rfl, hrows, fun _ c _ =>
    emptyFiles_noFiles tagCrypto _⟩), ?_⟩
  obtain ⟨trace, after, last, hruns, -⟩ := exists_reset rfl hresettable
  exact ⟨trace, after, hruns⟩

/-- A commit without a reading, and nothing of English. -/
def withoutReading : Channel → Store :=
  channels (({} : Store).observe [] [0x61] (.round false 1) 7) {}

/-- No files have no rows, so only a dirty store may have some. -/
theorem agrees_withoutReading (c : Channel) :
    Agrees tagCrypto (withoutReading c) (noFiles (.v2 c)) := by
  intro hclean
  cases c with
  | kana => cases hclean
  | english => rfl

/-- **The reset is not all or none**, not even where every store that differs from its
file is dirty: a row without a reading does not come back. -/
theorem not_allOrNone_withoutReading :
    ¬ ∀ (crypto : ByteCrypto) (before : Channel → Store) (d : Disk),
      (∀ c, Agrees crypto (before c) (d (.v2 c))) →
        ∀ trace outcome after last, Runs (diskMayFail crypto) (resetLearningChannels before) d trace
          (some (outcome, after)) → trace.getLast? = some last →
            AllOrNone crypto before outcome after last := by
  intro h
  have hrow : ¬ Restorable (withoutReading .kana) := by
    intro hfiled
    have hfound : (withoutReading .kana).kept.find? ⟨[], [0x61], []⟩ ≠ none := by decide +kernel
    obtain ⟨rec, hrec⟩ := Option.ne_none_iff_exists'.mp hfound
    exact (hfiled _ rec hrec).reading_ne rfl
  obtain ⟨trace, outcome, after, last, hruns, hlast, hnot⟩ :=
    not_allOrNone tagCrypto withoutReading noFiles rfl hrow
  exact hnot (h tagCrypto withoutReading noFiles agrees_withoutReading trace outcome after last
    hruns hlast)

end AzooKey.Host

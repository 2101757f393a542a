import AzooKey.Host.English.Store
import AzooKey.Lib.Mealy

/-!
# The calls of a store

What a store keeps over any calls, whatever fails in them and whatever others
write to the files in between. The operations in memory are well formed and
filed under the keys of their words, and one that adds a word is the only one of
its entry (`kept_run`). No call writes the TSV (`step_tsv`). An answer says where
the operation is: in memory or, if it reached the files, no longer there
(`upsert_answer`); and a word that was retracted is not added in memory
(`retract_answer`).
-/

namespace AzooKey.Host.English

open LittleEndian RawFile
open Core.Dictionary (isValidUtf8)

namespace Disk

/-- A writer that fails or not leaves the TSV as it is. -/
theorem tsv_written (d : Disk) (writes : List DiskWrite) (fault : Option ℕ) :
    (d.written writes fault).1.tsv = d.tsv := d.tsv_stopped writes _

/-- A compaction leaves the TSV as it is. -/
theorem tsv_compact (d : Disk) (fault : Option ℕ) : (d.compact fault).1.tsv = d.tsv := by
  unfold compact
  split
  · rfl
  · exact d.tsv_written _ _

end Disk

/-- A reset of the files leaves the TSV as it is. -/
theorem tsv_resetEnglishRuntimeFiles (d : Disk) (tsvRecords : Option (List WordRecord))
    (tsvTime : Option ℕ) (fault : Option ℕ) :
    (resetEnglishRuntimeFiles d tsvRecords tsvTime fault).1.tsv = d.tsv := by
  unfold resetEnglishRuntimeFiles
  split
  · rfl
  · exact d.tsv_written _ _

namespace Store

/-! ## What a snapshot leaves alone -/

/-- The operations in memory and the TSV are what they were. -/
structure Leaves (s : Store) (d : Disk) (s' : Store) (d' : Disk) : Prop where
  memoryOps : s'.memoryOps = s.memoryOps
  tsv : d'.tsv = d.tsv

/-- Nothing is done. -/
theorem Leaves.refl (s : Store) (d : Disk) : Leaves s d s d := ⟨rfl, rfl⟩

/-- One thing after another. -/
theorem Leaves.trans {s s' s'' : Store} {d d' d'' : Disk} (h : Leaves s d s' d')
    (h' : Leaves s' d' s'' d'') : Leaves s d s'' d'' :=
  ⟨h'.memoryOps.trans h.memoryOps, h'.tsv.trans h.tsv⟩

/-- A compilation. -/
theorem leaves_compileTsvLocked (s : Store) (d : Disk) (time : ℕ) (force fileLocked : Bool)
    (faults : Faults) : Leaves s d (s.compileTsvLocked d time force fileLocked faults).1
      (s.compileTsvLocked d time force fileLocked faults).2.1 := by
  unfold compileTsvLocked
  split
  · exact ⟨rfl, rfl⟩
  dsimp only
  split
  · exact ⟨rfl, rfl⟩
  -- the base goes to its file when the writer may write one, and stays in memory when not
  split
  · split
    · split <;> exact ⟨rfl, rfl⟩
    · exact ⟨rfl, rfl⟩
  · exact ⟨rfl, rfl⟩

/-- The base of a snapshot. -/
theorem leaves_rebuildBase (s : Store) (sample : Sample) (fileLocked : Bool) (faults : Faults)
    (d : Disk) : Leaves s d (s.rebuildBase sample fileLocked faults d).1
      (s.rebuildBase sample fileLocked faults d).2.1 := by
  unfold rebuildBase
  extract_lets tsvChanged binMatches compiled found mapped consistent
  have hfound : found.1.memoryOps = s.memoryOps := by
    simp only [found]
    split_ifs <;> rfl
  split
  · rename_i tsv _ _
    have hcompile := found.1.leaves_compileTsvLocked d tsv.1 tsvChanged fileLocked faults
    exact ⟨hcompile.memoryOps.trans hfound, hcompile.tsv⟩
  · exact ⟨hfound, rfl⟩

/-- **A snapshot that is made** leaves the operations in memory and the TSV alone. -/
theorem leaves_rebuildLocked (s : Store) (sample : Sample) (fileLocked : Bool) (faults : Faults)
    (d : Disk) : Leaves s d (s.rebuildLocked sample fileLocked faults d).1
      (s.rebuildLocked sample fileLocked faults d).2 := by
  have hbase := s.leaves_rebuildBase sample fileLocked faults d
  unfold rebuildLocked
  generalize s.rebuildBase sample fileLocked faults d = rebuilt at hbase
  exact ⟨hbase.memoryOps, hbase.tsv⟩

/-- A snapshot for a sample. -/
theorem leaves_snapshotFor (s : Store) (sample : Sample) (faults : Faults) (d : Disk) :
    Leaves s d (s.snapshotFor sample faults d).1 (s.snapshotFor sample faults d).2 := by
  unfold snapshotFor
  split
  · exact .refl s d
  · exact s.leaves_rebuildLocked sample false faults d

/-- The attempts of a reader. -/
theorem leaves_readAttempts (faults : Faults) (attempts : ℕ) (s : Store) (d : Disk) :
    Leaves s d (readAttempts faults attempts s d).1 (readAttempts faults attempts s d).2 := by
  induction attempts generalizing s d with
  | zero => exact .refl s d
  | succ attempts ih =>
    have hfirst := s.leaves_snapshotFor (takeSample d d) faults d
    unfold readAttempts
    dsimp only
    split
    · exact hfirst
    · exact hfirst.trans (ih _ _)

/-- Settling the base. -/
theorem leaves_settleBaseLocked (s : Store) (d : Disk) (fileLocked : Bool) (faults : Faults) :
    Leaves s d (s.settleBaseLocked d fileLocked faults).1
      (s.settleBaseLocked d fileLocked faults).2 := by
  unfold settleBaseLocked
  extract_lets sample readable settled
  have hsettled : settled.memoryOps = s.memoryOps := by
    simp only [settled]
    split_ifs <;> rfl
  split
  · have hrebuild := settled.leaves_rebuildLocked sample fileLocked faults d
    exact ⟨hrebuild.memoryOps.trans hsettled, hrebuild.tsv⟩
  · exact ⟨hsettled, rfl⟩

/-! ## Writers -/

/-- An append to the overlay. -/
theorem tsv_appendOverlay (s : Store) (d : Disk) (locked : Bool) (op : OverlayOp)
    (fault : Option ℕ) : (s.appendOverlay d locked op fault).1.tsv = d.tsv := by
  unfold appendOverlay
  split
  · rfl
  · exact d.tsv_written _ _

/-- An append to the journal leaves the TSV, and its answer is one of a writer that
reached the overlay. -/
theorem appendJournal_spec (d : Disk) (op : OverlayOp) (fault : Option ℕ) :
    (appendJournal d op fault).1.tsv = d.tsv
      ∧ (appendJournal d op fault).2 ∉ [.memoryOnly, .dropped, .cancelled] := by
  unfold appendJournal
  split
  · exact ⟨rfl, by simp⟩
  · exact ⟨rfl, by simp⟩
  · refine ⟨d.tsv_written _ _, ?_⟩
    dsimp only
    split <;> simp
  · refine ⟨d.tsv_written _ _, ?_⟩
    dsimp only
    split <;> simp

/-- **What an append does**: nothing without a base; it puts the operation into the
files, and takes those of its entry out of memory; or it puts it into memory in
their place. -/
theorem appendLocked_spec (s : Store) (d : Disk) (op : OverlayOp) (faults : Faults) :
    (s.appendLocked d op faults).2.1.tsv = d.tsv
      ∧ ((s.appendLocked d op faults).2.2 = .dropped
          ∧ (s.appendLocked d op faults).1.memoryOps = s.memoryOps
        ∨ (s.appendLocked d op faults).2.2 ∉ [.memoryOnly, .dropped, .cancelled]
          ∧ (s.appendLocked d op faults).1.memoryOps = (s.forget op).memoryOps
        ∨ (s.appendLocked d op faults).2.2 = .memoryOnly
          ∧ (s.appendLocked d op faults).1.memoryOps = (s.forget op).memoryOps ++ [op]) := by
  obtain ⟨hmemory, htsv⟩ := s.leaves_settleBaseLocked d faults.lock faults
  unfold appendLocked
  generalize s.settleBaseLocked d faults.lock faults = settled at hmemory htsv
  obtain ⟨s', d'⟩ := settled
  dsimp only at hmemory htsv ⊢
  have hforget : (s'.forget op).memoryOps = (s.forget op).memoryOps := by
    unfold forget
    rw [hmemory]
  split
  · exact ⟨htsv, Or.inl ⟨rfl, hmemory⟩⟩
  have hoverlay := s'.tsv_appendOverlay d' faults.lock op faults.overlay
  generalize s'.appendOverlay d' faults.lock op faults.overlay = appended at hoverlay
  obtain ⟨d'', persisted⟩ := appended
  dsimp only at hoverlay ⊢
  split
  · -- the overlay has the operation: the journal comes next, and a compaction at times
    obtain ⟨hjournal, hanswer⟩ := appendJournal_spec d'' op faults.journal
    refine ⟨?_, Or.inr (Or.inl ⟨hanswer, hforget⟩)⟩
    have hlast : (appendJournal d'' op faults.journal).1.tsv = d.tsv :=
      hjournal.trans (hoverlay.trans htsv)
    dsimp only
    split
    · exact (Disk.tsv_compact _ _).trans hlast
    · exact hlast
  · -- it has not: the operation goes into memory
    refine ⟨hoverlay.trans htsv, Or.inr (Or.inr ⟨rfl, ?_⟩)⟩
    show (s'.forget op).memoryOps ++ [op] = _
    rw [hforget]

/-- The entry of a word, taken out of the journal, leaves the TSV. -/
theorem tsv_retractJournal (d : Disk) (op : OverlayOp) (fault : Option ℕ) :
    (retractJournal d op fault).1.tsv = d.tsv := by
  unfold retractJournal
  split
  · rfl
  · rfl
  · exact d.tsv_written _ _

/-- The latest operation of an entry in memory adds its word. -/
def addedInMemory (s : Store) (op : OverlayOp) : Bool :=
  (latestEnglishJournalOp s.memoryOps op.key op.surface).any (·.kind = .upsert)

/-- The store without the operations of an entry, if the latest one adds its word. -/
def forgetAdded (s : Store) (op : OverlayOp) : Store :=
  if s.addedInMemory op then s.forget op else s

/-- What a retraction leaves: the operations without an added word, and the hidden word
behind them or not. -/
structure Hides (s : Store) (d : Disk) (op : OverlayOp) (r : Store × Disk × RetractResult) :
    Prop where
  tsv : r.2.1.tsv = d.tsv
  memoryOps : r.1.memoryOps = (s.forgetAdded op).memoryOps
    ∨ r.1.memoryOps = (s.forgetAdded op).memoryOps ++ [op]

/-- **A retraction forgets a word that is added in memory**, and may hide the word
behind that. -/
theorem hides_retract (s : Store) (d : Disk) {surface : Bytes} (haccepts : acceptsWord surface = true)
    (faults : Faults) : Hides s d (deleteOp surface) (s.retract d surface true faults) := by
  unfold retract
  extract_lets op inMemory forgotten
  have hforgotten : forgotten = s.forgetAdded op := rfl
  rw [haccepts, if_neg (by decide)]
  split
  · exact ⟨rfl, Or.inl rfl⟩
  obtain ⟨hmemory, htsv⟩ := forgotten.leaves_settleBaseLocked d true faults
  generalize forgotten.settleBaseLocked d true faults = settled at hmemory htsv
  obtain ⟨s', d'⟩ := settled
  rw [hforgotten] at hmemory
  dsimp only at hmemory htsv ⊢
  have hsame : ∀ result, Hides s d op (s'.invalidate, d', result) :=
    fun result => ⟨htsv, Or.inl hmemory⟩
  have hjournal : ∀ d'', d''.tsv = d.tsv → Hides s d op (s'.invalidate,
      (retractJournal d'' op faults.journal).1, (retractJournal d'' op faults.journal).2) :=
    fun d'' htsv'' => ⟨(tsv_retractJournal _ _ _).trans htsv'', Or.inl hmemory⟩
  split
  · exact hsame _
  split
  · exact hsame _
  split
  · exact hsame _
  · exact hjournal d' htsv
  · -- the word is not one of the TSV, so the overlay hides it before the journal forgets it
    have hoverlay := (s'.tsv_appendOverlay d' true op faults.overlay).trans htsv
    generalize s'.appendOverlay d' true op faults.overlay = appended at hoverlay
    obtain ⟨d'', hidden⟩ := appended
    dsimp only at hoverlay ⊢
    split
    · exact hjournal d'' hoverlay
    · refine ⟨hoverlay, Or.inr ?_⟩
      show s'.memoryOps ++ [op] = _
      rw [hmemory]

/-- A retraction that is refused. -/
theorem retract_refused {surface : Bytes} {stillCurrent : Bool}
    (h : ¬ (acceptsWord surface = true ∧ stillCurrent = true)) (s : Store) (d : Disk)
    (faults : Faults) : s.retract d surface stillCurrent faults = (s, d, .notAdded) := by
  unfold retract
  dsimp only
  rw [if_pos]
  rw [Bool.or_eq_true, Bool.not_eq_true', Bool.not_eq_true', ← Bool.not_eq_true,
    ← Bool.not_eq_true]
  exact not_and_or.mp h

/-! ## The operations in memory -/

/-- **The operations in memory**: each is well formed and filed under the key of its word, and
one that adds a word is the only one of its entry. -/
structure Kept (ops : List OverlayOp) : Prop where
  wellFormed : ∀ op ∈ ops, op.WellFormed ∧ op.key = englishLookupKey op.surface
  once : ops.Pairwise (fun a b => sameEntry a b = true → a.kind = .delete ∧ b.kind = .delete)

/-- There is nothing to keep. -/
theorem kept_nil : Kept [] := ⟨fun _ h => absurd h List.not_mem_nil, .nil⟩

/-- The operation of a word that is accepted is well formed. -/
theorem wellFormed_of_acceptsWord {surface : Bytes} (h : acceptsWord surface = true) (kind : OpKind)
    (flags : UInt8) (frequency : UInt32) :
    (OverlayOp.mk kind flags (englishLookupKey surface) surface frequency).WellFormed := by
  simp only [acceptsWord, Bool.and_eq_true, Bool.not_eq_true', List.isEmpty_eq_false_iff,
    decide_eq_true_eq] at h
  obtain ⟨⟨hne, hlength⟩, hvalid⟩ := h
  refine ⟨fun hkey => hne ?_, ?_, hlength, isValidUtf8_englishLookupKey hvalid, hvalid⟩
  · exact List.map_eq_nil_iff.mp hkey
  · rw [length_englishLookupKey]
    exact hlength

/-- What is left when an entry is forgotten is kept. -/
theorem Kept.forget {s : Store} (h : Kept s.memoryOps) (op : OverlayOp) :
    Kept (s.forget op).memoryOps :=
  ⟨fun other hother => h.wellFormed other (List.mem_of_mem_filter hother), h.once.filter _⟩

/-- Nothing of the entry is left. -/
theorem sameEntry_of_mem_forget {s : Store} {op other : OverlayOp}
    (h : other ∈ (s.forget op).memoryOps) : sameEntry other op = false := by
  simpa using (List.mem_filter.mp h).2

/-- An operation that goes behind those of other entries, or of its own when all of them
hide the word and so does the operation. -/
theorem Kept.concat {ops : List OverlayOp} (h : Kept ops) {op : OverlayOp}
    (hop : op.WellFormed ∧ op.key = englishLookupKey op.surface)
    (hentry : ∀ other ∈ ops, sameEntry other op = true → other.kind = .delete ∧ op.kind = .delete) :
    Kept (ops ++ [op]) := by
  refine ⟨fun other hother => ?_, List.pairwise_append.mpr ⟨h.once, List.pairwise_singleton _ _, ?_⟩⟩
  · rcases List.mem_append.mp hother with hold | hnew
    · exact h.wellFormed other hold
    · exact List.mem_singleton.mp hnew ▸ hop
  · intro other hother new hnew
    obtain rfl := List.mem_singleton.mp hnew
    exact hentry other hother

/-- **Where the latest operation of an entry adds no word, none does.** -/
theorem Kept.delete_of_latest {s : Store} (h : Kept s.memoryOps) {op : OverlayOp}
    (hlatest : s.addedInMemory op = false) :
    ∀ other ∈ s.memoryOps, sameEntry other op = true → other.kind = .delete := by
  intro other hother hsame
  have hentry : ∀ a b : OverlayOp, sameEntry a b = true ↔ a.key = b.key ∧ a.surface = b.surface := by
    simp [sameEntry]
  unfold addedInMemory latestEnglishJournalOp at hlatest
  cases hfind : s.memoryOps.reverse.find? (fun o => o.key = op.key && o.surface = op.surface) with
  | none =>
    have hnone := List.find?_eq_none.mp hfind other (List.mem_reverse.mpr hother)
    exact absurd ((hentry other op).mp hsame) (by simpa using hnone)
  | some latest =>
    rw [hfind] at hlatest
    have hkind : latest.kind ≠ .upsert := by simpa using hlatest
    obtain ⟨hmatch, later, before, hsplit, hlater⟩ := List.find?_eq_some_iff_append.mp hfind
    have hmem : other ∈ later ++ latest :: before := hsplit ▸ List.mem_reverse.mpr hother
    rcases List.mem_append.mp hmem with hmem | hmem
    · have hnot := hlater other hmem
      simp only [Bool.not_eq_true', Bool.and_eq_false_iff, decide_eq_false_iff_not] at hnot
      exact absurd ((hentry other op).mp hsame) (not_and_or.mpr hnot)
    rcases List.mem_cons.mp hmem with rfl | hmem
    · cases hdelete : other.kind with
      | upsert => exact absurd hdelete hkind
      | delete => rfl
    · -- it stands before the latest one, of the same entry
      have hreverse : s.memoryOps = before.reverse ++ latest :: later.reverse := by
        rw [← List.reverse_reverse s.memoryOps, hsplit]
        simp
      have honce := h.once
      rw [hreverse] at honce
      have hpair := (List.pairwise_append.mp honce).2.2 other (List.mem_reverse.mpr hmem) latest
        List.mem_cons_self
      refine (hpair ((hentry other latest).mpr ?_)).1
      obtain ⟨hkey, hsurface⟩ := (hentry other op).mp hsame
      have hmatch : latest.key = op.key ∧ latest.surface = op.surface := by simpa using hmatch
      exact ⟨hkey.trans hmatch.1.symm, hsurface.trans hmatch.2.symm⟩

/-! ## The answers -/

/-- The latest operation of an entry behind which one was put. -/
theorem latest_concat (ops : List OverlayOp) (op : OverlayOp) :
    latestEnglishJournalOp (ops ++ [op]) op.key op.surface = some op := by
  rw [latestEnglishJournalOp_append, if_pos ⟨rfl, rfl⟩]

/-- There is none of an entry that was forgotten. -/
theorem latest_forget (s : Store) (op : OverlayOp) :
    latestEnglishJournalOp (s.forget op).memoryOps op.key op.surface = none := by
  refine List.find?_eq_none.mpr fun other hother => ?_
  have hnot := sameEntry_of_mem_forget (List.mem_reverse.mp hother)
  unfold sameEntry at hnot
  rw [hnot]
  exact Bool.false_ne_true

/-- What an append leaves in memory is kept. -/
theorem kept_appendLocked {s : Store} (h : Kept s.memoryOps) (d : Disk) {op : OverlayOp}
    (hop : op.WellFormed ∧ op.key = englishLookupKey op.surface) (faults : Faults) :
    Kept (s.appendLocked d op faults).1.memoryOps := by
  rcases (s.appendLocked_spec d op faults).2 with ⟨-, hops⟩ | ⟨-, hops⟩ | ⟨-, hops⟩
  · rw [hops]
    exact h
  · rw [hops]
    exact h.forget op
  · rw [hops]
    refine (h.forget op).concat hop fun other hother hsame => ?_
    exact absurd ((sameEntry_of_mem_forget hother).symm.trans hsame) Bool.false_ne_true

/-- What a retraction leaves in memory is kept. -/
theorem kept_retract {s : Store} (h : Kept s.memoryOps) (d : Disk) (surface : Bytes)
    (stillCurrent : Bool) (faults : Faults) :
    Kept (s.retract d surface stillCurrent faults).1.memoryOps := by
  by_cases haccepted : acceptsWord surface = true ∧ stillCurrent = true
  · obtain ⟨haccepts, rfl⟩ := haccepted
    have hop : (deleteOp surface).WellFormed
        ∧ (deleteOp surface).key = englishLookupKey (deleteOp surface).surface :=
      ⟨wellFormed_of_acceptsWord haccepts .delete 0 0, rfl⟩
    -- the operations that are left of the entry hide the word, as the new one does
    have hrest : Kept (s.forgetAdded (deleteOp surface)).memoryOps
        ∧ ∀ other ∈ (s.forgetAdded (deleteOp surface)).memoryOps,
          sameEntry other (deleteOp surface) = true → other.kind = .delete := by
      unfold forgetAdded
      cases hadded : s.addedInMemory (deleteOp surface) with
      | true =>
        refine ⟨h.forget _, fun other hother hsame => ?_⟩
        exact absurd ((sameEntry_of_mem_forget hother).symm.trans hsame) Bool.false_ne_true
      | false => exact ⟨h, h.delete_of_latest hadded⟩
    rcases (hides_retract s d haccepts faults).memoryOps with hops | hops
    · rw [hops]
      exact hrest.1
    · rw [hops]
      exact hrest.1.concat hop fun other hother hsame => ⟨hrest.2 other hother hsame, rfl⟩
  · rw [retract_refused haccepted]
    exact h

/-- **What the answer to an upsert says**: a word that was refused is nowhere new; one that is in
memory only is the latest there; and of one that reached the files the memory
holds nothing. -/
theorem upsert_answer (s : Store) (d : Disk) (surface : Bytes) (frequency : UInt32) (flags : UInt8)
    (stillCurrent : Bool) (faults : Faults) :
    let r := s.upsert d surface frequency flags stillCurrent faults
    let op := upsertOp surface frequency flags
    r.2.2 ∈ [.dropped, .cancelled] ∧ r.1.memoryOps = s.memoryOps
      ∨ r.2.2 = .memoryOnly ∧ latestEnglishJournalOp r.1.memoryOps op.key op.surface = some op
      ∨ r.2.2 ∉ [.memoryOnly, .dropped, .cancelled]
        ∧ latestEnglishJournalOp r.1.memoryOps op.key op.surface = none := by
  intro r op
  simp only [r]
  unfold upsert
  split
  · exact Or.inl ⟨by simp, rfl⟩
  split
  · exact Or.inl ⟨by simp, rfl⟩
  rcases (s.appendLocked_spec d op faults).2 with ⟨hanswer, hops⟩ | ⟨hanswer, hops⟩ | ⟨hanswer, hops⟩
  · exact Or.inl ⟨by rw [hanswer]; simp, hops⟩
  · refine Or.inr (Or.inr ⟨hanswer, ?_⟩)
    rw [hops]
    exact s.latest_forget op
  · refine Or.inr (Or.inl ⟨hanswer, ?_⟩)
    rw [hops]
    exact latest_concat _ op

/-- **After a retraction that was accepted no operation in memory adds the word**, wherever
the retraction stopped. -/
theorem retract_answer (s : Store) (d : Disk) {surface : Bytes} (haccepts : acceptsWord surface = true)
    (faults : Faults) :
    (s.retract d surface true faults).1.addedInMemory (deleteOp surface) = false := by
  rcases (hides_retract s d haccepts faults).memoryOps with hops | hops
  · unfold addedInMemory
    rw [hops]
    unfold forgetAdded
    split
    · rw [latest_forget]
      rfl
    · rename_i hnot
      exact Bool.eq_false_iff.mpr hnot
  · unfold addedInMemory
    rw [hops, latest_concat]
    rfl

/-! ## Runs -/

/-- A call of a store, with what happens to it, or what others do to the files
before the next one. -/
inductive Call
  | lookup (key : Bytes) (faults : Faults)
  | upsert (surface : Bytes) (frequency : UInt32) (flags : UInt8) (stillCurrent : Bool)
      (faults : Faults)
  | remove (surface : Bytes) (faults : Faults)
  | retract (surface : Bytes) (stillCurrent : Bool) (faults : Faults)
  | compact (faults : Faults)
  | resetRuntimeAdditions (lock : Bool) (fault : Option ℕ)
  | elsewhere (d : Disk)

/-- The answer to a call. -/
inductive Answer
  | entries (found : List DictionaryEntry)
  | written (result : WriteResult)
  | retracted (result : RetractResult)
  | done (ok : Bool)
  | none

/-- A call on a store and its files. -/
def step (state : Store × Disk) : Call → (Store × Disk) × Answer
  | .lookup key faults =>
    let (s, d, found) := state.1.lookup state.2 faults key
    ((s, d), .entries found)
  | .upsert surface frequency flags stillCurrent faults =>
    let (s, d, result) := state.1.upsert state.2 surface frequency flags stillCurrent faults
    ((s, d), .written result)
  | .remove surface faults =>
    let (s, d, result) := state.1.remove state.2 surface faults
    ((s, d), .written result)
  | .retract surface stillCurrent faults =>
    let (s, d, result) := state.1.retract state.2 surface stillCurrent faults
    ((s, d), .retracted result)
  | .compact faults =>
    let (s, d, ok) := state.1.compact state.2 faults
    ((s, d), .done ok)
  | .resetRuntimeAdditions lock fault =>
    let (s, d, ok) := state.1.resetRuntimeAdditions state.2 lock fault
    ((s, d), .done ok)
  | .elsewhere d => ((state.1, d), .none)

/-- A lookup leaves the operations in memory and the TSV alone. -/
theorem leaves_lookup (s : Store) (d : Disk) (faults : Faults) (key : Bytes) :
    Leaves s d (s.lookup d faults key).1 (s.lookup d faults key).2.1 :=
  leaves_readAttempts faults maxReadAttempts s d

/-- So does a compaction. -/
theorem leaves_compact (s : Store) (d : Disk) (faults : Faults) :
    Leaves s d (s.compact d faults).1 (s.compact d faults).2.1 := by
  unfold compact
  split
  · exact ⟨rfl, d.tsv_compact _⟩
  · exact ⟨rfl, rfl⟩

/-- A reset forgets the operations in memory, and leaves the TSV alone. -/
theorem resetRuntimeAdditions_spec (s : Store) (d : Disk) (lock : Bool) (fault : Option ℕ) :
    (s.resetRuntimeAdditions d lock fault).1.memoryOps = []
      ∧ (s.resetRuntimeAdditions d lock fault).2.1.tsv = d.tsv := by
  unfold resetRuntimeAdditions
  dsimp only
  split
  · exact ⟨rfl, rfl⟩
  split
  · exact ⟨rfl, tsv_resetEnglishRuntimeFiles _ _ _ _⟩
  · split
    · exact ⟨rfl, rfl⟩
    · exact ⟨rfl, tsv_resetEnglishRuntimeFiles _ _ _ _⟩

/-- **Every call keeps the operations in memory.** -/
theorem kept_step {state : Store × Disk} (h : Kept state.1.memoryOps) (call : Call) :
    Kept (step state call).1.1.memoryOps := by
  obtain ⟨s, d⟩ := state
  cases call with
  | lookup key faults => exact (s.leaves_lookup d faults key).memoryOps ▸ h
  | upsert surface frequency flags stillCurrent faults =>
    show Kept (s.upsert d surface frequency flags stillCurrent faults).1.memoryOps
    unfold upsert
    split
    · exact h
    · rename_i haccepts
      split
      · exact h
      · refine kept_appendLocked h d ⟨wellFormed_of_acceptsWord ?_ .upsert flags frequency, rfl⟩ faults
        simpa using haccepts
  | remove surface faults =>
    show Kept (s.remove d surface faults).1.memoryOps
    unfold remove
    split
    · exact h
    · rename_i haccepts
      refine kept_appendLocked h d ⟨wellFormed_of_acceptsWord ?_ .delete 0 0, rfl⟩ faults
      simpa using haccepts
  | retract surface stillCurrent faults => exact kept_retract h d surface stillCurrent faults
  | compact faults => exact (s.leaves_compact d faults).memoryOps ▸ h
  | resetRuntimeAdditions lock fault =>
    show Kept (s.resetRuntimeAdditions d lock fault).1.memoryOps
    rw [(s.resetRuntimeAdditions_spec d lock fault).1]
    exact kept_nil
  | elsewhere d' => exact h

/-- **No call writes the TSV.** -/
theorem step_tsv (state : Store × Disk) {call : Call} (h : ∀ d, call ≠ .elsewhere d) :
    (step state call).1.2.tsv = state.2.tsv := by
  obtain ⟨s, d⟩ := state
  cases call with
  | lookup key faults => exact (s.leaves_lookup d faults key).tsv
  | upsert surface frequency flags stillCurrent faults =>
    show (s.upsert d surface frequency flags stillCurrent faults).2.1.tsv = d.tsv
    unfold upsert
    split
    · rfl
    split
    · rfl
    · exact (s.appendLocked_spec d _ faults).1
  | remove surface faults =>
    show (s.remove d surface faults).2.1.tsv = d.tsv
    unfold remove
    split
    · rfl
    · exact (s.appendLocked_spec d _ faults).1
  | retract surface stillCurrent faults =>
    show (s.retract d surface stillCurrent faults).2.1.tsv = d.tsv
    by_cases haccepted : acceptsWord surface = true ∧ stillCurrent = true
    · obtain ⟨haccepts, rfl⟩ := haccepted
      exact (hides_retract s d haccepts faults).tsv
    · rw [retract_refused haccepted]
  | compact faults => exact (s.leaves_compact d faults).tsv
  | resetRuntimeAdditions lock fault => exact (s.resetRuntimeAdditions_spec d lock fault).2
  | elsewhere d' => exact absurd rfl (h d')

/-- **The operations in memory over every run**, from a store that was opened. -/
theorem kept_run (d : Disk) (calls : List Call) :
    Kept (Mealy.run step (opened, d) calls).1.1.memoryOps :=
  @Mealy.run_invariant _ _ _ step (fun state => Kept state.1.memoryOps)
    (fun _ call h => kept_step h call) (opened, d) kept_nil calls

end Store

end AzooKey.Host.English

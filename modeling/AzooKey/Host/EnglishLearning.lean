import AzooKey.Core.RomajiKanaConverter
import AzooKey.Host.Dispatcher
import AzooKey.Host.English.Tsv
import AzooKey.Learning.LearningStore
import AzooKey.Lib.Run

/-!
# The English learning channel

`inference-host/src/InferenceEngine.cpp`: the entry points that write to the
learning store of English words. A commit of English counts the word; a commit
of something else than the English that was shown leaves a negative
observation, and English that was typed without capitals lifts it again.

The store is to hold at most `learning_max_records` rows. Each entry point
prunes for itself: `commitEnglishObservation` always,
`applyEnglishNegatives` only when something was rejected. A commit of segments
relies on the latter, so its English segments are counted without a bound when
nothing is rejected. `Fits` is the condition under which nothing goes wrong,
and `size_le_iff_fits` says so of whole runs.
-/

namespace AzooKey.Host

open Ipc English Learning LearningStore

/-! ## Negative observations -/

/-- `HasAsciiUpper`. -/
def hasAsciiUpper (text : Bytes) : Bool := text.any (fun c => 0x41 ≤ c ∧ c ≤ 0x5a)

/-- `kEnglishNegativeObservationPrefix`. -/
def englishNegativeObservationPrefix : Bytes := [0xc2, 0xac]

/-- `EnglishNegativeObservationReading`. -/
def englishNegativeObservationReading (lowerKey : Bytes) : Bytes :=
  englishNegativeObservationPrefix ++ lowerKey

/-- `ReleasedEnglishKeys`. -/
def releasedEnglishKeys (readings : List Bytes) : List Bytes :=
  (readings.filter (fun reading => !reading.isEmpty && !hasAsciiUpper reading)).map
    englishLookupKey

/-- The key of a shown candidate that says, when it is passed over, that the
user did not want English: a candidate with segments, typed without capitals,
that is not what was chosen, does not read as kana and is in the dictionary. -/
def rejectedEnglishKey (knowsWord : Bytes → Bool) (chosenSurface : Bytes)
    (candidate : CandidateField) : Option Bytes :=
  if candidate.segments.isEmpty || !isEnglishObservation candidate.reading candidate.tag
      || hasAsciiUpper candidate.reading then none
  else
    let key := englishLookupKey candidate.reading
    if englishLookupKey chosenSurface = key then none
    else if !(Core.RomajiKanaConverter.convertForCommit key none).any
        (fun c => 0x61 ≤ c ∧ c ≤ 0x7a) then none
    else if !knowsWord key then none
    else some key

/-- **`RejectedEnglishKeys`**: each key once, in the order of the candidates. -/
def rejectedEnglishKeys (knowsWord : Bytes → Bool) (shown : List CandidateField)
    (chosenSurface : Bytes) : List Bytes :=
  shown.foldl (fun keys candidate =>
    match rejectedEnglishKey knowsWord chosenSurface candidate with
    | some key => if key ∈ keys then keys else keys ++ [key]
    | none => keys) []

/-- The row of a negative observation. -/
def negativeRecord (now : UInt64) : Record :=
  { rejectCount := 1, lastEvent := .correctionReject, lastUpdatedEpochSec := now }

/-- **`ApplyEnglishNegativesLocked`.** The store is pruned only if something was
rejected. -/
def applyEnglishNegatives (exp : Double → Double) (store : LearningStore.Store)
    (rejected released : List Bytes) (now : UInt64) (maxRecords : ℕ) (minWeight : Double) :
    LearningStore.Store :=
  let store := rejected.foldl (fun store key =>
    store.set (englishNegativeObservationReading key) key (negativeRecord now)) store
  let store := released.foldl (fun store key =>
    (store.forget (englishNegativeObservationReading key) key).1) store
  if rejected.isEmpty then store else store.prune exp maxRecords minWeight now

/-! ## The entry points -/

/-- The part of `InferenceEngineConfig` that learning reads. -/
structure LearningConfig where
  learningAlpha : Double
  learningMaxRecords : ℕ
  learningMinWeight : Double

/-- The engine and its store for English words. -/
structure EnglishChannel where
  engine : Engine
  store : LearningStore.Store

/-- The calls that write to the channel. -/
inductive EnglishCall
  | commitEnglishObservation (rawRomaji surface : Bytes) (now : UInt64) (observationId : Bytes)
  | commitSegmentsObservation (request : CommitSegmentsObservationRequest) (now : UInt64)
  | recordRejectedEnglish (shown : List CandidateField) (chosenSurface : Bytes) (now : UInt64)
  | flushLearningStore

/-- A call with what it meets: the words that the dictionary knows, whether the
converter throws when it is told of a commit, and whether the file can be
written. -/
structure EnglishInput where
  call : EnglishCall
  knowsWord : Bytes → Bool
  converterThrows : Bool
  fileWritten : Bool

/-- `SaveEnglishStoreLocked`. -/
def saveEnglishStore (store : LearningStore.Store) (fileWritten : Bool) : LearningStore.Store :=
  if store.dirty && fileWritten && !store.saveBlockedByLoadFailure then
    { store with dirty := false, preserveBeforeSave := false }
  else store

/-- A segment that is English. -/
def isEnglishSegment (segment : ObservedSegment) : Bool :=
  isEnglishObservation segment.reading segment.chosen.tag

/-- The keys that a commit of segments rejects. -/
def rejectedOf (knowsWord : Bytes → Bool) (segments : List ObservedSegment) : List Bytes :=
  (segments.filter (fun segment => !segment.isAutoPunctuation && !isEnglishSegment segment)).flatMap
    (fun segment => rejectedEnglishKeys knowsWord segment.shown segment.chosen.surface)

/-- The keys that a commit of segments releases. -/
def releasedOf (segments : List ObservedSegment) : List Bytes :=
  (segments.filter (fun segment => !segment.isAutoPunctuation && isEnglishSegment segment)).flatMap
    (fun segment => releasedEnglishKeys [segment.reading])

/-- The store after the English segments were counted. -/
def observeEnglishSegments (alpha : Double) (now : UInt64) (store : LearningStore.Store)
    (segments : List ObservedSegment) : LearningStore.Store :=
  (segments.filter isEnglishSegment).foldl (fun store segment =>
    store.observe (englishLookupKey segment.reading) segment.chosen.surface alpha now) store

section Calls

variable (exp : Double → Double) (config : LearningConfig)

/-- **`CommitEnglishObservation`.** -/
def commitEnglishObservation (c : EnglishChannel) (rawRomaji surface : Bytes) (now : UInt64)
    (observationId : Bytes) (fileWritten : Bool) : EnglishChannel :=
  if c.engine.hasEnglishStore then
    let noted := c.engine.noteObservationId observationId
    if noted.1 then
      let store := c.store.observe (englishLookupKey rawRomaji) surface config.learningAlpha now
      let store := applyEnglishNegatives exp store [] (releasedEnglishKeys [rawRomaji]) now 0 zero
      let store := store.prune exp config.learningMaxRecords config.learningMinWeight now
      ⟨noted.2, saveEnglishStore store fileWritten⟩
    else ⟨noted.2, c.store⟩
  else c

/-- **`CommitSegmentsObservation`**, as far as it concerns the English channel. -/
def commitSegmentsObservation (c : EnglishChannel) (request : CommitSegmentsObservationRequest)
    (now : UInt64) (knowsWord : Bytes → Bool) (converterThrows fileWritten : Bool) :
    EnglishChannel :=
  let rejected := rejectedOf knowsWord request.segments
  let released := releasedOf request.segments
  let noted := c.engine.noteObservationId request.observationId
  if noted.1 && !converterThrows && (request.segments.any isEnglishSegment || !rejected.isEmpty)
      && c.engine.hasEnglishStore then
    let store := observeEnglishSegments config.learningAlpha now c.store request.segments
    let store := applyEnglishNegatives exp store rejected released now config.learningMaxRecords
      config.learningMinWeight
    ⟨noted.2, saveEnglishStore store fileWritten⟩
  else ⟨noted.2, c.store⟩

/-- **`RecordRejectedEnglish`.** -/
def recordRejectedEnglish (c : EnglishChannel) (shown : List CandidateField) (chosenSurface : Bytes)
    (now : UInt64) (knowsWord : Bytes → Bool) (fileWritten : Bool) : EnglishChannel :=
  let rejected := rejectedEnglishKeys knowsWord shown chosenSurface
  if rejected.isEmpty || !c.engine.hasEnglishStore then c
  else
    let store := applyEnglishNegatives exp c.store rejected [] now config.learningMaxRecords
      config.learningMinWeight
    { c with store := saveEnglishStore store fileWritten }

/-- A call. -/
def EnglishChannel.step (c : EnglishChannel) (input : EnglishInput) : EnglishChannel :=
  match input.call with
  | .commitEnglishObservation rawRomaji surface now observationId =>
    commitEnglishObservation exp config c rawRomaji surface now observationId input.fileWritten
  | .commitSegmentsObservation request now =>
    commitSegmentsObservation exp config c request now input.knowsWord input.converterThrows
      input.fileWritten
  | .recordRejectedEnglish shown chosenSurface now =>
    recordRejectedEnglish exp config c shown chosenSurface now input.knowsWord input.fileWritten
  | .flushLearningStore =>
    if c.engine.hasEnglishStore then
      { c with store := saveEnglishStore c.store input.fileWritten }
    else c

end Calls

/-! ## When the store stays bounded -/

/-- The rows of the English segments of a commit. -/
def englishSegmentKeys (segments : List ObservedSegment) : Finset Key :=
  ((segments.filter isEnglishSegment).map (fun segment =>
    (⟨englishLookupKey segment.reading, segment.chosen.surface, []⟩ : Key))).toFinset

/-- **A call that the store has room for.** Only a commit of segments may not
have it: when it is counted and rejects nothing, the rows of its English
segments have to fit beside those that are there. -/
def Fits (m : ℕ) (c : EnglishChannel) (input : EnglishInput) : Prop :=
  ∀ request now, input.call = .commitSegmentsObservation request now →
    (c.engine.noteObservationId request.observationId).1 = true → input.converterThrows = false →
      c.engine.hasEnglishStore = true → rejectedOf input.knowsWord request.segments = [] →
        (c.store.table.keys ∪ englishSegmentKeys request.segments).card ≤ m

/-- Saving leaves the rows alone. -/
@[simp] theorem table_saveEnglishStore (store : LearningStore.Store) (fileWritten : Bool) :
    (saveEnglishStore store fileWritten).table = store.table := by
  unfold saveEnglishStore
  split <;> rfl

/-- Saving leaves the number of rows alone. -/
@[simp] theorem size_saveEnglishStore (store : LearningStore.Store) (fileWritten : Bool) :
    (saveEnglishStore store fileWritten).size = store.size := by
  unfold LearningStore.Store.size
  rw [table_saveEnglishStore]

/-- **The rows after English segments were counted.** -/
theorem keys_observeEnglishSegments (alpha : Double) (now : UInt64) (store : LearningStore.Store)
    (segments : List ObservedSegment) :
    (observeEnglishSegments alpha now store segments).table.keys
      = store.table.keys ∪ englishSegmentKeys segments := by
  unfold observeEnglishSegments englishSegmentKeys
  induction segments.filter isEnglishSegment generalizing store with
  | nil => simp
  | cons segment segments ih =>
    rw [List.foldl_cons, ih, keys_observe, List.map_cons, List.toFinset_cons, Finset.insert_union,
      Finset.union_insert]

/-- **Without a rejection the negative observations leave the rows where they
are.** -/
theorem keys_applyEnglishNegatives_nil (exp : Double → Double) (store : LearningStore.Store)
    (released : List Bytes) (now : UInt64) (maxRecords : ℕ) (minWeight : Double) :
    (applyEnglishNegatives exp store [] released now maxRecords minWeight).table.keys
      = store.table.keys := by
  show (released.foldl (fun store key =>
    (store.forget (englishNegativeObservationReading key) key).1) store).table.keys = _
  induction released generalizing store with
  | nil => rfl
  | cons key released ih => rw [List.foldl_cons, ih, keys_forget]

/-- **With a rejection the store is pruned.** -/
theorem size_applyEnglishNegatives_le (exp : Double → Double) (store : LearningStore.Store)
    {rejected : List Bytes} (hrejected : rejected ≠ []) (released : List Bytes) (now : UInt64)
    {maxRecords : ℕ} (hmax : 0 < maxRecords) (minWeight : Double) :
    (applyEnglishNegatives exp store rejected released now maxRecords minWeight).size
      ≤ maxRecords := by
  unfold applyEnglishNegatives
  dsimp only
  rw [if_neg (by simpa using hrejected)]
  exact size_prune_le exp _ hmax minWeight now

section Bound

variable (exp : Double → Double) (config : LearningConfig) {m : ℕ} {c : EnglishChannel}

/-- A commit of English keeps the bound. -/
theorem size_commitEnglishObservation_le (hm : config.learningMaxRecords = m) (hpos : 0 < m)
    (hc : c.store.size ≤ m) (rawRomaji surface : Bytes) (now : UInt64) (observationId : Bytes)
    (fileWritten : Bool) :
    (commitEnglishObservation exp config c rawRomaji surface now observationId
      fileWritten).store.size ≤ m := by
  unfold commitEnglishObservation
  split
  · dsimp only
    split
    · rw [size_saveEnglishStore, hm]
      exact size_prune_le exp _ hpos _ now
    · exact hc
  · exact hc

/-- Rejected English keeps the bound. -/
theorem size_recordRejectedEnglish_le (hm : config.learningMaxRecords = m) (hpos : 0 < m)
    (hc : c.store.size ≤ m) (shown : List CandidateField) (chosenSurface : Bytes) (now : UInt64)
    (knowsWord : Bytes → Bool) (fileWritten : Bool) :
    (recordRejectedEnglish exp config c shown chosenSurface now knowsWord
      fileWritten).store.size ≤ m := by
  unfold recordRejectedEnglish
  dsimp only
  split
  · exact hc
  · rename_i hsome
    rw [Bool.or_eq_true, not_or, List.isEmpty_iff] at hsome
    rw [size_saveEnglishStore, hm]
    exact size_applyEnglishNegatives_le exp c.store hsome.1 [] now hpos _

/-- **A commit of segments keeps the bound if and only if it fits.** -/
theorem size_commitSegmentsObservation_le_iff (hm : config.learningMaxRecords = m) (hpos : 0 < m)
    (hc : c.store.size ≤ m) (request : CommitSegmentsObservationRequest) (now : UInt64)
    (knowsWord : Bytes → Bool) (converterThrows fileWritten : Bool) :
    (commitSegmentsObservation exp config c request now knowsWord converterThrows
        fileWritten).store.size ≤ m
      ↔ Fits m c ⟨.commitSegmentsObservation request now, knowsWord, converterThrows,
          fileWritten⟩ := by
  have hfits : Fits m c ⟨.commitSegmentsObservation request now, knowsWord, converterThrows,
        fileWritten⟩
      ↔ ((c.engine.noteObservationId request.observationId).1 = true → converterThrows = false →
          c.engine.hasEnglishStore = true → rejectedOf knowsWord request.segments = [] →
            (c.store.table.keys ∪ englishSegmentKeys request.segments).card ≤ m) := by
    constructor
    · exact fun h => h request now rfl
    · intro h request' now' heq
      obtain ⟨rfl, rfl⟩ := EnglishCall.commitSegmentsObservation.inj heq
      exact h
  rw [hfits]
  unfold commitSegmentsObservation
  dsimp only
  split
  · rename_i happlies
    simp only [Bool.and_eq_true, Bool.not_eq_true'] at happlies
    obtain ⟨⟨⟨hnoted, hthrows⟩, -⟩, hstore⟩ := happlies
    rw [size_saveEnglishStore, hm]
    by_cases hrejected : rejectedOf knowsWord request.segments = []
    · -- nothing is pruned: the rows are those of before and of the English segments
      have hsize : (applyEnglishNegatives exp
          (observeEnglishSegments config.learningAlpha now c.store request.segments)
          (rejectedOf knowsWord request.segments) (releasedOf request.segments) now m
          config.learningMinWeight).size
          = (c.store.table.keys ∪ englishSegmentKeys request.segments).card := by
        rw [hrejected, LearningStore.Store.size, OrderedMap.size_eq_card_keys,
          keys_applyEnglishNegatives_nil, keys_observeEnglishSegments]
      rw [hsize]
      exact ⟨fun h _ _ _ _ => h, fun h => h hnoted hthrows hstore hrejected⟩
    · exact ⟨fun _ _ _ _ h => absurd h hrejected,
        fun _ => size_applyEnglishNegatives_le exp _ hrejected _ now hpos _⟩
  · rename_i hnot
    refine ⟨fun _ hnoted hthrows hstore hrejected => ?_, fun _ => hc⟩
    -- a commit that is counted and passed over has no English segment
    have hnone : request.segments.filter isEnglishSegment = [] := by
      by_contra hsome
      obtain ⟨segment, hsegment⟩ := List.exists_mem_of_ne_nil _ hsome
      have hany : request.segments.any isEnglishSegment = true :=
        List.any_eq_true.mpr ⟨segment, List.mem_filter.mp hsegment⟩
      exact hnot (by simp [hnoted, hthrows, hstore, hany])
    rw [englishSegmentKeys, hnone, List.map_nil, List.toFinset_nil, Finset.union_empty,
      ← OrderedMap.size_eq_card_keys]
    exact hc

/-- **A call keeps the bound if and only if it fits.** -/
theorem size_step_le_iff (hm : config.learningMaxRecords = m) (hpos : 0 < m)
    (hc : c.store.size ≤ m) (input : EnglishInput) :
    (c.step exp config input).store.size ≤ m ↔ Fits m c input := by
  obtain ⟨call, knowsWord, converterThrows, fileWritten⟩ := input
  cases call with
  | commitEnglishObservation rawRomaji surface now observationId =>
    exact iff_of_true (size_commitEnglishObservation_le exp config hm hpos hc _ _ _ _ _)
      (fun request now h => EnglishCall.noConfusion h)
  | commitSegmentsObservation request now =>
    exact size_commitSegmentsObservation_le_iff exp config hm hpos hc request now _ _ _
  | recordRejectedEnglish shown chosenSurface now =>
    exact iff_of_true (size_recordRejectedEnglish_le exp config hm hpos hc _ _ _ _ _)
      (fun request now h => EnglishCall.noConfusion h)
  | flushLearningStore =>
    refine iff_of_true ?_ (fun request now h => EnglishCall.noConfusion h)
    show (if c.engine.hasEnglishStore then _ else c).store.size ≤ m
    split
    · rw [size_saveEnglishStore]
      exact hc
    · exact hc

end Bound

/-- **The English store stays bounded if and only if every commit of segments
fits.** Of a run that starts with at most `m` rows, the number of rows is at
most `m` after every call exactly if every call found room, in the sense of
`Fits`, in the store that it met. -/
theorem size_le_iff_fits (exp : Double → Double) (config : LearningConfig) (m : ℕ)
    (c : EnglishChannel) (inputs : List EnglishInput) (hm : config.learningMaxRecords = m)
    (hpos : 0 < m) (hc : c.store.size ≤ m) :
    Run.Always (fun c input => some (c.step exp config input)) (fun _ _ c' => c'.store.size ≤ m) c
        inputs
      ↔ Run.Guarded (fun c input => some (c.step exp config input)) (Fits m) c inputs := by
  constructor
  · refine Run.guarded_of_always (I := fun c => c.store.size ≤ m) (fun c input c' hc htake hR => ?_) hc
    obtain rfl := Option.some.inj htake
    exact ⟨(size_step_le_iff exp config hm hpos hc input).mp hR, hR⟩
  · refine Run.always_of_guarded (I := fun c => c.store.size ≤ m) (fun c input hc hfits => ?_) hc
    have hsize := (size_step_le_iff exp config hm hpos hc input).mpr hfits
    exact ⟨_, rfl, hsize, hsize⟩

/-- A segment of one English word. -/
def englishSegment (word : Bytes) : ObservedSegment :=
  ⟨word, ⟨word, word, zero, [], [], 4, []⟩, [], false⟩

/-- A commit of two English words, with nothing shown beside them. -/
def twoWords : EnglishInput where
  call := .commitSegmentsObservation
    ⟨[englishSegment (utf8 "git"), englishSegment (utf8 "hub")], [], 0, [], false, true, none⟩ 0
  knowsWord := fun _ => false
  converterThrows := false
  fileWritten := true

/-- An empty English store. -/
def emptyChannel : EnglishChannel := ⟨⟨true, []⟩, {}⟩

/-- A weight of a commit of one and no threshold. -/
def roomFor (m : ℕ) : LearningConfig := ⟨.round false 1, m, zero⟩

/-- **The bound does not hold**: two English words of one commit are two rows of
a store for one. -/
theorem not_size_le_twoWords :
    ¬ ∀ (exp : Double → Double) (config : LearningConfig) (m : ℕ) (c : EnglishChannel)
      (inputs : List EnglishInput), config.learningMaxRecords = m → 0 < m → c.store.size ≤ m →
        Run.Always (fun c input => some (c.step exp config input)) (fun _ _ c' => c'.store.size ≤ m)
          c inputs := by
  intro h
  obtain ⟨c', htake, hsize, -⟩ := h id (roomFor 1) 1 emptyChannel [twoWords] rfl one_pos
    (by decide)
  obtain rfl := Option.some.inj htake
  exact absurd hsize (by decide)

/-- A store for two has room for them. -/
theorem size_le_iff_fits_twoWords :
    Run.Always (fun c input => some (c.step id (roomFor 2) input)) (fun _ _ c' => c'.store.size ≤ 2)
      emptyChannel [twoWords] := by
  refine (size_le_iff_fits id (roomFor 2) 2 emptyChannel [twoWords] rfl two_pos (by decide)).mpr
    ⟨?_, fun _ _ => trivial⟩
  intro request now heq _ _ _ _
  obtain ⟨rfl, rfl⟩ := EnglishCall.commitSegmentsObservation.inj heq
  decide

end AzooKey.Host

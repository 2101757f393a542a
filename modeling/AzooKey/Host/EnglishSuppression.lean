import AzooKey.Host.EnglishLearning
import AzooKey.Learning.LearningStoreFiles

/-!
# The cache of suppressed English

`inference-host/src/InferenceEngine.cpp` and `InferenceEngineLearningData.cpp`:
English that the user passed over is not offered again. Whether a key is
suppressed is asked on every keystroke, which must not wait while a commit
saves the store of English words; it is answered from a cache then.

Every call that writes to the store updates the cache in its own way: the key
alone, the keys that are still there after a prune, or the whole. `Sound` says
that no key is left in the cache that the store does not suppress, and every
call keeps it (`sound_step`), so the cache is right after every call
(`suppressed_always`).
-/

namespace AzooKey.Host

open Ipc English Learning LearningStore

/-! ## The calls -/

/-- `LearningDataStore`. -/
inductive LearningDataStore
  | learning
  | userDictionary
  | typo
  | autoWord
deriving DecidableEq

/-- The engine with its store for English words and `english_suppressed_cache_`. -/
structure SuppressingChannel where
  channel : EnglishChannel
  cache : Finset Bytes

/-- The calls that read or write the cache. An entry is what the identifier of
`ForgetLearningEntry` names, and an item what the archive of
`ImportLearningData` has for the English channel. -/
inductive SuppressionCall
  | commitEnglishObservation (rawRomaji surface : Bytes) (now : UInt64) (observationId : Bytes)
  | commitSegmentsObservation (request : CommitSegmentsObservationRequest) (now : UInt64)
  | recordRejectedEnglish (shown : List CandidateField) (chosenSurface : Bytes) (now : UInt64)
  | isEnglishSuppressed (lowerKey : Bytes)
  | forgetLearningEntry (store : LearningDataStore) (entry : Option (Channel × Bytes × Bytes))
  | resetLearningStore (store : LearningDataStore)
  | importLearningData (selected : List LearningDataStore) (item : Option Bytes)
    (policy : ImportConflictPolicy)
  | setEnglishLearningStore (store : Option LearningStore.Store)

/-- A call with what it meets: the words that the dictionary knows, whether the
converter throws, whether the file can be written, whether the lock is free, and
for the calls on the learning data whether they can read what they need
(`readable`), whether the other stores allow the change (`othersAllow`), whether
everything is saved, and whether saving throws. -/
structure SuppressionInput where
  call : SuppressionCall
  knowsWord : Bytes → Bool
  converterThrows : Bool
  fileWritten : Bool
  lockFree : Bool
  readable : Bool
  othersAllow : Bool
  allSaved : Bool
  saveThrows : Bool

/-- The rows of a key's negative observation. -/
def negativeRows (store : LearningStore.Store) (key : Bytes) : List (Key × Record) :=
  pairRows store.table (englishNegativeObservationReading key) key

/-- The end of `ApplyEnglishNegativesLocked`: the cache after the store was
changed. -/
def cacheNegatives (store : LearningStore.Store) (cache : Finset Bytes)
    (rejected released : List Bytes) : Finset Bytes :=
  let cache := if rejected.isEmpty then cache else ∅
  let cache := rejected.foldl (fun cache key =>
    if negativeRows store key = [] then cache else insert key cache) cache
  released.foldl (fun cache key => cache.erase key) cache

section Calls

variable (exp : Double → Double) (config : LearningConfig)

/-- **`CommitEnglishObservation`.** The prune may drop negative observations, so
the cache is cleared. -/
def SuppressingChannel.commitEnglishObservation (s : SuppressingChannel)
    (rawRomaji surface : Bytes) (now : UInt64) (observationId : Bytes) (fileWritten : Bool) :
    SuppressingChannel where
  channel := Host.commitEnglishObservation exp config s.channel rawRomaji surface now observationId
    fileWritten
  cache :=
    if s.channel.engine.hasEnglishStore && (s.channel.engine.noteObservationId observationId).1 then ∅
    else s.cache

/-- **`CommitSegmentsObservation`**, as far as it concerns the English channel. -/
def SuppressingChannel.commitSegmentsObservation (s : SuppressingChannel)
    (request : CommitSegmentsObservationRequest) (now : UInt64) (knowsWord : Bytes → Bool)
    (converterThrows fileWritten : Bool) : SuppressingChannel :=
  let c := Host.commitSegmentsObservation exp config s.channel request now knowsWord converterThrows
    fileWritten
  let rejected := rejectedOf knowsWord request.segments
  if (s.channel.engine.noteObservationId request.observationId).1 && !converterThrows
      && (request.segments.any isEnglishSegment || !rejected.isEmpty)
      && s.channel.engine.hasEnglishStore then
    ⟨c, cacheNegatives c.store s.cache rejected (releasedOf request.segments)⟩
  else ⟨c, s.cache⟩

/-- **`RecordRejectedEnglish`.** -/
def SuppressingChannel.recordRejectedEnglish (s : SuppressingChannel) (shown : List CandidateField)
    (chosenSurface : Bytes) (now : UInt64) (knowsWord : Bytes → Bool) (fileWritten : Bool) :
    SuppressingChannel :=
  let c := Host.recordRejectedEnglish exp config s.channel shown chosenSurface now knowsWord
    fileWritten
  let rejected := rejectedEnglishKeys knowsWord shown chosenSurface
  if rejected.isEmpty || !s.channel.engine.hasEnglishStore then ⟨c, s.cache⟩
  else ⟨c, cacheNegatives c.store s.cache rejected []⟩

/-- **`IsEnglishSuppressed`**: the answer, and the cache that remembers it. While
another call holds the lock, the cache answers. -/
def SuppressingChannel.isEnglishSuppressed (s : SuppressingChannel) (lowerKey : Bytes)
    (lockFree : Bool) : Bool × SuppressingChannel :=
  if lockFree then
    let suppressed := s.channel.engine.hasEnglishStore
      && (negativeRows s.channel.store lowerKey).any (fun row => 0 < row.2.rejectCount)
    (suppressed,
      { s with cache := if suppressed then insert lowerKey s.cache else s.cache.erase lowerKey })
  else (lowerKey ∈ s.cache, s)

/-- `PublishLearningSnapshotsLocked`. -/
def SuppressingChannel.publish (s : SuppressingChannel) (snapshot : LearningStore.Store) :
    SuppressingChannel :=
  ⟨if s.channel.engine.hasEnglishStore then { s.channel with store := snapshot } else s.channel, ∅⟩

/-- **`ForgetPairSnapshot`**, as far as it concerns the English channel. -/
def SuppressingChannel.forgetPairSnapshot (s : SuppressingChannel) (channel : Channel)
    (reading surface : Bytes) (fileWritten saveThrows : Bool) : SuppressingChannel :=
  let snapshot :=
    if channel = .english then (s.channel.store.forget reading surface).1 else s.channel.store
  if saveThrows then s else s.publish (saveEnglishStore snapshot fileWritten)

/-- **`ForgetLearningEntry`.** An entry of the English channel is found only
where there is one. -/
def SuppressingChannel.forgetLearningEntry (s : SuppressingChannel) (store : LearningDataStore)
    (entry : Option (Channel × Bytes × Bytes)) (fileWritten saveThrows : Bool) :
    SuppressingChannel :=
  match store, entry with
  | .learning, some (channel, reading, surface) =>
    if channel = .english && !s.channel.engine.hasEnglishStore then s
    else s.forgetPairSnapshot channel reading surface fileWritten saveThrows
  | _, _ => s

/-- **`ResetLearningChannels`**, as far as it concerns the English channel. If not
everything is saved, the rows come back from the text. -/
def SuppressingChannel.resetLearningChannels (s : SuppressingChannel)
    (fileWritten othersAllow allSaved saveThrows : Bool) : SuppressingChannel :=
  let before := s.channel.store
  if !othersAllow || (s.channel.engine.hasEnglishStore && before.saveBlockedByLoadFailure) then s
  else if saveThrows then s
  else
    let snapshot := saveEnglishStore before.reset fileWritten
    if allSaved then s.publish snapshot
    else s.publish (saveEnglishStore (snapshot.loadText before.serializeText).2 fileWritten)

/-- **`ResetLearningStore`.** -/
def SuppressingChannel.resetLearningStore (s : SuppressingChannel) (store : LearningDataStore)
    (fileWritten othersAllow allSaved saveThrows : Bool) : SuppressingChannel :=
  match store with
  | .learning => s.resetLearningChannels fileWritten othersAllow allSaved saveThrows
  | _ => s

/-- **`ImportLearningData`**, as far as it concerns the English channel: the rows
of the item are merged when all items can be read and no store is blocked. -/
def SuppressingChannel.importLearningData (s : SuppressingChannel)
    (selected : List LearningDataStore) (item : Option Bytes) (policy : ImportConflictPolicy)
    (fileWritten readable othersAllow : Bool) : SuppressingChannel :=
  if !readable then s
  else
    let concerned := s.channel.engine.hasEnglishStore && decide (.learning ∈ selected)
    let scratch := if concerned then item.map (fun text => ({} : LearningStore.Store).loadText text)
      else none
    if !othersAllow || (concerned && s.channel.store.saveBlockedByLoadFailure)
        || scratch.any (fun loaded => !loaded.1) then { s with cache := ∅ }
    else
      let store := scratch.elim s.channel.store
        (fun loaded => (s.channel.store.merge loaded.2 policy).1)
      ⟨{ s.channel with store := saveEnglishStore store fileWritten }, ∅⟩

/-- `SetEnglishLearningStore`. -/
def SuppressingChannel.setEnglishLearningStore (s : SuppressingChannel)
    (store : Option LearningStore.Store) : SuppressingChannel :=
  ⟨⟨{ s.channel.engine with hasEnglishStore := store.isSome }, store.getD s.channel.store⟩, ∅⟩

/-- A call. -/
def SuppressingChannel.step (s : SuppressingChannel) (input : SuppressionInput) :
    SuppressingChannel :=
  match input.call with
  | .commitEnglishObservation rawRomaji surface now observationId =>
    s.commitEnglishObservation exp config rawRomaji surface now observationId input.fileWritten
  | .commitSegmentsObservation request now =>
    s.commitSegmentsObservation exp config request now input.knowsWord input.converterThrows
      input.fileWritten
  | .recordRejectedEnglish shown chosenSurface now =>
    s.recordRejectedEnglish exp config shown chosenSurface now input.knowsWord input.fileWritten
  | .isEnglishSuppressed lowerKey => (s.isEnglishSuppressed lowerKey input.lockFree).2
  | .forgetLearningEntry store entry =>
    s.forgetLearningEntry store entry input.fileWritten input.saveThrows
  | .resetLearningStore store =>
    s.resetLearningStore store input.fileWritten input.othersAllow input.allSaved input.saveThrows
  | .importLearningData selected item policy =>
    s.importLearningData selected item policy input.fileWritten input.readable input.othersAllow
  | .setEnglishLearningStore store => s.setEnglishLearningStore store

end Calls

/-! ## What the operations of the store do to negative observations -/

/-- **A key is suppressed**: a row of its negative observation was rejected. -/
def Suppressed (t : Table) (key : Bytes) : Prop :=
  ∃ appName rec, t.find? ⟨englishNegativeObservationReading key, key, appName⟩ = some rec
    ∧ 0 < rec.rejectCount

/-- Every row of a key's negative observation was rejected. -/
def AllRejected (t : Table) (key : Bytes) : Prop :=
  ∀ appName rec, t.find? ⟨englishNegativeObservationReading key, key, appName⟩ = some rec →
    0 < rec.rejectCount

/-- The rows of a key's negative observation. -/
theorem mem_negativeRows {store : LearningStore.Store} {key : Bytes} {row : Key × Record} :
    row ∈ negativeRows store key ↔ ∃ appName,
      row.1 = ⟨englishNegativeObservationReading key, key, appName⟩
        ∧ store.table.find? row.1 = some row.2 := by
  obtain ⟨⟨reading, surface, appName⟩, rec⟩ := row
  rw [negativeRows, pairRows, List.mem_filter, ← OrderedMap.find?_eq_some_iff]
  constructor
  · rintro ⟨hfound, hpair⟩
    obtain ⟨rfl, rfl⟩ : reading = _ ∧ surface = _ := of_decide_eq_true hpair
    exact ⟨appName, rfl, hfound⟩
  · rintro ⟨appName', hkey, hfound⟩
    obtain ⟨rfl, rfl, rfl⟩ := Key.mk.inj hkey
    exact ⟨hfound, decide_eq_true ⟨rfl, rfl⟩⟩

/-- What is suppressed has a row that was rejected. -/
theorem suppressed_iff {store : LearningStore.Store} {key : Bytes} :
    Suppressed store.table key ↔ ∃ row ∈ negativeRows store key, 0 < row.2.rejectCount := by
  constructor
  · rintro ⟨appName, rec, hfound, hrejected⟩
    exact ⟨(⟨_, key, appName⟩, rec), mem_negativeRows.mpr ⟨appName, rfl, hfound⟩, hrejected⟩
  · rintro ⟨⟨_, rec⟩, hrow, hrejected⟩
    obtain ⟨appName, rfl, hfound⟩ := mem_negativeRows.mp hrow
    exact ⟨appName, rec, hfound, hrejected⟩

/-- A key with rows, all of them rejected, is suppressed. -/
theorem AllRejected.suppressed {store : LearningStore.Store} {key : Bytes}
    (h : AllRejected store.table key) (hne : negativeRows store key ≠ []) :
    Suppressed store.table key := by
  obtain ⟨row, rows, hrows⟩ := List.exists_cons_of_ne_nil hne
  obtain ⟨⟨reading, surface, appName⟩, rec⟩ := row
  have hmem : (⟨reading, surface, appName⟩, rec) ∈ negativeRows store key := by
    rw [hrows]
    exact List.mem_cons_self
  obtain ⟨appName', hkey, hfound⟩ := mem_negativeRows.mp hmem
  rw [hkey] at hfound
  exact ⟨appName', rec, hfound, h appName' rec hfound⟩

/-- The rows of two keys are apart. -/
theorem not_ofPair {key key' : Bytes} (hne : key ≠ key') (appName : Bytes) :
    (⟨englishNegativeObservationReading key, key, appName⟩ : Key).ofPair
      (englishNegativeObservationReading key') key' = false :=
  decide_eq_false (fun h => hne h.2)

section Store

variable {store : LearningStore.Store} {key : Bytes}

/-- **A commit lifts no suppression.** -/
theorem Suppressed.observe (h : Suppressed store.table key) (reading surface : Bytes)
    (alpha : Double) (now : UInt64) :
    Suppressed (store.observe reading surface alpha now).table key := by
  obtain ⟨appName, rec, hfound, hrejected⟩ := h
  unfold LearningStore.Store.observe LearningStore.Store.observeEvent
  rw [if_neg (show EventType.commit ≠ .none from EventType.noConfusion)]
  dsimp only
  by_cases hkey : (⟨englishNegativeObservationReading key, key, appName⟩ : Key)
      = (⟨reading, surface, [], .commit, []⟩ : Observation).key
  · refine ⟨appName, _, by rw [OrderedMap.find?_assign, if_pos hkey], ?_⟩
    rw [observedRecord, ← hkey, hfound]
    exact hrejected
  · exact ⟨appName, rec, by rw [OrderedMap.find?_assign, if_neg hkey]; exact hfound, hrejected⟩

/-- The English segments of a commit lift no suppression. -/
theorem Suppressed.observeEnglishSegments (h : Suppressed store.table key) (alpha : Double)
    (now : UInt64) (segments : List ObservedSegment) :
    Suppressed (observeEnglishSegments alpha now store segments).table key := by
  unfold Host.observeEnglishSegments
  induction segments.filter isEnglishSegment generalizing store with
  | nil => exact h
  | cons segment segments ih => exact ih (h.observe _ _ _ _)

/-- What is found after a pair is forgotten, of another pair. -/
theorem find?_forget (reading surface : Bytes) {k : Key} (hk : k.ofPair reading surface = false) :
    (store.forget reading surface).1.table.find? k = store.table.find? k := by
  unfold LearningStore.Store.forget
  split
  · rfl
  · dsimp only
    rw [OrderedMap.find?_mapValues, hk]
    cases store.table.find? k with
    | none => rfl
    | some rec => rfl

/-- **The keys that are released say nothing about the others.** -/
theorem find?_forget_released {released : List Bytes} (hkey : key ∉ released) (appName : Bytes) :
    (released.foldl (fun store key =>
        (store.forget (englishNegativeObservationReading key) key).1) store).table.find?
          ⟨englishNegativeObservationReading key, key, appName⟩
      = store.table.find? ⟨englishNegativeObservationReading key, key, appName⟩ := by
  induction released generalizing store with
  | nil => rfl
  | cons key' released ih =>
    rw [List.mem_cons, not_or] at hkey
    rw [List.foldl_cons, ih hkey.2, find?_forget _ _ (not_ofPair hkey.1 appName)]

/-- A negative observation that is set is rejected. -/
theorem allRejected_set (hkey : key ≠ []) (now : UInt64) :
    AllRejected (store.set (englishNegativeObservationReading key) key (negativeRecord now)).table
      key := by
  intro appName rec hfound
  have hreading : englishNegativeObservationReading key ≠ [] :=
    List.append_ne_nil_of_left_ne_nil (List.cons_ne_nil _ _) _
  unfold LearningStore.Store.set at hfound
  rw [if_neg (fun h => h.elim hreading hkey)] at hfound
  dsimp only at hfound
  rw [OrderedMap.find?_assign] at hfound
  split at hfound
  · rw [← Option.some.inj hfound]
    show (0 : UInt64) < min 1 maxLearningCount
    decide
  · rw [OrderedMap.find?_filter] at hfound
    obtain ⟨-, hkept⟩ := Option.filter_eq_some_iff.mp hfound
    simp [Key.ofPair] at hkept

/-- Setting another one does not change it. -/
theorem AllRejected.set (h : AllRejected store.table key) (key' : Bytes) (now : UInt64) :
    AllRejected (store.set (englishNegativeObservationReading key') key' (negativeRecord now)).table
      key := by
  by_cases hsame : key = key'
  · by_cases hkey : key' = []
    · unfold LearningStore.Store.set
      rw [if_pos (Or.inr hkey)]
      exact h
    · rw [hsame]
      exact allRejected_set hkey now
  · intro appName rec hfound
    unfold LearningStore.Store.set at hfound
    split at hfound
    · exact h appName rec hfound
    · dsimp only at hfound
      rw [OrderedMap.find?_assign] at hfound
      split at hfound
      · rename_i heq
        exact absurd (Key.mk.inj heq).2.1 hsame
      · rw [OrderedMap.find?_filter] at hfound
        exact h appName rec (Option.filter_eq_some_iff.mp hfound).1

/-- **Every key that is rejected has only rows that were.** -/
theorem allRejected_foldl_set {rejected : List Bytes} (hkey : key ∈ rejected)
    (hne : ∀ key ∈ rejected, key ≠ []) (now : UInt64) :
    AllRejected (rejected.foldl (fun store key =>
      store.set (englishNegativeObservationReading key) key (negativeRecord now)) store).table
        key := by
  have hkeep : ∀ (rejected : List Bytes) (store : LearningStore.Store),
      AllRejected store.table key → AllRejected (rejected.foldl (fun store key =>
        store.set (englishNegativeObservationReading key) key (negativeRecord now)) store).table
          key := by
    intro rejected
    induction rejected with
    | nil => exact fun store h => h
    | cons key' rejected ih => exact fun store h => ih _ (h.set key' now)
  induction rejected generalizing store with
  | nil => cases hkey
  | cons key' rejected ih =>
    rw [List.foldl_cons]
    rcases List.mem_cons.mp hkey with rfl | hkey
    · exact hkeep rejected _ (allRejected_set (hne key List.mem_cons_self) now)
    · exact ih hkey (fun k hk => hne k (List.mem_cons_of_mem _ hk))

/-- Pruning changes no row that stays. -/
theorem find?_of_find?_prune {exp : Double → Double} {maxRecords : ℕ} {minWeight : Double}
    {now : UInt64} {k : Key} {rec : Record}
    (h : (store.prune exp maxRecords minWeight now).table.find? k = some rec) :
    store.table.find? k = some rec := by
  have hkept : ∀ rec, (withoutLightPairs exp store.table minWeight now).find? k = some rec →
      store.table.find? k = some rec := by
    intro rec h
    unfold withoutLightPairs at h
    split at h
    · rw [OrderedMap.find?_filter] at h
      exact (Option.filter_eq_some_iff.mp h).1
    · exact h
  unfold LearningStore.Store.prune at h
  dsimp only at h
  split at h
  · dsimp only at h
    rw [OrderedMap.find?_foldl_erase] at h
    split at h
    · cases h
    · exact hkept rec h
  · exact hkept rec h

/-- **What `ApplyEnglishNegativesLocked` leaves of a key that was rejected** and not
released. -/
theorem allRejected_applyEnglishNegatives (exp : Double → Double) {rejected released : List Bytes}
    (hkey : key ∈ rejected) (hne : ∀ key ∈ rejected, key ≠ []) (hreleased : key ∉ released)
    (now : UInt64) (maxRecords : ℕ) (minWeight : Double) :
    AllRejected
      (applyEnglishNegatives exp store rejected released now maxRecords minWeight).table key := by
  have hset := @allRejected_foldl_set store _ _ hkey hne now
  unfold applyEnglishNegatives
  dsimp only
  rw [if_neg (by simpa using List.ne_nil_of_mem hkey)]
  intro appName rec hfound
  have hfound := find?_of_find?_prune hfound
  rw [find?_forget_released hreleased] at hfound
  exact hset appName rec hfound

/-- **Without a rejection only the keys that are released change.** -/
theorem Suppressed.applyEnglishNegatives_nil (h : Suppressed store.table key)
    (exp : Double → Double) {released : List Bytes} (hreleased : key ∉ released) (now : UInt64)
    (maxRecords : ℕ) (minWeight : Double) :
    Suppressed (applyEnglishNegatives exp store [] released now maxRecords minWeight).table
      key := by
  obtain ⟨appName, rec, hfound, hrejected⟩ := h
  refine ⟨appName, rec, ?_, hrejected⟩
  exact (find?_forget_released hreleased appName).trans hfound

end Store

/-! ## The keys that are rejected -/

/-- A key that is rejected has letters. -/
theorem rejectedEnglishKey_ne_nil {knowsWord : Bytes → Bool} {chosenSurface key : Bytes}
    {candidate : CandidateField}
    (h : rejectedEnglishKey knowsWord chosenSurface candidate = some key) : key ≠ [] := by
  unfold rejectedEnglishKey at h
  split at h
  · cases h
  dsimp only at h
  split at h
  · cases h
  split at h
  · cases h
  rename_i hletters
  split at h
  · cases h
  rintro rfl
  rw [Option.some.inj h, Core.RomajiKanaConverter.convertForCommit_nil] at hletters
  exact hletters rfl

/-- So have all. -/
theorem ne_nil_of_mem_rejectedEnglishKeys {knowsWord : Bytes → Bool} {shown : List CandidateField}
    {chosenSurface : Bytes} :
    ∀ key ∈ rejectedEnglishKeys knowsWord shown chosenSurface, key ≠ [] := by
  unfold rejectedEnglishKeys
  refine List.foldlRecOn (motive := fun keys => ∀ key ∈ keys, key ≠ []) shown _
    (fun key h => absurd h List.not_mem_nil) ?_
  intro keys h candidate _
  cases hkey : rejectedEnglishKey knowsWord chosenSurface candidate with
  | none => exact h
  | some key =>
    by_cases hmem : key ∈ keys
    · simpa only [if_pos hmem] using h
    · simp only [if_neg hmem]
      intro k hk
      rcases List.mem_append.mp hk with hk | hk
      · exact h k hk
      · rw [List.mem_singleton.mp hk]
        exact rejectedEnglishKey_ne_nil hkey

/-- And those of the segments of a commit. -/
theorem ne_nil_of_mem_rejectedOf {knowsWord : Bytes → Bool} {segments : List ObservedSegment} :
    ∀ key ∈ rejectedOf knowsWord segments, key ≠ [] := by
  intro key hkey
  obtain ⟨segment, -, hkey⟩ := List.mem_flatMap.mp hkey
  exact ne_nil_of_mem_rejectedEnglishKeys key hkey

/-! ## The cache -/

/-- **The cache is right**: every key in it is suppressed by the store. -/
def Sound (s : SuppressingChannel) : Prop :=
  ∀ key ∈ s.cache, s.channel.engine.hasEnglishStore = true ∧ Suppressed s.channel.store.table key

/-- An empty cache is right. -/
theorem sound_empty (c : EnglishChannel) : Sound ⟨c, ∅⟩ :=
  fun key h => absurd h (Finset.notMem_empty key)

/-- What is in the cache after the negative observations were applied. -/
theorem mem_cacheNegatives {store : LearningStore.Store} {cache : Finset Bytes}
    {rejected released : List Bytes} {key : Bytes}
    (h : key ∈ cacheNegatives store cache rejected released) :
    key ∉ released ∧ (key ∈ rejected ∧ negativeRows store key ≠ []
      ∨ rejected = [] ∧ key ∈ cache) := by
  have herase : ∀ (released : List Bytes) (cache : Finset Bytes),
      key ∈ released.foldl (fun cache key => cache.erase key) cache → key ∉ released ∧ key ∈ cache := by
    intro released
    induction released with
    | nil => exact fun cache h => ⟨List.not_mem_nil, h⟩
    | cons k released ih =>
      intro cache h
      obtain ⟨hnot, hmem⟩ := ih _ h
      obtain ⟨hne, hmem⟩ := Finset.mem_erase.mp hmem
      exact ⟨fun hk => (List.mem_cons.mp hk).elim hne hnot, hmem⟩
  have hinsert : ∀ (rejected : List Bytes) (cache : Finset Bytes),
      key ∈ rejected.foldl (fun cache key =>
        if negativeRows store key = [] then cache else insert key cache) cache →
      key ∈ rejected ∧ negativeRows store key ≠ [] ∨ key ∈ cache := by
    intro rejected
    induction rejected with
    | nil => exact fun cache h => Or.inr h
    | cons k rejected ih =>
      intro cache h
      rcases ih _ h with ⟨hmem, hne⟩ | hmem
      · exact Or.inl ⟨List.mem_cons_of_mem _ hmem, hne⟩
      · dsimp only at hmem
        split at hmem
        · exact Or.inr hmem
        · rename_i hne
          rcases Finset.mem_insert.mp hmem with rfl | hmem
          · exact Or.inl ⟨List.mem_cons_self, hne⟩
          · exact Or.inr hmem
  obtain ⟨hreleased, hmem⟩ := herase released _ h
  refine ⟨hreleased, (hinsert rejected _ hmem).imp id (fun hcache => ?_)⟩
  split at hcache
  · rename_i hempty
    exact ⟨List.isEmpty_iff.mp hempty, hcache⟩
  · exact absurd hcache (Finset.notMem_empty key)

section Step

variable {exp : Double → Double} {config : LearningConfig} {s : SuppressingChannel}

/-- Noting an identifier leaves the store attached. -/
theorem hasEnglishStore_noteObservationId (e : Engine) (observationId : Bytes) :
    (e.noteObservationId observationId).2.hasEnglishStore = e.hasEnglishStore := by
  unfold Engine.noteObservationId
  split
  · rfl
  · split <;> rfl

/-- A commit of English clears the cache, or changes nothing. -/
theorem Sound.commitEnglishObservation (h : Sound s) (rawRomaji surface : Bytes) (now : UInt64)
    (observationId : Bytes) (fileWritten : Bool) :
    Sound (s.commitEnglishObservation exp config rawRomaji surface now observationId
      fileWritten) := by
  unfold SuppressingChannel.commitEnglishObservation Host.commitEnglishObservation
  by_cases hstore : s.channel.engine.hasEnglishStore = true
  · by_cases hnoted : (s.channel.engine.noteObservationId observationId).1 = true
    · rw [hstore, hnoted]
      exact sound_empty _
    · rw [Bool.not_eq_true] at hnoted
      simp only [hstore, if_true, hnoted, Bool.and_false, Bool.false_eq_true, if_false]
      intro key hkey
      obtain ⟨-, hsuppressed⟩ := h key hkey
      refine ⟨?_, hsuppressed⟩
      show (s.channel.engine.noteObservationId observationId).2.hasEnglishStore = true
      rw [hasEnglishStore_noteObservationId]
      exact hstore
  · rw [Bool.not_eq_true] at hstore
    rw [hstore]
    exact h

/-- **The cache after the negative observations were applied** is right when it was,
or when it was cleared. -/
theorem sound_cacheNegatives {engine : Engine} {store : LearningStore.Store} {cache : Finset Bytes}
    {rejected released : List Bytes} {now : UInt64} {maxRecords : ℕ} {minWeight : Double}
    {fileWritten : Bool} (hengine : engine.hasEnglishStore = true)
    (hcache : ∀ key ∈ cache, Suppressed store.table key) (hne : ∀ key ∈ rejected, key ≠ []) :
    let saved := saveEnglishStore
      (applyEnglishNegatives exp store rejected released now maxRecords minWeight) fileWritten
    Sound ⟨⟨engine, saved⟩, cacheNegatives saved cache rejected released⟩ := by
  intro saved key hkey
  refine ⟨hengine, ?_⟩
  obtain ⟨hreleased, ⟨hrejected, hrows⟩ | ⟨rfl, hmem⟩⟩ := mem_cacheNegatives hkey
  · have hall : AllRejected saved.table key := by
      rw [table_saveEnglishStore]
      exact allRejected_applyEnglishNegatives exp hrejected hne hreleased now maxRecords minWeight
    exact hall.suppressed hrows
  · show Suppressed saved.table key
    rw [table_saveEnglishStore]
    exact (hcache key hmem).applyEnglishNegatives_nil exp hreleased now maxRecords minWeight

/-- A commit of segments keeps the cache right. -/
theorem Sound.commitSegmentsObservation (h : Sound s) (request : CommitSegmentsObservationRequest)
    (now : UInt64) (knowsWord : Bytes → Bool) (converterThrows fileWritten : Bool) :
    Sound (s.commitSegmentsObservation exp config request now knowsWord converterThrows
      fileWritten) := by
  have hengine : s.channel.engine.hasEnglishStore = true →
      (s.channel.engine.noteObservationId request.observationId).2.hasEnglishStore = true :=
    fun hstore => (hasEnglishStore_noteObservationId _ _).trans hstore
  unfold SuppressingChannel.commitSegmentsObservation Host.commitSegmentsObservation
  dsimp only
  split
  · rename_i happlies
    have hstore : s.channel.engine.hasEnglishStore = true := by
      simp only [Bool.and_eq_true] at happlies
      exact happlies.2
    exact sound_cacheNegatives (hengine hstore)
      (fun key hkey => (h key hkey).2.observeEnglishSegments _ _ _) ne_nil_of_mem_rejectedOf
  · intro key hkey
    obtain ⟨hstore, hsuppressed⟩ := h key hkey
    exact ⟨hengine hstore, hsuppressed⟩

/-- English that was passed over keeps the cache right. -/
theorem Sound.recordRejectedEnglish (h : Sound s) (shown : List CandidateField)
    (chosenSurface : Bytes) (now : UInt64) (knowsWord : Bytes → Bool) (fileWritten : Bool) :
    Sound (s.recordRejectedEnglish exp config shown chosenSurface now knowsWord fileWritten) := by
  unfold SuppressingChannel.recordRejectedEnglish Host.recordRejectedEnglish
  dsimp only
  split
  · exact h
  · rename_i happlies
    rw [Bool.or_eq_true, not_or, Bool.not_eq_true', Bool.not_eq_false] at happlies
    exact sound_cacheNegatives happlies.2 (fun key hkey => (h key hkey).2)
      ne_nil_of_mem_rejectedEnglishKeys

/-- **The store's answer** is that the key is suppressed. -/
theorem isEnglishSuppressed_lockFree (s : SuppressingChannel) (lowerKey : Bytes) :
    (s.isEnglishSuppressed lowerKey true).1 = true
      ↔ s.channel.engine.hasEnglishStore = true ∧ Suppressed s.channel.store.table lowerKey := by
  show (_ && _) = true ↔ _
  rw [Bool.and_eq_true, List.any_eq_true, suppressed_iff]
  simp

/-- A question keeps the cache right. -/
theorem Sound.isEnglishSuppressed (h : Sound s) (lowerKey : Bytes) (lockFree : Bool) :
    Sound (s.isEnglishSuppressed lowerKey lockFree).2 := by
  cases lockFree with
  | false => exact h
  | true =>
    have hanswer := isEnglishSuppressed_lockFree s lowerKey
    unfold SuppressingChannel.isEnglishSuppressed at hanswer ⊢
    rw [if_pos rfl] at hanswer ⊢
    dsimp only at hanswer ⊢
    intro key hkey
    split at hkey
    · rename_i hsuppressed
      rcases Finset.mem_insert.mp hkey with rfl | hkey
      · exact hanswer.mp hsuppressed
      · exact h key hkey
    · exact h key (Finset.mem_of_mem_erase hkey)

/-- **Every call keeps the cache right.** -/
theorem sound_step (h : Sound s) (input : SuppressionInput) :
    Sound (s.step exp config input) := by
  unfold SuppressingChannel.step
  cases input.call with
  | commitEnglishObservation rawRomaji surface now observationId =>
    exact h.commitEnglishObservation _ _ _ _ _
  | commitSegmentsObservation request now => exact h.commitSegmentsObservation _ _ _ _ _
  | recordRejectedEnglish shown chosenSurface now => exact h.recordRejectedEnglish _ _ _ _ _
  | isEnglishSuppressed lowerKey => exact h.isEnglishSuppressed _ _
  | forgetLearningEntry store entry =>
    dsimp only
    unfold SuppressingChannel.forgetLearningEntry SuppressingChannel.forgetPairSnapshot
    split
    · split
      · exact h
      · dsimp only
        split
        · exact h
        · exact sound_empty _
    · exact h
  | resetLearningStore store =>
    dsimp only
    unfold SuppressingChannel.resetLearningStore SuppressingChannel.resetLearningChannels
    split
    · dsimp only
      split
      · exact h
      · split
        · exact h
        · split
          · exact sound_empty _
          · exact sound_empty _
    · exact h
  | importLearningData selected item policy =>
    dsimp only
    unfold SuppressingChannel.importLearningData
    split
    · exact h
    · dsimp only
      split
      · split
        · exact sound_empty _
        · exact sound_empty _
      · split
        · exact sound_empty _
        · exact sound_empty _
  | setEnglishLearningStore store => exact sound_empty _

end Step

/-- **What the cache says is never wrong**: after every call of a run that starts
with an empty cache, every key in it has a row that was rejected, and whatever
is answered from it the store would answer too. -/
theorem suppressed_always (exp : Double → Double) (config : LearningConfig) (c : EnglishChannel)
    (inputs : List SuppressionInput) :
    Run.Always (fun s input => some (SuppressingChannel.step exp config s input))
      (fun _ _ s' =>
        (∀ key ∈ s'.cache, s'.channel.engine.hasEnglishStore = true
          ∧ ∃ row ∈ pairRows s'.channel.store.table (englishNegativeObservationReading key) key,
            0 < row.2.rejectCount)
        ∧ ∀ key, (s'.isEnglishSuppressed key false).1 = true →
          (s'.isEnglishSuppressed key true).1 = true)
      ⟨c, ∅⟩ inputs := by
  refine Run.always_of_step (I := Sound) (fun s input hs => ?_) (sound_empty c) inputs
  have hsound := @sound_step exp config _ hs input
  refine ⟨_, rfl, ⟨fun key hkey => ?_, fun key hkey => ?_⟩, hsound⟩
  · obtain ⟨hstore, hsuppressed⟩ := hsound key hkey
    exact ⟨hstore, suppressed_iff.mp hsuppressed⟩
  · exact (isEnglishSuppressed_lockFree _ key).mpr (hsound key (of_decide_eq_true hkey))

end AzooKey.Host

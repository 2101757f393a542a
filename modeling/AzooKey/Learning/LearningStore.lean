import AzooKey.Lib.Binary64
import AzooKey.Lib.OrderedMap
import AzooKey.Learning.TsvText

/-!
# The learning store

`learning/src/LearningStore.cpp`: how often, how recently and with how much
weight a surface was committed for a reading, in each application. The store
is used twice by the host, for kana readings and for English words.

The table of the source is a map of maps of maps, from the reading to the
surface to the application. None of its inner maps is ever left empty, so it is
its rows in the order of the three keys, which is how it is modelled: a map
from the triple (`Key`), ordered as the nested iteration runs.

Recency is `std::exp` of a number of days, which the standard does not round:
it is the parameter `exp`.
-/

namespace AzooKey.Learning.LearningStore

/-! ## Rows -/

/-- `LearningEventType`; `none` is a row that an older version wrote. -/
inductive EventType
  | none
  | commit
  | correctionAccept
  | correctionReject
  | typoAccept
  | typoReject
deriving DecidableEq

/-- Zero. -/
def zero : Double := .finite (.zero false)

/-- `kMaxLearningCount`. -/
def maxLearningCount : UInt64 := 1000000000

/-- `kMaxLearningWeight`. -/
def maxLearningWeight : Double := .finite (.ofInt 1000000000 (by norm_num))

/-- `kTypoAcceptWeight`. -/
def typoAcceptWeight : Double := .round false (25 / 100)

/-- `kTypoRejectWeight`. -/
def typoRejectWeight : Double := .round false (45 / 100)

/-- `kLegacyCommitWeight`. -/
def legacyCommitWeight : Double := .round false (8 / 10)

/-- `LearningRecord`. -/
structure Record where
  weight : Double := zero
  lastUpdatedEpochSec : UInt64 := 0
  commitCount : UInt64 := 0
  acceptCount : UInt64 := 0
  rejectCount : UInt64 := 0
  lastEvent : EventType := .none
  contextHash : Bytes := []
deriving DecidableEq

/-- The three keys of a row. -/
structure Key where
  reading : Bytes
  surface : Bytes
  appName : Bytes

/-- The keys in the order in which they are compared. -/
def Key.triple (key : Key) : Bytes ×ₗ Bytes ×ₗ Bytes :=
  toLex (key.reading, toLex (key.surface, key.appName))

/-- The order of the nested iteration. -/
instance : LinearOrder Key := LinearOrder.lift' Key.triple (by
  rintro ⟨reading, surface, appName⟩ ⟨reading', surface', appName'⟩ h
  obtain ⟨rfl, h⟩ := Prod.mk.inj (toLex.injective h)
  obtain ⟨rfl, rfl⟩ := Prod.mk.inj (toLex.injective h)
  rfl)

/-- The table. -/
abbrev Table := OrderedMap Key Record

/-- The store: its rows, whether they differ from the file, whether a failed
load forbids to save, and whether the file is copied before the next save. -/
structure Store where
  table : Table := .empty
  dirty : Bool := false
  saveBlockedByLoadFailure : Bool := false
  preserveBeforeSave : Bool := false

/-- `size`. -/
def Store.size (s : Store) : ℕ := s.table.size

/-- `Reset`. -/
def Store.reset (s : Store) : Store :=
  { s with table := .empty, dirty := s.dirty || s.table.entries ≠ [] }

/-- `NormalizeLearningAppName`: the name after the last separator of a path, in
small letters. -/
def normalizeLearningAppName (processName : Bytes) : Bytes :=
  let base := (processName.reverse.takeWhile (fun c => c ≠ 0x2f ∧ c ≠ 0x5c)).reverse
  base.map (fun c => if 0x41 ≤ c ∧ c ≤ 0x5a then c - 0x41 + 0x61 else c)

/-! ## Observations -/

/-- `LearningObservation`. -/
structure Observation where
  reading : Bytes
  surface : Bytes
  appName : Bytes := []
  event : EventType := .commit
  contextHash : Bytes := []

/-- The row of an observation. -/
def Observation.key (o : Observation) : Key :=
  ⟨o.reading, o.surface, normalizeLearningAppName o.appName⟩

/-- What an event does to the weight and the counts of a row. -/
def applyEvent (event : EventType) (alpha : Double) (rec : Record) : Record :=
  match event with
  | .commit =>
    { rec with weight := rec.weight.add alpha, commitCount := rec.commitCount + 1 }
  | .correctionAccept =>
    { rec with
      weight := rec.weight.add alpha
      commitCount := rec.commitCount + 1
      acceptCount := rec.acceptCount + 1 }
  | .typoAccept =>
    { rec with
      weight := rec.weight.add typoAcceptWeight
      commitCount := rec.commitCount + 1
      acceptCount := rec.acceptCount + 1 }
  | .correctionReject =>
    { rec with
      weight := Double.max zero (rec.weight.sub alpha)
      rejectCount := rec.rejectCount + 1 }
  | .typoReject =>
    { rec with
      weight := Double.max zero (rec.weight.sub typoRejectWeight)
      rejectCount := rec.rejectCount + 1 }
  | .none => rec

/-- The record that an observation leaves. -/
def observedRecord (t : Table) (o : Observation) (alpha : Double) (nowEpochSec : UInt64) : Record :=
  { applyEvent o.event alpha ((t.find? o.key).getD {}) with
    lastUpdatedEpochSec := nowEpochSec
    lastEvent := o.event
    contextHash := o.contextHash }

/-- **`ObserveEvent`.** -/
def Store.observeEvent (s : Store) (o : Observation) (alpha : Double) (nowEpochSec : UInt64) :
    Store :=
  if o.event = .none then s
  else
    { s with
      table := s.table.assign o.key (observedRecord s.table o alpha nowEpochSec)
      dirty := true }

/-- `Observe`: a commit without an application and a context. -/
def Store.observe (s : Store) (reading surface : Bytes) (alpha : Double) (nowEpochSec : UInt64) :
    Store :=
  s.observeEvent { reading, surface } alpha nowEpochSec

/-- `ObserveCorrection`. -/
def Store.observeCorrection (s : Store) (reading rejectedSurface selectedSurface : Bytes)
    (alpha : Double) (nowEpochSec : UInt64) : Store :=
  let accepted := s.observeEvent
    { reading, surface := selectedSurface, event := .correctionAccept } alpha nowEpochSec
  accepted.observeEvent { reading, surface := rejectedSurface, event := .correctionReject } alpha
    nowEpochSec

/-- A row belongs to a pair of a reading and a surface. -/
def Key.ofPair (reading surface : Bytes) (key : Key) : Bool :=
  key.reading = reading ∧ key.surface = surface

/-- The rows of a pair, which `Rows` returns. -/
def pairRows (t : Table) (reading surface : Bytes) : List (Key × Record) :=
  t.entries.filter (fun e => e.1.ofPair reading surface)

/-- **`Forget`**: every row of the pair starts from scratch. -/
def Store.forget (s : Store) (reading surface : Bytes) : Store × Bool :=
  if pairRows s.table reading surface = [] then (s, false)
  else
    ({ s with
        table := s.table.mapValues (fun key rec =>
          if key.ofPair reading surface then { lastUpdatedEpochSec := rec.lastUpdatedEpochSec }
          else rec)
        dirty := true },
      true)

/-- `std::clamp` of a finite weight; any other weight is zero. -/
def boundedWeight (weight : Double) : Double :=
  if weight.isFinite then
    if weight.ieeeLt zero then zero
    else if maxLearningWeight.ieeeLt weight then maxLearningWeight
    else weight
  else zero

/-- The row that `Set` puts in. -/
def boundedRecord (record : Record) : Record :=
  { record with
    weight := boundedWeight record.weight
    commitCount := min record.commitCount maxLearningCount
    acceptCount := min record.acceptCount maxLearningCount
    rejectCount := min record.rejectCount maxLearningCount
    contextHash := [] }

/-- **`Set`**: one row for the pair, for no application. -/
def Store.set (s : Store) (reading surface : Bytes) (record : Record) : Store :=
  if reading = [] ∨ surface = [] then s
  else
    { s with
      table := (s.table.filter (fun key _ => !key.ofPair reading surface)).assign
        ⟨reading, surface, []⟩ (boundedRecord record)
      dirty := true }

/-! ## Pruning -/

section Prune

variable (exp : Double → Double)

/-- `ElapsedDays`; a clock that went back counts as no time. -/
def elapsedDays (lastUpdatedEpochSec nowEpochSec : UInt64) : Double :=
  let elapsedSeconds : Double :=
    if lastUpdatedEpochSec ≤ nowEpochSec then
      .round false (nowEpochSec - lastUpdatedEpochSec).toNat
    else zero
  elapsedSeconds.div (.round false 86400)

/-- `LegacyRecency`. -/
def legacyRecency (lastUpdatedEpochSec nowEpochSec : UInt64) : Double :=
  exp ((Double.round false (15 / 100)).neg.mul (elapsedDays lastUpdatedEpochSec nowEpochSec))

/-- `DecayedWeight`. -/
def decayedWeight (rec : Record) (nowEpochSec : UInt64) : Double :=
  rec.weight.mul (legacyRecency exp rec.lastUpdatedEpochSec nowEpochSec)

/-- `SumDecayedWeight`. -/
def sumDecayedWeight (rows : List (Key × Record)) (nowEpochSec : UInt64) : Double :=
  rows.foldl (fun total row => total.add (decayedWeight exp row.2 nowEpochSec)) zero

/-- `HasNetRejection`. -/
def hasNetRejection (rows : List (Key × Record)) : Bool :=
  rows.foldl (fun sum row => sum + row.2.acceptCount) 0
    < rows.foldl (fun sum row => sum + row.2.rejectCount) 0

/-- The rows of a pair are too light, and no rejection has to be remembered. -/
def isLightPair (minWeight : Double) (nowEpochSec : UInt64) (rows : List (Key × Record)) : Bool :=
  (sumDecayedWeight exp rows nowEpochSec).ieeeLt minWeight && !hasNetRejection rows

/-- The table without its light pairs. -/
def withoutLightPairs (t : Table) (minWeight : Double) (nowEpochSec : UInt64) : Table :=
  if zero.ieeeLt minWeight then
    t.filter (fun key _ =>
      !isLightPair exp minWeight nowEpochSec (pairRows t key.reading key.surface))
  else t

/-- The octets that `EscapeTsvField` of this store escapes: the number sign is
not among them. -/
def escapes : Escapes where
  pairs := [(0x5c, 0x5c), (0x09, 0x74), (0x0a, 0x6e), (0x0d, 0x72)]
  backslash := by decide
  letters := by decide

/-- `SerializedKey`. -/
def serializedKey (key : Key) : Bytes :=
  escapes.escape key.reading ++ [0x09] ++ escapes.escape key.surface ++ [0x09]
    ++ escapes.escape key.appName

/-- A row with its rank. -/
structure RankedRecord where
  key : Key
  serializedKey : Bytes
  score : Double

/-- The row of a lower score goes first, and of equal scores the one of the
lower key. -/
def RankedRecord.before (lhs rhs : RankedRecord) : Bool :=
  if lhs.score.ieeeEq rhs.score then lhs.serializedKey < rhs.serializedKey
  else lhs.score.ieeeLt rhs.score

/-- The rows, ranked. -/
def ranked (t : Table) (nowEpochSec : UInt64) : List RankedRecord :=
  (t.entries.map (fun e =>
    ⟨e.1, LearningStore.serializedKey e.1, decayedWeight exp e.2 nowEpochSec⟩)).insertionSort
      (fun lhs rhs => ¬ rhs.before lhs)

/-- **`Prune`**: first the light pairs go, and then as many of the lowest rows
as are too many. -/
def Store.prune (s : Store) (maxRecords : ℕ) (minWeight : Double) (nowEpochSec : UInt64) : Store :=
  let kept := withoutLightPairs exp s.table minWeight nowEpochSec
  let changed := kept.size ≠ s.table.size
  if 0 < maxRecords ∧ maxRecords < kept.size then
    let removed := (ranked exp kept nowEpochSec).take (kept.size - maxRecords)
    { s with table := (removed.map RankedRecord.key).foldl OrderedMap.erase kept, dirty := true }
  else { s with table := kept, dirty := s.dirty || changed }

end Prune

/-! ## Merging -/

/-- `SaturatingAdd`. -/
def saturatingAdd (lhs rhs : UInt64) : UInt64 :=
  min (min lhs maxLearningCount + min rhs maxLearningCount) maxLearningCount

/-- `IsForgotten`. -/
def Record.isForgotten (rec : Record) : Bool :=
  rec.weight.ieeeLe zero && rec.commitCount = 0 && rec.acceptCount = 0 && rec.rejectCount = 0

/-- `AddRecord`. -/
def Record.addRecord (into source : Record) : Record :=
  let later := into.lastUpdatedEpochSec ≤ source.lastUpdatedEpochSec
  { weight := Double.min (into.weight.add source.weight) maxLearningWeight
    commitCount := LearningStore.saturatingAdd into.commitCount source.commitCount
    acceptCount := LearningStore.saturatingAdd into.acceptCount source.acceptCount
    rejectCount := LearningStore.saturatingAdd into.rejectCount source.rejectCount
    lastUpdatedEpochSec :=
      if later then source.lastUpdatedEpochSec else into.lastUpdatedEpochSec
    lastEvent := if later then source.lastEvent else into.lastEvent
    contextHash := if later then source.contextHash else into.contextHash }

/-- One row of another store. A forgotten row is no clash. -/
def mergeRow (policy : ImportConflictPolicy) (acc : Table × ImportCounts) (row : Key × Record) :
    Table × ImportCounts :=
  let t := acc.1
  let counts := acc.2
  if row.2.isForgotten then (t, { counts with skipped := counts.skipped + 1 })
  else
    let imported (record : Record) (counts : ImportCounts) :=
      (t.assign row.1 record, { counts with imported := counts.imported + 1 })
    match (t.find? row.1).filter (fun existing => !existing.isForgotten) with
    | none => imported row.2 counts
    | some existing =>
      let counts := { counts with conflicts := counts.conflicts + 1 }
      match policy with
      | .merge => imported (existing.addRecord row.2) counts
      | .overwrite => imported row.2 counts
      | .keepBoth => (t, { counts with skipped := counts.skipped + 1 })

/-- **`Merge`.** -/
def Store.merge (s other : Store) (policy : ImportConflictPolicy) : Store × ImportCounts :=
  let merged := other.table.entries.foldl (mergeRow policy) (s.table, {})
  ({ s with table := merged.1, dirty := s.dirty || 0 < merged.2.imported }, merged.2)

/-! ## The number of rows -/

/-- A commit without an application has its row there. -/
theorem keys_observe (s : Store) (reading surface : Bytes) (alpha : Double) (nowEpochSec : UInt64) :
    (s.observe reading surface alpha nowEpochSec).table.keys
      = insert ⟨reading, surface, []⟩ s.table.keys := by
  unfold Store.observe Store.observeEvent
  rw [if_neg (show EventType.commit ≠ .none from EventType.noConfusion)]
  exact OrderedMap.keys_assign _ _ _

/-- A correction has a row for the surface that was selected, and one for the other. -/
theorem keys_observeCorrection (s : Store) (reading rejectedSurface selectedSurface : Bytes)
    (alpha : Double) (nowEpochSec : UInt64) :
    (s.observeCorrection reading rejectedSurface selectedSurface alpha nowEpochSec).table.keys
      = insert ⟨reading, rejectedSurface, []⟩ (insert ⟨reading, selectedSurface, []⟩ s.table.keys) := by
  unfold Store.observeCorrection
  dsimp only
  unfold Store.observeEvent
  rw [if_neg (show EventType.correctionAccept ≠ .none from EventType.noConfusion),
    if_neg (show EventType.correctionReject ≠ .none from EventType.noConfusion)]
  refine (OrderedMap.keys_assign _ _ _).trans ?_
  rw [OrderedMap.keys_assign]
  rfl

/-- A forgotten pair keeps its rows. -/
theorem keys_forget (s : Store) (reading surface : Bytes) :
    (s.forget reading surface).1.table.keys = s.table.keys := by
  unfold Store.forget
  split
  · rfl
  · exact OrderedMap.keys_mapValues _ _

/-- The ranking has every row once. -/
theorem map_key_ranked (exp : Double → Double) (t : Table) (nowEpochSec : UInt64) :
    ((ranked exp t nowEpochSec).map RankedRecord.key).Perm (t.entries.map Prod.fst) := by
  have hperm := (List.perm_insertionSort (fun lhs rhs : RankedRecord => ¬ rhs.before lhs)
    (t.entries.map (fun e => ⟨e.1, serializedKey e.1, decayedWeight exp e.2 nowEpochSec⟩))).map
      RankedRecord.key
  rw [List.map_map] at hperm
  exact hperm

/-- **Pruning leaves no more rows than the maximum.** -/
theorem size_prune_le (exp : Double → Double) (s : Store) {maxRecords : ℕ} (h : 0 < maxRecords)
    (minWeight : Double) (nowEpochSec : UInt64) :
    (s.prune exp maxRecords minWeight nowEpochSec).size ≤ maxRecords := by
  unfold Store.prune
  dsimp only
  set kept := withoutLightPairs exp s.table minWeight nowEpochSec with hkept
  split
  · rename_i hmore
    set removed := (ranked exp kept nowEpochSec).take (kept.size - maxRecords) with hremoved
    have hperm := map_key_ranked exp kept nowEpochSec
    have hnodup : (removed.map RankedRecord.key).Nodup := by
      have hkeys : (kept.entries.map Prod.fst).Nodup :=
        List.pairwise_map.mpr (kept.sorted.imp (fun h => h.ne))
      exact (hperm.nodup_iff.mpr hkeys).sublist ((List.take_sublist _ _).map _)
    have hmem : ∀ k ∈ removed.map RankedRecord.key, k ∈ kept.keys := by
      intro k hk
      exact List.mem_toFinset.mpr (hperm.mem_iff.mp
        (((List.take_sublist _ _).map RankedRecord.key).subset hk))
    have hlength : (removed.map RankedRecord.key).length = kept.size - maxRecords := by
      have hall : (ranked exp kept nowEpochSec).length = kept.size := by
        have := hperm.length_eq
        rwa [List.length_map, List.length_map] at this
      rw [List.length_map, List.length_take, hall]
      omega
    have hsize := kept.size_foldl_erase hnodup hmem
    show ((removed.map RankedRecord.key).foldl OrderedMap.erase kept).size ≤ maxRecords
    omega
  · rename_i hfew
    show kept.size ≤ maxRecords
    omega

end AzooKey.Learning.LearningStore

import AzooKey.Learning.LearningStore

/-!
# The text of the learning store

`SerializeText` and `LoadText` of `learning/src/LearningStore.cpp`. The text has
a header and a line of ten fields a row; a row that was forgotten is left out.
The reader knows three formats by the first line, counts the lines that are no
rows, and bounds the numbers of those that are.

A row comes back as it is if its reading and its surface are not empty and its
numbers are within the bounds of the file (`Filed`). Every operation of the
store keeps its rows so, as long as an observation does
(`Reachable.filed`), and so the rows that are not forgotten are read back from
the text (`loadText_serializeText_of_reachable`).
-/

namespace AzooKey.Learning.LearningStore

/-! ## Writing -/

/-- `kLearningStoreV2Header`. -/
def v2Header : Bytes := utf8 "# azookey-learning-tsv escaped=1 version=2"

/-- `kLearningStoreEscapedTsvHeader`. -/
def escapedTsvHeader : Bytes := utf8 "# azookey-learning-tsv escaped=1"

/-- `LearningEventTypeName`. -/
def eventTypeName : EventType → Bytes
  | .none => []
  | .commit => utf8 "commit"
  | .correctionAccept => utf8 "correction_accept"
  | .correctionReject => utf8 "correction_reject"
  | .typoAccept => utf8 "typo_accept"
  | .typoReject => utf8 "typo_reject"

/-- `FormatWeight`. -/
def formatWeight : Double → Bytes
  | .finite b => (toChars b).text
  | .infinity negative => if negative then utf8 "-inf" else utf8 "inf"
  | .nan => utf8 "nan"

/-- The line of a row, from its serialized key. The name of the application
moves behind the counts. -/
def rowText (row : Bytes × Record) : Bytes :=
  let cut := Bytes.breakAtLast 0x09 row.1
  let record := row.2
  [0x09].intercalate [cut.1, formatWeight record.weight,
    decimalDigits record.lastUpdatedEpochSec.toNat, decimalDigits record.commitCount.toNat,
    decimalDigits record.acceptCount.toNat, decimalDigits record.rejectCount.toNat, cut.2,
    eventTypeName record.lastEvent, record.contextHash]

/-- The rows that are written, in the order of their serialized keys. -/
def serializedRows (t : Table) : List (Bytes × Record) :=
  ((t.entries.filter (fun e => !e.2.isForgotten)).map (fun e => (serializedKey e.1, e.2))).insertionSort
    (fun lhs rhs => lhs.1 ≤ rhs.1)

/-- **`SerializeText`.** -/
def Store.serializeText (s : Store) : Bytes :=
  (v2Header :: (serializedRows s.table).map rowText).flatMap (fun line => line ++ [0x0a])

/-! ## Reading -/

/-- `ParseLearningEventType`. -/
def parseLearningEventType (name : Bytes) : Option EventType :=
  [EventType.none, .commit, .correctionAccept, .correctionReject, .typoAccept, .typoReject].find?
    (fun type => eventTypeName type = name)

/-- `IsContextHash`. -/
def isContextHash (value : Bytes) : Bool :=
  value = [] || (value.length = 10 && value.take 2 = [0x30, 0x78]
    && (value.drop 2).all (fun c => isDigitByte c || (0x61 ≤ c && c ≤ 0x66)))

/-- `ParseFiniteNonNegativeDouble`. -/
def parseFiniteNonNegativeDouble (token : Bytes) : Option Double := do
  let parsed ← parseFinite token
  if (Double.finite parsed).ieeeLt zero then none else some (.finite parsed)

/-- The row of ten fields. Numbers are bounded, so that later sums neither wrap
nor overflow. -/
def rowOfFields : List Bytes → Option (Key × Record)
  | [reading, surface, weight, lastUpdated, commits, accepts, rejects, appName, event,
      contextHash] => do
    if reading = [] ∨ surface = [] then none
    else
      let weight ← parseFiniteNonNegativeDouble weight
      let lastUpdatedEpochSec ← parseUInt64 lastUpdated
      let commitCount ← parseUInt64 commits
      let acceptCount ← parseUInt64 accepts
      let rejectCount ← parseUInt64 rejects
      let lastEvent ← parseLearningEventType event
      if isContextHash contextHash then
        some (⟨escapes.unescape reading, escapes.unescape surface, escapes.unescape appName⟩,
          { weight := Double.min weight maxLearningWeight
            lastUpdatedEpochSec := lastUpdatedEpochSec
            commitCount := min commitCount maxLearningCount
            acceptCount := min acceptCount maxLearningCount
            rejectCount := min rejectCount maxLearningCount
            lastEvent := lastEvent
            contextHash := contextHash })
      else none
  | _ => none

/-- `ParseV2Row`. -/
def parseV2Row (line : Bytes) : Option (Key × Record) := rowOfFields (line.splitOn 0x09)

/-- `ParseRecordValues`: a weight and a time, and nothing else. -/
def parseRecordValues (value : Bytes) : Option Record := do
  let (weightToken, value) ← consumeAsciiToken value
  let (timestampToken, value) ← consumeAsciiToken value
  if trimLeadingAsciiWhitespace value ≠ [] then none
  else
    let weight ← parseFiniteNonNegativeDouble weightToken
    let lastUpdatedEpochSec ← parseUInt64 timestampToken
    some { weight := weight, lastUpdatedEpochSec := lastUpdatedEpochSec }

/-- `FillMigratedCounts`: the number of commits that a weight stands for. -/
def fillMigratedCounts (rec : Record) : Record :=
  if rec.weight.ieeeLe zero then rec
  else
    let commits := Double.min (rec.weight.div legacyCommitWeight).roundAway maxLearningWeight
    { rec with commitCount := if commits.ieeeLt (.round false 1) then 1 else commits.toUInt64 }

/-- The row of three fields of the older formats. -/
def legacyRowOfFields (escapedFields : Bool) : List Bytes → Option (Key × Record)
  | [reading, surface, weightTimestamp] => do
    let record ← parseRecordValues weightTimestamp
    let record := { record with weight := Double.min record.weight maxLearningWeight }
    let field (text : Bytes) := if escapedFields then escapes.unescape text else text
    some (⟨field reading, field surface, []⟩, fillMigratedCounts record)
  | _ => none

/-- `ParseLegacyRow`. -/
def parseLegacyRow (escapedFields : Bool) (line : Bytes) : Option (Key × Record) :=
  (Bytes.readFields 0x09 2 line).bind (legacyRowOfFields escapedFields)

/-- One line: a malformed one is counted, and of two rows with the same keys the
first stays. -/
def parseLine (parseRow : Bytes → Option (Key × Record)) (acc : ℕ × Table) (line : Bytes) :
    ℕ × Table :=
  if line = [] then acc
  else
    match parseRow line with
    | none => (acc.1 + 1, acc.2)
    | some row => (acc.1, acc.2.emplace row.1 row.2)

/-- `ParseInto` of the lines: the number of malformed ones, and the rows. Only
the first line may be a header, which says how the others are read. -/
def parseLines : List Bytes → ℕ × Table
  | [] => (0, .empty)
  | first :: lines =>
    if first = v2Header then lines.foldl (parseLine parseV2Row) (0, .empty)
    else if first = escapedTsvHeader then lines.foldl (parseLine (parseLegacyRow true)) (0, .empty)
    else (first :: lines).foldl (parseLine (parseLegacyRow false)) (0, .empty)

/-- **`LoadText`**: the rows of the store are replaced by those of the text. -/
def Store.loadText (s : Store) (text : Bytes) : Bool × Store :=
  let parsed := parseLines (Bytes.pieces 0x0a text)
  (parsed.1 = 0, { s with table := parsed.2, dirty := true })

/-! ## Rows within the bounds of the file -/

/-- **A weight that the reader leaves alone**: not negative and not above the
bound. -/
def IsWeight (weight : Double) : Prop :=
  weight.NonNeg ∧ maxLearningWeight.ieeeLt weight = false

/-- **A row that the reader accepts and leaves alone.** -/
structure Filed (key : Key) (rec : Record) : Prop where
  reading_ne : key.reading ≠ []
  surface_ne : key.surface ≠ []
  weight : IsWeight rec.weight
  commitCount_le : rec.commitCount ≤ maxLearningCount
  acceptCount_le : rec.acceptCount ≤ maxLearningCount
  rejectCount_le : rec.rejectCount ≤ maxLearningCount
  isContextHash : isContextHash rec.contextHash = true

/-- The rows of a store are within the bounds. -/
abbrev Store.Filed (s : Store) : Prop := OrderedMap.Holds LearningStore.Filed s.table

/-- Zero is a weight. -/
theorem isWeight_zero : IsWeight zero :=
  ⟨Or.inl ⟨_, rfl, le_refl _⟩, by decide⟩

/-- The bound is a weight. -/
theorem isWeight_max : IsWeight maxLearningWeight :=
  ⟨Or.inl ⟨_, rfl, by decide⟩, by decide⟩

/-- A weight is finite. -/
theorem IsWeight.exists_finite {weight : Double} (h : IsWeight weight) :
    ∃ b, weight = .finite b ∧ 0 ≤ b.toRat := by
  rcases h.1 with hfinite | rfl
  · exact hfinite
  · exact absurd h.2 (by decide)

/-- A value that is not negative is a weight when it is bounded. -/
theorem isWeight_min {weight : Double} (h : weight.NonNeg) :
    IsWeight (Double.min weight maxLearningWeight) := by
  unfold Double.min
  split
  · exact isWeight_max
  · rename_i hle
    exact ⟨h, by simpa using hle⟩

/-- A bounded weight is a weight. -/
theorem isWeight_boundedWeight (weight : Double) : IsWeight (boundedWeight weight) := by
  unfold boundedWeight
  split
  · rename_i hfinite
    split
    · exact isWeight_zero
    · rename_i hneg
      split
      · exact isWeight_max
      · rename_i hle
        refine ⟨?_, by simpa using hle⟩
        cases weight with
        | finite b =>
          refine Or.inl ⟨b, rfl, ?_⟩
          have hlt : ¬ b.toRat < (Binary64.zero false).toRat := fun h => hneg (decide_eq_true h)
          exact not_lt.mp hlt
        | infinity => cases hfinite
        | nan => cases hfinite
  · exact isWeight_zero

/-- The weight that an event leaves is not negative. -/
theorem nonNeg_weight_applyEvent (event : EventType) {alpha : Double} (halpha : alpha.NonNeg)
    {rec : Record} (h : rec.weight.NonNeg) : (applyEvent event alpha rec).weight.NonNeg := by
  have htypo : typoAcceptWeight.NonNeg := Double.nonNeg_round _ (by norm_num)
  cases event with
  | none => exact h
  | commit => exact h.add halpha
  | correctionAccept => exact h.add halpha
  | typoAccept => exact h.add htypo
  | correctionReject => exact Double.nonNeg_max_zero _
  | typoReject => exact Double.nonNeg_max_zero _

/-! ## The operations keep the bounds -/

/-- **An observation that stays within the bounds of the file**: of a reading and
a surface, with a weight that is finite and not negative and a hash that is
one, and without a sum that the file could not hold. -/
structure Observation.Within (o : Observation) (alpha : Double) (rec : Record) : Prop where
  reading_ne : o.reading ≠ []
  surface_ne : o.surface ≠ []
  alpha_finite : alpha.isFinite = true
  alpha_nonNeg : alpha.ieeeLt zero = false
  isContextHash : LearningStore.isContextHash o.contextHash = true
  weight_le : maxLearningWeight.ieeeLt rec.weight = false
  commitCount_le : rec.commitCount ≤ maxLearningCount
  acceptCount_le : rec.acceptCount ≤ maxLearningCount
  rejectCount_le : rec.rejectCount ≤ maxLearningCount

/-- A finite value that is not below zero is not negative. -/
theorem nonNeg_of_not_lt {a : Double} (hfinite : a.isFinite = true) (h : a.ieeeLt zero = false) :
    a.NonNeg := by
  cases a with
  | finite b => exact Or.inl ⟨b, rfl, not_lt.mp (of_decide_eq_false h)⟩
  | infinity => cases hfinite
  | nan => cases hfinite

/-- **An observation within the bounds keeps the rows there.** -/
theorem Store.Filed.observeEvent {s : Store} (h : s.Filed) {o : Observation} {alpha : Double}
    {nowEpochSec : UInt64}
    (hwithin : o.Within alpha (observedRecord s.table o alpha nowEpochSec)) :
    (s.observeEvent o alpha nowEpochSec).Filed := by
  unfold Store.observeEvent
  split
  · exact h
  · -- the row before is one of the table, or a new one of weight zero
    have hbefore : ((s.table.find? o.key).getD {}).weight.NonNeg := by
      cases hfound : s.table.find? o.key with
      | none => exact isWeight_zero.1
      | some rec => exact (h o.key rec hfound).weight.1
    exact OrderedMap.Holds.assign h
      { reading_ne := hwithin.reading_ne
        surface_ne := hwithin.surface_ne
        weight := ⟨nonNeg_weight_applyEvent _
          (nonNeg_of_not_lt hwithin.alpha_finite hwithin.alpha_nonNeg) hbefore, hwithin.weight_le⟩
        commitCount_le := hwithin.commitCount_le
        acceptCount_le := hwithin.acceptCount_le
        rejectCount_le := hwithin.rejectCount_le
        isContextHash := hwithin.isContextHash }

/-- A row that starts from scratch is within the bounds. -/
theorem Filed.scratch {key : Key} {rec : Record} (h : Filed key rec) (lastUpdatedEpochSec : UInt64) :
    Filed key { lastUpdatedEpochSec := lastUpdatedEpochSec } :=
  ⟨h.reading_ne, h.surface_ne, isWeight_zero, UInt64.zero_le, UInt64.zero_le, UInt64.zero_le, rfl⟩

/-- A forgotten pair keeps the rows within the bounds. -/
theorem Store.Filed.forget {s : Store} (h : s.Filed) (reading surface : Bytes) :
    (s.forget reading surface).1.Filed := by
  unfold Store.forget
  split
  · exact h
  · refine OrderedMap.Holds.mapValues h (fun key rec hrec => ?_)
    split
    · exact hrec.scratch _
    · exact hrec

/-- A bounded row is within the bounds. -/
theorem filed_boundedRecord {reading surface appName : Bytes} (hreading : reading ≠ [])
    (hsurface : surface ≠ []) (record : Record) :
    Filed ⟨reading, surface, appName⟩ (boundedRecord record) :=
  ⟨hreading, hsurface, isWeight_boundedWeight _, Std.min_le_right, Std.min_le_right,
    Std.min_le_right, rfl⟩

/-- A row that is set keeps the rows within the bounds. -/
theorem Store.Filed.set {s : Store} (h : s.Filed) (reading surface : Bytes) (record : Record) :
    (s.set reading surface record).Filed := by
  unfold Store.set
  split
  · exact h
  · rename_i hne
    rw [not_or] at hne
    exact OrderedMap.Holds.assign (OrderedMap.Holds.filter h _)
      (filed_boundedRecord hne.1 hne.2 record)

/-- Pruning keeps the rows within the bounds. -/
theorem Store.Filed.prune {s : Store} (h : s.Filed) (exp : Double → Double) (maxRecords : ℕ)
    (minWeight : Double) (nowEpochSec : UInt64) :
    (s.prune exp maxRecords minWeight nowEpochSec).Filed := by
  have hkept : OrderedMap.Holds LearningStore.Filed
      (withoutLightPairs exp s.table minWeight nowEpochSec) := by
    unfold withoutLightPairs
    split
    · exact OrderedMap.Holds.filter h _
    · exact h
  have herase : ∀ (keys : List Key) (t : Table), OrderedMap.Holds LearningStore.Filed t →
      OrderedMap.Holds LearningStore.Filed (keys.foldl OrderedMap.erase t) := by
    intro keys
    induction keys with
    | nil => exact fun t ht => ht
    | cons key keys ih => exact fun t ht => ih _ (ht.erase key)
  unfold Store.prune
  dsimp only
  split
  · exact herase _ _ hkept
  · exact hkept

/-- Two rows added are within the bounds. -/
theorem Filed.addRecord {key : Key} {into source : Record} (hinto : Filed key into)
    (hsource : Filed key source) : Filed key (into.addRecord source) where
  reading_ne := hinto.reading_ne
  surface_ne := hinto.surface_ne
  weight := isWeight_min (hinto.weight.1.add hsource.weight.1)
  commitCount_le := Std.min_le_right
  acceptCount_le := Std.min_le_right
  rejectCount_le := Std.min_le_right
  isContextHash := by
    unfold Record.addRecord
    dsimp only
    split
    · exact hsource.isContextHash
    · exact hinto.isContextHash

/-- A row of another store keeps the rows within the bounds. -/
theorem holds_mergeRow {acc : Table × ImportCounts} (h : OrderedMap.Holds Filed acc.1)
    {row : Key × Record} (hrow : Filed row.1 row.2) (policy : ImportConflictPolicy) :
    OrderedMap.Holds Filed (mergeRow policy acc row).1 := by
  unfold mergeRow
  dsimp only
  split
  · exact h
  · split
    · exact h.assign hrow
    · rename_i existing hfound
      split
      · exact h.assign ((h _ _ (Option.filter_eq_some_iff.mp hfound).1).addRecord hrow)
      · exact h.assign hrow
      · exact h

/-- Another store keeps the rows within the bounds. -/
theorem Store.Filed.merge {s other : Store} (h : s.Filed) (hother : other.Filed)
    (policy : ImportConflictPolicy) : (s.merge other policy).1.Filed := by
  have hrows : ∀ row ∈ other.table.entries, LearningStore.Filed row.1 row.2 :=
    fun row hrow => hother _ _ (other.table.find?_eq_some_iff.mpr hrow)
  have hfold : ∀ (rows : List (Key × Record)) (acc : Table × ImportCounts),
      (∀ row ∈ rows, LearningStore.Filed row.1 row.2) →
        OrderedMap.Holds LearningStore.Filed acc.1 →
          OrderedMap.Holds LearningStore.Filed (rows.foldl (mergeRow policy) acc).1 := by
    intro rows
    induction rows with
    | nil => exact fun acc _ hacc => hacc
    | cons row rows ih =>
      intro acc hrows hacc
      exact ih _ (fun r hr => hrows r (List.mem_cons_of_mem _ hr))
        (holds_mergeRow hacc (hrows row List.mem_cons_self) policy)
  exact hfold _ (s.table, {}) hrows h

/-- What is read of ten fields is within the bounds. -/
theorem filed_of_parseV2Row {line : Bytes} {row : Key × Record} (h : parseV2Row line = some row) :
    Filed row.1 row.2 := by
  unfold parseV2Row rowOfFields at h
  split at h
  · simp only [Option.bind_eq_bind] at h
    split at h
    · cases h
    · rename_i hne
      simp only [Option.bind_eq_some_iff] at h
      obtain ⟨weight, hweight, _, -, _, -, _, -, _, -, _, -, h⟩ := h
      split at h
      · rename_i hhash
        have hnonNeg : weight.NonNeg := by
          unfold parseFiniteNonNegativeDouble at hweight
          simp only [Option.bind_eq_bind, Option.bind_eq_some_iff] at hweight
          obtain ⟨b, -, hweight⟩ := hweight
          split at hweight
          · cases hweight
          · rename_i hlt
            rw [← Option.some.inj hweight]
            exact nonNeg_of_not_lt rfl (by simpa using hlt)
        rw [not_or] at hne
        rw [← Option.some.inj h]
        exact ⟨escapes.unescape_ne_nil hne.1, escapes.unescape_ne_nil hne.2, isWeight_min hnonNeg,
          Std.min_le_right, Std.min_le_right, Std.min_le_right, hhash⟩
      · cases h
  · cases h

/-- **The rows of a text in the current format are within the bounds.** -/
theorem Store.filed_loadText (s : Store) {text : Bytes}
    (hv2 : (Bytes.pieces 0x0a text).head? = some v2Header) : (s.loadText text).2.Filed := by
  have hfold : ∀ (lines : List Bytes) (acc : ℕ × Table),
      OrderedMap.Holds LearningStore.Filed acc.2 →
        OrderedMap.Holds LearningStore.Filed (lines.foldl (parseLine parseV2Row) acc).2 := by
    intro lines
    induction lines with
    | nil => exact fun acc hacc => hacc
    | cons line lines ih =>
      intro acc hacc
      refine ih _ ?_
      unfold parseLine
      split
      · exact hacc
      · split
        · exact hacc
        · rename_i row hrow
          exact hacc.emplace (filed_of_parseV2Row hrow)
  obtain ⟨lines, hlines⟩ := List.head?_eq_some_iff.mp hv2
  show OrderedMap.Holds LearningStore.Filed (parseLines (Bytes.pieces 0x0a text)).2
  rw [hlines, parseLines, if_pos rfl]
  exact hfold _ _ OrderedMap.holds_empty

/-! ## Reading back -/

/-- The name of an event holds no separator and reads back. -/
theorem parse_eventTypeName (event : EventType) :
    (0x09 ∉ eventTypeName event ∧ 0x0a ∉ eventTypeName event)
      ∧ parseLearningEventType (eventTypeName event) = some event := by
  cases event <;> decide

/-- A hash holds no separator. -/
theorem not_mem_of_isContextHash {value : Bytes} (h : isContextHash value = true) :
    0x09 ∉ value ∧ 0x0a ∉ value := by
  have hmem : ∀ c ∈ value, c = 0x30 ∨ c = 0x78 ∨ isDigitByte c = true ∨ 0x61 ≤ c := by
    intro c hc
    unfold isContextHash at h
    simp only [Bool.or_eq_true, decide_eq_true_eq, Bool.and_eq_true, List.all_eq_true] at h
    rcases h with rfl | ⟨⟨-, htake⟩, hdrop⟩
    · exact absurd hc List.not_mem_nil
    · rw [← List.take_append_drop 2 value, List.mem_append, htake] at hc
      rcases hc with hc | hc
      · rcases List.mem_cons.mp hc with rfl | hc
        · exact Or.inl rfl
        · exact Or.inr (Or.inl (List.mem_singleton.mp hc))
      · exact Or.inr (Or.inr ((hdrop c hc).imp id (fun h => h.1)))
  exact ⟨fun hc => absurd (hmem _ hc) (by decide), fun hc => absurd (hmem _ hc) (by decide)⟩

/-- A weight holds no separator and reads back. -/
theorem parse_formatWeight {weight : Double} (h : IsWeight weight) :
    (0x09 ∉ formatWeight weight ∧ 0x0a ∉ formatWeight weight)
      ∧ parseFiniteNonNegativeDouble (formatWeight weight) = some weight := by
  obtain ⟨b, rfl, hb⟩ := h.exists_finite
  refine ⟨⟨fun hmem => ?_, fun hmem => ?_⟩, ?_⟩
  · exact absurd (mem_text hmem) (by decide)
  · exact absurd (mem_text hmem) (by decide)
  · have hlt : (Double.finite b).ieeeLt zero = false := decide_eq_false (not_lt.mpr hb)
    show (parseFinite (toChars b).text).bind _ = _
    rw [parseFinite_toChars, Option.bind_some, hlt]
    rfl

/-- An escaped field holds no separator. -/
theorem not_mem_escape (value : Bytes) :
    0x09 ∉ escapes.escape value ∧ 0x0a ∉ escapes.escape value :=
  ⟨escapes.not_mem_escape (by decide) (by decide) (by decide) value,
    escapes.not_mem_escape (by decide) (by decide) (by decide) value⟩

/-- The fields of a row in the order of the line. -/
def fieldsOf (key : Key) (rec : Record) : List Bytes :=
  [escapes.escape key.reading, escapes.escape key.surface, formatWeight rec.weight,
    decimalDigits rec.lastUpdatedEpochSec.toNat, decimalDigits rec.commitCount.toNat,
    decimalDigits rec.acceptCount.toNat, decimalDigits rec.rejectCount.toNat,
    escapes.escape key.appName, eventTypeName rec.lastEvent, rec.contextHash]

/-- **The cut of the serialized key puts each field in its place.** -/
theorem rowText_serializedKey (key : Key) (rec : Record) :
    rowText (serializedKey key, rec) = [0x09].intercalate (fieldsOf key rec) := by
  have hcut : Bytes.breakAtLast 0x09 (serializedKey key)
      = (escapes.escape key.reading ++ 0x09 :: escapes.escape key.surface,
          escapes.escape key.appName) := by
    rw [← Bytes.breakAtLast_append _ (not_mem_escape key.appName).1]
    simp [serializedKey]
  unfold rowText fieldsOf
  simp only [hcut]
  simp [List.intercalate]

/-- No field of a row holds a separator. -/
theorem not_mem_fieldsOf {key : Key} {rec : Record} (h : Filed key rec) :
    ∀ field ∈ fieldsOf key rec, 0x09 ∉ field ∧ 0x0a ∉ field := by
  unfold fieldsOf
  simp only [List.forall_mem_cons, List.not_mem_nil, false_imp_iff, implies_true, and_true]
  exact ⟨not_mem_escape _, not_mem_escape _, (parse_formatWeight h.weight).1,
    not_mem_decimalDigits _, not_mem_decimalDigits _, not_mem_decimalDigits _,
    not_mem_decimalDigits _, not_mem_escape _, (parse_eventTypeName _).1,
    not_mem_of_isContextHash h.isContextHash⟩

/-- A number within a bound is the lesser of the two. -/
theorem min_eq_of_le {count bound : UInt64} (h : count ≤ bound) : min count bound = count := by
  rw [Std.min_eq_if, if_pos h]

/-- **The line of a row reads back.** -/
theorem parseV2Row_rowText {key : Key} {rec : Record} (h : Filed key rec) :
    parseV2Row (rowText (serializedKey key, rec)) = some (key, rec) := by
  have hreading : escapes.escape key.reading ≠ [] := fun h' => h.reading_ne (escapes.escape_eq_nil.mp h')
  have hsurface : escapes.escape key.surface ≠ [] := fun h' => h.surface_ne (escapes.escape_eq_nil.mp h')
  have hmin : Double.min rec.weight maxLearningWeight = rec.weight := by
    rw [Double.min, h.weight.2]
    rfl
  unfold parseV2Row
  rw [rowText_serializedKey, List.splitOn_intercalate _ (fun l hl => (not_mem_fieldsOf h l hl).1)
    (List.cons_ne_nil _ _)]
  show rowOfFields [_, _, _, _, _, _, _, _, _, _] = _
  rw [rowOfFields, if_neg (by rw [not_or]; exact ⟨hreading, hsurface⟩), (parse_formatWeight h.weight).2,
    parseUInt64_decimalDigits, parseUInt64_decimalDigits, parseUInt64_decimalDigits,
    parseUInt64_decimalDigits, (parse_eventTypeName _).2]
  simp only [Option.bind_eq_bind, Option.bind_some, h.isContextHash, if_true,
    escapes.unescape_escape, hmin, min_eq_of_le h.commitCount_le, min_eq_of_le h.acceptCount_le,
    min_eq_of_le h.rejectCount_le]

/-- The line of a row is one line, and is not empty. -/
theorem rowText_form {key : Key} {rec : Record} (h : Filed key rec) :
    0x0a ∉ rowText (serializedKey key, rec) ∧ rowText (serializedKey key, rec) ≠ [] := by
  constructor
  · rw [rowText_serializedKey]
    intro hmem
    rcases Bytes.mem_intercalate hmem with heq | ⟨field, hfield, hc⟩
    · exact absurd heq (by decide)
    · exact (not_mem_fieldsOf h field hfield).2 hc
  · intro hnil
    have hparse := parseV2Row_rowText h
    rw [hnil] at hparse
    cases hparse

/-- The rows that are not forgotten. -/
def Store.kept (s : Store) : Table := s.table.filter (fun _ rec => !rec.isForgotten)

/-- The rows that are written are those that are not forgotten, in some order. -/
theorem exists_serializedRows (s : Store) : ∃ rows : List (Key × Record),
    rows.Perm s.kept.entries
      ∧ serializedRows s.table = rows.map (fun row => (serializedKey row.1, row.2)) := by
  refine ⟨s.kept.entries.insertionSort (fun lhs rhs => serializedKey lhs.1 ≤ serializedKey rhs.1),
    List.perm_insertionSort _ _, ?_⟩
  exact (List.map_insertionSort
    (fun lhs rhs : Key × Record => serializedKey lhs.1 ≤ serializedKey rhs.1)
    (fun lhs rhs : Bytes × Record => lhs.1 ≤ rhs.1) (fun row => (serializedKey row.1, row.2))
    s.kept.entries (fun a _ b _ => Iff.rfl)).symm

/-- Lines of rows add their rows, without a complaint. -/
theorem foldl_parseLine_rowText {rows : List (Key × Record)} (h : ∀ row ∈ rows, Filed row.1 row.2)
    (acc : Table) :
    (rows.map (fun row => rowText (serializedKey row.1, row.2))).foldl (parseLine parseV2Row) (0, acc)
      = (0, rows.foldl (fun t row => t.emplace row.1 row.2) acc) := by
  induction rows generalizing acc with
  | nil => rfl
  | cons row rows ih =>
    have hrow := h row List.mem_cons_self
    have hline : parseLine parseV2Row (0, acc) (rowText (serializedKey row.1, row.2))
        = (0, acc.emplace row.1 row.2) := by
      rw [parseLine, if_neg (rowText_form hrow).2, parseV2Row_rowText hrow]
    rw [List.map_cons, List.foldl_cons, List.foldl_cons, hline]
    exact ih (fun r hr => h r (List.mem_cons_of_mem _ hr)) _

/-- **Rows within the bounds read back from the text**, those that are forgotten
left out. -/
theorem loadText_serializeText {s : Store} (h : OrderedMap.Holds LearningStore.Filed s.kept)
    (fresh : Store) :
    fresh.loadText s.serializeText = (true, { fresh with table := s.kept, dirty := true }) := by
  obtain ⟨rows, hperm, hrows⟩ := exists_serializedRows s
  have hfiled : ∀ row ∈ rows, LearningStore.Filed row.1 row.2 := fun row hrow =>
    h _ _ (s.kept.find?_eq_some_iff.mpr (hperm.mem_iff.mp hrow))
  have hlines : ∀ line ∈ v2Header :: rows.map (fun row => rowText (serializedKey row.1, row.2)),
      0x0a ∉ line := by
    simp only [List.forall_mem_cons, List.forall_mem_map]
    exact ⟨by decide, fun row hrow => (rowText_form (hfiled row hrow)).1⟩
  have hparsed : parseLines (Bytes.pieces 0x0a s.serializeText) = (0, s.kept) := by
    unfold Store.serializeText
    rw [hrows, List.map_map]
    show parseLines (Bytes.pieces 0x0a ((v2Header ::
      rows.map (fun row => rowText (serializedKey row.1, row.2))).flatMap _)) = _
    rw [Bytes.pieces_flatMap hlines, parseLines, if_pos rfl, foldl_parseLine_rowText hfiled,
      OrderedMap.foldl_emplace_of_perm _ hperm]
  unfold Store.loadText
  rw [hparsed]
  rfl

/-! ## Reachable stores -/

/-- **The stores that the operations reach.** Every observation is within the
bounds of the file; `Observe` and `ObserveCorrection` are one and two of them.
What is merged is itself reachable, and a store may also hold what it read from
a text of the current format. -/
inductive Reachable : Store → Prop
  | empty : Reachable {}
  | observeEvent {s : Store} {o : Observation} {alpha : Double} {nowEpochSec : UInt64}
      (h : Reachable s) (hwithin : o.Within alpha (observedRecord s.table o alpha nowEpochSec)) :
      Reachable (s.observeEvent o alpha nowEpochSec)
  | forget {s : Store} (h : Reachable s) (reading surface : Bytes) :
      Reachable (s.forget reading surface).1
  | set {s : Store} (h : Reachable s) (reading surface : Bytes) (record : Record) :
      Reachable (s.set reading surface record)
  | merge {s other : Store} (h : Reachable s) (hother : Reachable other)
      (policy : ImportConflictPolicy) : Reachable (s.merge other policy).1
  | prune {s : Store} (h : Reachable s) (exp : Double → Double) (maxRecords : ℕ)
      (minWeight : Double) (nowEpochSec : UInt64) :
      Reachable (s.prune exp maxRecords minWeight nowEpochSec)
  | reset {s : Store} (h : Reachable s) : Reachable s.reset
  | loadText {s : Store} {text : Bytes} (h : Reachable s)
      (hv2 : (Bytes.pieces 0x0a text).head? = some v2Header) : Reachable (s.loadText text).2

/-- **Every reachable store is within the bounds of the file.** -/
theorem Reachable.filed {s : Store} (h : Reachable s) : s.Filed := by
  induction h with
  | empty => exact OrderedMap.holds_empty
  | observeEvent _ hwithin ih => exact ih.observeEvent hwithin
  | forget _ reading surface ih => exact ih.forget reading surface
  | set _ reading surface record ih => exact ih.set reading surface record
  | merge _ _ policy ih ihother => exact ih.merge ihother policy
  | prune _ exp maxRecords minWeight now ih => exact ih.prune exp maxRecords minWeight now
  | reset _ _ => exact OrderedMap.holds_empty
  | loadText _ hv2 _ => exact Store.filed_loadText _ hv2

/-- **What was learned is read back.** A fresh store that loads the text of a
reachable one accepts every line of it, and then holds its rows that are not
forgotten, each under its three keys and with its whole record. -/
theorem loadText_serializeText_of_reachable (s : Store) (h : Reachable s) :
    (({} : Store).loadText s.serializeText).1 = true
      ∧ ∀ key, (({} : Store).loadText s.serializeText).2.table.find? key
          = (s.table.find? key).filter (fun rec => !rec.isForgotten) := by
  rw [loadText_serializeText (OrderedMap.Holds.filter h.filed _)]
  exact ⟨rfl, fun key => OrderedMap.find?_filter _ _ _⟩

/-- A word with a number sign, a tab and a backslash is reached. -/
theorem reachable_observed :
    Reachable (({} : Store).observe [0x23, 0x09] [0x5c, 0x0a] (.round false (1 / 2)) 7) := by
  unfold Store.observe
  exact .observeEvent .empty
    ⟨by decide, by decide, by decide +kernel, by decide +kernel, by decide, by decide +kernel,
      by decide +kernel, by decide +kernel, by decide +kernel⟩

/-- It is read back. -/
theorem loadText_serializeText_of_reachable_observed :
    let s := ({} : Store).observe [0x23, 0x09] [0x5c, 0x0a] (.round false (1 / 2)) 7
    (({} : Store).loadText s.serializeText).1 = true
      ∧ ∀ key, (({} : Store).loadText s.serializeText).2.table.find? key
          = (s.table.find? key).filter (fun rec => !rec.isForgotten) :=
  loadText_serializeText_of_reachable _ reachable_observed

end AzooKey.Learning.LearningStore

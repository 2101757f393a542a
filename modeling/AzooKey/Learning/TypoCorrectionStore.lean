import AzooKey.Core.Utf8
import AzooKey.Lib.Binary64
import AzooKey.Learning.AutoWordStore

/-!
# The store of typing corrections

`learning/src/TypoCorrectionStore.cpp`: how often a reading was typed again as
another one. A pair is counted only if it looks like a correction
(`isLearnablePair`): two different readings of at least two characters, near
each other in edit distance. The same test guards the reader, so a row that
does not pass it is dropped when the text is loaded.

Whatever the operations do, the table holds only pairs that pass, each with a
count (`Reachable.learned`). Together with the escapes this is what the text
needs to read back, for this store and for `AutoWordStore`
(`loadText_serializeText_all`).
-/

namespace AzooKey.Learning.Typo

open AzooKey.Core

/-! ## Which pairs are corrections -/

/-- `kTypoCorrectionMinReadingLength`, in code points. -/
def minReadingLength : ℕ := 2

/-- `kTypoCorrectionMaxReadingLength`, in code points. -/
def maxReadingLength : ℕ := 64

/-- `kTypoCorrectionMaxEditDistance`. -/
def maxEditDistance : ℕ := 3

/-- `kTypoCorrectionEditDistanceRatio`: the value of the literal `0.34`. -/
def editDistanceRatio : ℚ := nearest (34 / 100)

/-- The code points of at most `fuel` bytes. An invalid byte counts as one. -/
def decodeFrom : ℕ → Bytes → List ℕ
  | 0, _ => []
  | fuel + 1, value =>
    match decodeNextUtf8 value with
    | none => []
    | some d => d.codepoint :: decodeFrom fuel d.rest

/-- `DecodeUtf8`. -/
def decodeUtf8 (value : Bytes) : List ℕ := decodeFrom value.length value

/-- `Utf8CharLength`. -/
def utf8CharLength (value : Bytes) : ℕ := (decodeUtf8 value).length

/-- The rest of a row of the edit distance table: `left` is the entry before,
and the row above starts with the entry above that one. -/
def rowTail (c : ℕ) : ℕ → List ℕ → List ℕ → List ℕ
  | left, r :: rhs, diagonal :: above :: previous =>
    let substitution := diagonal + if c = r then 0 else 1
    let entry := min (min (left + 1) (above + 1)) substitution
    entry :: rowTail c entry rhs (above :: previous)
  | _, _, _ => []

/-- The row `i` of the table, from the one above it. -/
def nextRow (rhs : List ℕ) (previous : ℕ × List ℕ) (c : ℕ) : ℕ × List ℕ :=
  let i := previous.1 + 1
  (i, i :: rowTail c i rhs previous.2)

/-- **`Utf8EditDistance`**: the edit distance over code points, with a rolling
row. -/
def utf8EditDistance (a b : Bytes) : ℕ :=
  let lhs := decodeUtf8 a
  let rhs := decodeUtf8 b
  if lhs = [] then rhs.length
  else if rhs = [] then lhs.length
  else (lhs.foldl (nextRow rhs) (0, List.range (rhs.length + 1))).2.getD rhs.length 0

/-- `EditDistanceLimit`. -/
def editDistanceLimit (readingLength : ℕ) : ℕ :=
  let relative := ⌈nearest (nearest readingLength * editDistanceRatio)⌉
  min (max 1 relative.toNat) maxEditDistance

/-- **`IsLearnablePair`.** -/
def isLearnablePair (wrong correct : Bytes) : Bool :=
  let wrongLength := utf8CharLength wrong
  let correctLength := utf8CharLength correct
  let limit := editDistanceLimit (max wrongLength correctLength)
  let difference :=
    if correctLength < wrongLength then wrongLength - correctLength
    else correctLength - wrongLength
  if wrong = correct then false
  else if wrong = [] ∨ correct = [] then false
  else if wrongLength < minReadingLength ∨ correctLength < minReadingLength then false
  else if maxReadingLength < wrongLength ∨ maxReadingLength < correctLength then false
  else if limit < difference then false
  else utf8EditDistance wrong correct ≤ limit

/-! ## The operations -/

/-- `TypoCorrectionRecord`. -/
structure Record where
  count : UInt32 := 0
  lastUpdatedEpochSec : UInt64 := 0
deriving DecidableEq

/-- The table: the corrections of each wrong reading. -/
abbrev Table := NestedMap Bytes Bytes Record

/-- **`Observe`**: the table, and whether the pair was counted. -/
def observe (t : Table) (wrong correct : Bytes) (nowEpochSec : UInt64) : Table × Bool :=
  if isLearnablePair wrong correct then
    let record := (NestedMap.lookup t wrong correct).getD {}
    (NestedMap.put t wrong correct ⟨countUp record.count, nowEpochSec⟩, true)
  else (t, false)

/-- **`Remove`**: the table, and whether the pair was there. -/
def remove (t : Table) (wrong correct : Bytes) : Table × Bool :=
  if (NestedMap.lookup t wrong correct).isSome then (NestedMap.remove t wrong correct, true)
  else (t, false)

/-- One row of another store. -/
def mergeRow (policy : ImportConflictPolicy) (acc : Table × ImportCounts)
    (row : Bytes × Bytes × Record) : Table × ImportCounts :=
  let t := acc.1
  let counts := acc.2
  let record := row.2.2
  match NestedMap.lookup t row.1 row.2.1 with
  | none =>
    (NestedMap.put t row.1 row.2.1 record, { counts with imported := counts.imported + 1 })
  | some existing =>
    let counts := { counts with conflicts := counts.conflicts + 1 }
    match policy with
    | .merge =>
      (NestedMap.put t row.1 row.2.1
        ⟨saturatingAdd existing.count record.count,
          max existing.lastUpdatedEpochSec record.lastUpdatedEpochSec⟩,
        { counts with imported := counts.imported + 1 })
    | .overwrite =>
      (NestedMap.put t row.1 row.2.1 record, { counts with imported := counts.imported + 1 })
    | .keepBoth => (t, { counts with skipped := counts.skipped + 1 })

/-- **`Merge`** with another store. -/
def merge (t other : Table) (policy : ImportConflictPolicy) : Table × ImportCounts :=
  (NestedMap.rows other).foldl (mergeRow policy) (t, {})

/-! ## The text -/

/-- `kTypoCorrectionStoreEscapedTsvHeader`. -/
def escapedTsvHeader : Bytes := utf8 "# azookey-typo-correction-tsv escaped=1"

/-- The line of a pair. -/
def rowText (wrong correct : Bytes) (record : Record) : Bytes :=
  Bytes.joinFields 0x09 [escapeTsvField wrong, escapeTsvField correct]
    (decimalDigits record.count.toNat ++ 0x20 :: decimalDigits record.lastUpdatedEpochSec.toNat)

/-- **`SerializeText`.** -/
def serializeText (t : Table) : Bytes :=
  (escapedTsvHeader :: (NestedMap.rows t).map (fun row => rowText row.1 row.2.1 row.2.2)).flatMap
    (fun line => line ++ [0x0a])

/-- `ParseRecordValues`: a count and a time, and nothing else. A count of zero is
refused. -/
def parseRecordValues (value : Bytes) : Option Record := do
  let (countToken, value) ← consumeAsciiToken value
  let (timestampToken, value) ← consumeAsciiToken value
  if trimLeadingAsciiWhitespace value ≠ [] then none
  else
    let count ← parseUInt32 countToken
    let timestamp ← parseUInt64 timestampToken
    if count = 0 then none else some ⟨count, timestamp⟩

/-- What a field stands for. -/
def fieldText (escapedFields : Bool) (field : Bytes) : Bytes :=
  if escapedFields then unescapeTsvField field else field

/-- The row that three fields spell. -/
def rowOfFields (escapedFields : Bool) : List Bytes → Option (Bytes × Bytes × Record)
  | [wrong, correct, countTimestamp] => do
    let record ← parseRecordValues countTimestamp
    let wrong := fieldText escapedFields wrong
    let correct := fieldText escapedFields correct
    if isLearnablePair wrong correct then some (wrong, correct, record) else none
  | _ => none

/-- The row of a line. -/
def parseRow (escapedFields : Bool) (line : Bytes) : Option (Bytes × Bytes × Record) :=
  (Bytes.readFields 0x09 2 line).bind (rowOfFields escapedFields)

/-- One line of the text. A malformed one is skipped, and remembered. -/
def parseLine (escapedFields : Bool) (acc : Bool × Table) (line : Bytes) : Bool × Table :=
  if line = [] ∨ line.head? = some 0x23 then acc
  else
    match parseRow escapedFields line with
    | none => (false, acc.2)
    | some row => (acc.1, NestedMap.put acc.2 row.1 row.2.1 row.2.2)

/-- `ParseText` of the lines: only the first may be the header, which says that
the fields of the others are escaped. -/
def parseLines : List Bytes → Bool × Table
  | [] => (true, .empty)
  | first :: lines =>
    if first = escapedTsvHeader then lines.foldl (parseLine true) (true, .empty)
    else (first :: lines).foldl (parseLine false) (true, .empty)

/-- **`LoadText`**: the table is replaced by what the text holds. -/
def loadText (text : Bytes) : Bool × Table := parseLines (Bytes.pieces 0x0a text)

/-! ## Learned tables -/

/-- **A pair that the reader accepts**: it looks like a correction and was
counted. -/
def Counted (wrong correct : Bytes) (record : Record) : Prop :=
  isLearnablePair wrong correct = true ∧ record.count ≠ 0

/-- Every row of a table is one that the reader accepts. -/
abbrev Learned (t : Table) : Prop := NestedMap.Holds Counted t

/-- A count that was raised is not zero. -/
theorem countUp_ne_zero (count : UInt32) : countUp count ≠ 0 := by
  unfold countUp
  split
  · rename_i hlt
    intro hzero
    have hnat := congrArg UInt32.toNat hzero
    have hbound := UInt32.lt_iff_toNat_lt.mp hlt
    rw [UInt32.toNat_add] at hnat
    have hone : (1 : UInt32).toNat = 1 := rfl
    have hmax : (0xffffffff : UInt32).toNat = 2 ^ 32 - 1 := rfl
    have hz : (0 : UInt32).toNat = 0 := rfl
    omega
  · rename_i hlt
    rintro rfl
    exact hlt (by decide)

/-- A sum with a count that is not zero is not zero. -/
theorem saturatingAdd_ne_zero {a : UInt32} (b : UInt32) (ha : a ≠ 0) : saturatingAdd a b ≠ 0 := by
  have hpos : 0 < a.toNat := by
    rcases Nat.eq_zero_or_pos a.toNat with h | h
    · exact absurd (UInt32.toNat.inj (h.trans rfl)) ha
    · exact h
  intro hzero
  have hnat : (saturatingAdd a b).toNat = 0 := congrArg UInt32.toNat hzero
  have hvalue : (saturatingAdd a b).toNat = min (a.toNat + b.toNat) (2 ^ 32 - 1) :=
    UInt32.toNat_ofNat_of_lt' (by show _ < 2 ^ 32; omega)
  omega

/-- An observation keeps the pairs learnable and counted. -/
theorem Learned.observe {t : Table} (h : Learned t) (wrong correct : Bytes)
    (nowEpochSec : UInt64) : Learned (observe t wrong correct nowEpochSec).1 := by
  unfold Typo.observe
  split
  · rename_i hlearnable
    exact h.put ⟨hlearnable, countUp_ne_zero _⟩
  · exact h

/-- A removal keeps the pairs learnable and counted. -/
theorem Learned.remove {t : Table} (h : Learned t) (wrong correct : Bytes) :
    Learned (remove t wrong correct).1 := by
  unfold Typo.remove
  split
  · exact NestedMap.Holds.remove h wrong correct
  · exact h

/-- A row of another store keeps the pairs learnable and counted. -/
theorem Learned.mergeRow {acc : Table × ImportCounts} (h : Learned acc.1)
    {row : Bytes × Bytes × Record} (hrow : Counted row.1 row.2.1 row.2.2)
    (policy : ImportConflictPolicy) : Learned (mergeRow policy acc row).1 := by
  unfold Typo.mergeRow
  dsimp only
  split
  · exact h.put hrow
  · rename_i existing hfound
    split
    · exact h.put ⟨hrow.1, saturatingAdd_ne_zero _ (h.entry _ _ _ hfound).2⟩
    · exact h.put hrow
    · exact h

/-- Another store keeps the pairs learnable and counted. -/
theorem Learned.merge {t other : Table} (h : Learned t) (hother : Learned other)
    (policy : ImportConflictPolicy) : Learned (merge t other policy).1 := by
  have hrows : ∀ row ∈ NestedMap.rows other, Counted row.1 row.2.1 row.2.2 :=
    fun row hrow => hother.entry _ _ _ (NestedMap.mem_rows.mp hrow)
  have hfold : ∀ (rows : List (Bytes × Bytes × Record)) (acc : Table × ImportCounts),
      (∀ row ∈ rows, Counted row.1 row.2.1 row.2.2) → Learned acc.1 →
        Learned (rows.foldl (Typo.mergeRow policy) acc).1 := by
    intro rows
    induction rows with
    | nil => exact fun acc _ hacc => hacc
    | cons row rows ih =>
      intro acc hrows hacc
      exact ih _ (fun r hr => hrows r (List.mem_cons_of_mem _ hr))
        (hacc.mergeRow (hrows row List.mem_cons_self) policy)
  exact hfold _ (t, {}) hrows h

/-- What is read of two numbers has a count. -/
theorem count_ne_zero_of_parseRecordValues {value : Bytes} {record : Record}
    (h : parseRecordValues value = some record) : record.count ≠ 0 := by
  unfold parseRecordValues at h
  simp only [Option.bind_eq_bind, Option.bind_eq_some_iff] at h
  obtain ⟨_, -, _, -, h⟩ := h
  split at h
  · cases h
  · simp only [Option.bind_eq_some_iff] at h
    obtain ⟨count, -, timestamp, -, h⟩ := h
    split at h
    · cases h
    · rename_i hne
      rw [← Option.some.inj h]
      exact hne

/-- What is read of a line is a pair that the reader accepts. -/
theorem counted_of_parseRow {escapedFields : Bool} {line : Bytes} {row : Bytes × Bytes × Record}
    (h : parseRow escapedFields line = some row) : Counted row.1 row.2.1 row.2.2 := by
  obtain ⟨fields, -, h⟩ := Option.bind_eq_some_iff.mp h
  unfold rowOfFields at h
  split at h
  · simp only [Option.bind_eq_bind, Option.bind_eq_some_iff] at h
    obtain ⟨record, hrecord, h⟩ := h
    split at h
    · rename_i hlearnable
      rw [← Option.some.inj h]
      exact ⟨hlearnable, count_ne_zero_of_parseRecordValues hrecord⟩
    · cases h
  · cases h

/-- Lines keep the pairs learnable and counted. -/
theorem learned_foldl_parseLine (escapedFields : Bool) (lines : List Bytes) {acc : Bool × Table}
    (h : Learned acc.2) : Learned (lines.foldl (parseLine escapedFields) acc).2 := by
  induction lines generalizing acc with
  | nil => exact h
  | cons line lines ih =>
    refine ih ?_
    unfold parseLine
    split
    · exact h
    · split
      · exact h
      · rename_i row hrow
        exact h.put (counted_of_parseRow hrow)

/-- **A text gives learnable and counted pairs, whatever it holds.** -/
theorem learned_loadText (text : Bytes) : Learned (loadText text).2 := by
  unfold loadText parseLines
  split
  · exact NestedMap.holds_empty
  · split
    · exact learned_foldl_parseLine true _ NestedMap.holds_empty
    · exact learned_foldl_parseLine false _ NestedMap.holds_empty

/-! ## Reading back -/

/-- **Two numbers read back.** -/
theorem parseRecordValues_append {record : Record} (h : record.count ≠ 0) :
    parseRecordValues (decimalDigits record.count.toNat
      ++ 0x20 :: decimalDigits record.lastUpdatedEpochSec.toNat) = some record := by
  have hspace : ∀ (n : ℕ), ∀ c ∈ decimalDigits n, isAsciiWhitespace c = false :=
    fun n c hc => not_isAsciiWhitespace (isDigitByte_of_mem_decimalDigits hc)
  have hfirst : consumeAsciiToken (decimalDigits record.count.toNat
        ++ 0x20 :: decimalDigits record.lastUpdatedEpochSec.toNat)
      = some (decimalDigits record.count.toNat,
          0x20 :: decimalDigits record.lastUpdatedEpochSec.toNat) :=
    consumeAsciiToken_append (decimalDigits_ne_nil _) (hspace _) (by simp [isAsciiWhitespace])
  have hsecond : consumeAsciiToken (decimalDigits record.lastUpdatedEpochSec.toNat ++ [])
      = some (decimalDigits record.lastUpdatedEpochSec.toNat, []) :=
    consumeAsciiToken_append (decimalDigits_ne_nil _) (hspace _) (by simp)
  rw [List.append_nil] at hsecond
  unfold parseRecordValues
  simp only [Option.bind_eq_bind, hfirst, consumeAsciiToken_space, hsecond, Option.bind_some,
    parseUInt32_decimalDigits, parseUInt64_decimalDigits, if_neg h]
  rfl

/-- The fields of a line before the last hold no separator. -/
theorem not_mem_fields (wrong correct : Bytes) :
    ∀ field ∈ [escapeTsvField wrong, escapeTsvField correct], 0x09 ∉ field ∧ 0x0a ∉ field := by
  simp only [List.forall_mem_cons, List.not_mem_nil, false_imp_iff, implies_true, and_true]
  exact ⟨not_mem_escapeTsvField _, not_mem_escapeTsvField _⟩

/-- The last field of a line holds no line end and is not empty. -/
theorem not_mem_numbers (m n : ℕ) :
    0x0a ∉ decimalDigits m ++ 0x20 :: decimalDigits n
      ∧ decimalDigits m ++ 0x20 :: decimalDigits n ≠ [] := by
  constructor
  · intro h
    rcases List.mem_append.mp h with h | h
    · exact (not_mem_decimalDigits m).2 h
    · rcases List.mem_cons.mp h with h | h
      · exact absurd h (by decide)
      · exact (not_mem_decimalDigits n).2 h
  · exact fun h => decimalDigits_ne_nil m (List.append_eq_nil_iff.mp h).1

/-- **The line of a pair reads back.** -/
theorem parseRow_rowText {wrong correct : Bytes} {record : Record}
    (h : Counted wrong correct record) :
    parseRow true (rowText wrong correct record) = some (wrong, correct, record) := by
  obtain ⟨hline, hne⟩ := not_mem_numbers record.count.toNat record.lastUpdatedEpochSec.toNat
  have hfields := Bytes.readFields_joinFields
    (fun f hf => (not_mem_fields wrong correct f hf).1) hline hne
  unfold parseRow rowText
  rw [show (2 : ℕ) = [escapeTsvField wrong, escapeTsvField correct].length from rfl, hfields,
    Option.bind_some]
  show rowOfFields true [_, _, _] = _
  have hunescape : ∀ field, fieldText true (escapeTsvField field) = field :=
    fun field => unescape_escapeTsvField field
  rw [rowOfFields, parseRecordValues_append h.2]
  simp only [hunescape, Option.bind_eq_bind, Option.bind_some, if_pos h.1]

/-- The line of a pair is one line, and is no comment. -/
theorem rowText_form {wrong correct : Bytes} {record : Record} (h : wrong ≠ []) :
    0x0a ∉ rowText wrong correct record
      ∧ ¬ (rowText wrong correct record = []
        ∨ (rowText wrong correct record).head? = some 0x23) := by
  constructor
  · intro hmem
    rcases Bytes.mem_joinFields hmem with heq | ⟨field, hfield, hc⟩ | hc
    · exact absurd heq (by decide)
    · exact (not_mem_fields wrong correct field hfield).2 hc
    · exact (not_mem_numbers _ _).1 hc
  · unfold rowText
    rw [Bytes.joinFields_cons, not_or]
    exact head?_escapeTsvField _ _ h

/-- A pair that looks like a correction has a wrong reading. -/
theorem ne_nil_of_isLearnablePair {wrong correct : Bytes}
    (h : isLearnablePair wrong correct = true) : wrong ≠ [] := by
  rintro rfl
  unfold isLearnablePair at h
  dsimp only at h
  split at h
  · cases h
  · rw [if_pos (Or.inl rfl)] at h
    cases h

/-- **A table of learnable and counted pairs reads back from its text.** -/
theorem loadText_serializeText {t : Table} (h : Learned t) :
    loadText (serializeText t) = (true, t) := by
  have hcounted : ∀ row ∈ NestedMap.rows t, Counted row.1 row.2.1 row.2.2 :=
    fun row hrow => h.entry _ _ _ (NestedMap.mem_rows.mp hrow)
  have hform : ∀ row ∈ NestedMap.rows t, row.1 ≠ [] :=
    fun row hrow => ne_nil_of_isLearnablePair (hcounted row hrow).1
  have hlines : ∀ line ∈ escapedTsvHeader ::
      (NestedMap.rows t).map (fun row => rowText row.1 row.2.1 row.2.2), 0x0a ∉ line := by
    simp only [List.forall_mem_cons, List.forall_mem_map]
    exact ⟨by decide, fun row hrow => (rowText_form (hform row hrow)).1⟩
  have hrows : ∀ (rows : List (Bytes × Bytes × Record)) (acc : Table),
      (∀ row ∈ rows, Counted row.1 row.2.1 row.2.2) →
        (rows.map (fun row => rowText row.1 row.2.1 row.2.2)).foldl (parseLine true) (true, acc)
          = (true, rows.foldl (fun t row => NestedMap.put t row.1 row.2.1 row.2.2) acc) := by
    intro rows
    induction rows with
    | nil => exact fun acc _ => rfl
    | cons row rows ih =>
      intro acc hrows
      have hrow := hrows row List.mem_cons_self
      have hne := ne_nil_of_isLearnablePair hrow.1
      rw [List.map_cons, List.foldl_cons, List.foldl_cons, parseLine,
        if_neg (rowText_form hne).2, parseRow_rowText hrow]
      exact ih _ (fun r hr => hrows r (List.mem_cons_of_mem _ hr))
  unfold loadText serializeText
  rw [Bytes.pieces_flatMap hlines, parseLines, if_pos rfl, hrows _ _ hcounted,
    NestedMap.build_rows NestedMap.adds_put h.noEmptyBucket]
  exact (NestedMap.holds_foldl (P := Counted) (fun t row ht hrow => ht.put hrow)
    NestedMap.holds_empty hcounted).noEmptyBucket

/-! ## Reachable tables -/

/-- **The tables that the operations reach.** -/
inductive Reachable : Table → Prop
  | empty : Reachable .empty
  | observe {t : Table} (h : Reachable t) (wrong correct : Bytes) (nowEpochSec : UInt64) :
      Reachable (observe t wrong correct nowEpochSec).1
  | merge {t other : Table} (h : Reachable t) (hother : Reachable other)
      (policy : ImportConflictPolicy) : Reachable (merge t other policy).1
  | remove {t : Table} (h : Reachable t) (wrong correct : Bytes) :
      Reachable (remove t wrong correct).1
  | loadText (text : Bytes) : Reachable (loadText text).2

/-- **Every reachable table consists of pairs that the reader accepts.** -/
theorem Reachable.learned {t : Table} (h : Reachable t) : Learned t := by
  induction h with
  | empty => exact NestedMap.holds_empty
  | observe _ wrong correct now ih => exact ih.observe wrong correct now
  | merge _ _ policy ih ihother => exact ih.merge ihother policy
  | remove _ wrong correct ih => exact Learned.remove ih wrong correct
  | loadText text => exact learned_loadText text

/-- **Nothing that was learned disappears with a reload.** Every reachable table
of either store is read back from its own text, row for row and without a
complaint; and a reachable table of corrections holds only pairs that look
like corrections, with a count that fits and is not zero, in buckets that are
not empty. -/
theorem loadText_serializeText_all :
    (∀ t, AutoWord.Reachable t → AutoWord.loadText (AutoWord.serializeTable t) = (true, t))
      ∧ ∀ t, Reachable t → loadText (serializeText t) = (true, t)
        ∧ NestedMap.NoEmptyBucket t
        ∧ ∀ wrong correct record, NestedMap.lookup t wrong correct = some record →
          isLearnablePair wrong correct = true
            ∧ 1 ≤ record.count.toNat ∧ record.count.toNat ≤ 2 ^ 32 - 1 := by
  refine ⟨fun t ht => AutoWord.loadText_serializeTable ht.readable, fun t ht => ?_⟩
  have hlearned := ht.learned
  refine ⟨loadText_serializeText hlearned, hlearned.noEmptyBucket,
    fun wrong correct record hfound => ?_⟩
  obtain ⟨hpair, hcount⟩ := hlearned.entry wrong correct record hfound
  have hpos : record.count.toNat ≠ 0 := fun h => hcount (UInt32.toNat.inj (h.trans rfl))
  have hlt := record.count.toNat_lt
  exact ⟨hpair, by omega, by omega⟩

/-- A word whose surface is a comment sign and a tab, and a correction, read
back. -/
theorem loadText_serializeText_all_observed :
    let words := (AutoWord.observe .empty [0x23, 0x09] [0x61] 7 1 true).1
    let typos := (observe .empty [0x61, 0x62] [0x61, 0x63] 7).1
    AutoWord.loadText (AutoWord.serializeTable words) = (true, words)
      ∧ loadText (serializeText typos) = (true, typos) :=
  ⟨loadText_serializeText_all.1 _ (.observe .empty (by decide) (by decide) 7 1 true),
    (loadText_serializeText_all.2 _ (.observe .empty [0x61, 0x62] [0x61, 0x63] 7)).1⟩

end AzooKey.Learning.Typo

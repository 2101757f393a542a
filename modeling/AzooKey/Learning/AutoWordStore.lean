import AzooKey.Lib.NestedMap
import AzooKey.Learning.TsvText

/-!
# The store of words seen in no dictionary

`learning/src/AutoWordStore.cpp`: words that the host has seen but that no
dictionary knows, by reading and surface, until the user confirms or rejects
them. Each operation is a function on the table; the locks, which make the
operations atomic, are not modelled.

The table is kept as tab separated text. A field may hold any octets: those
that would end it or its line are escaped, and so is the number sign that
would turn the line into a comment. Every table that the operations reach
consists of rows the reader accepts (`Readable`, `Reachable.readable`),
and such a table reads back from its text (`loadText_serializeTable`).
-/

namespace AzooKey.Learning

namespace AutoWord

/-- `AutoWordSource`. -/
inductive Source
  | mining
  | trending
deriving DecidableEq

/-- `AutoWordState`. -/
inductive State
  | pending
  | confirmed
  | rejected
deriving DecidableEq

/-- `AutoWord`. -/
structure Word where
  surface : Bytes
  reading : Bytes
  source : Source := .mining
  state : State := .pending
  count : UInt32 := 0
  firstSeenEpoch : UInt64 := 0
  lastSeenEpoch : UInt64 := 0
  score : Double := .finite (.zero false)
deriving DecidableEq

/-- `Table`: the words of each reading, by surface. -/
abbrev Table := NestedMap Bytes Bytes Word

/-- `FindLocked`. -/
def findLocked (t : Table) (surface reading : Bytes) : Option Word :=
  NestedMap.lookup t reading surface

/-! ## The operations -/

/-- **`Observe`**: the table after one sighting, and whether it confirmed the
word. -/
def observe (t : Table) (surface reading : Bytes) (nowEpoch : UInt64) (promoteThreshold : UInt32)
    (autoPromote : Bool) : Table × Bool :=
  match findLocked t surface reading with
  | some existing =>
    if existing.state = .rejected then (t, false)
    else
      let seen := { existing with count := countUp existing.count, lastSeenEpoch := nowEpoch }
      if autoPromote ∧ seen.state = .pending ∧ promoteThreshold ≤ seen.count then
        (NestedMap.put t reading surface { seen with state := .confirmed }, true)
      else (NestedMap.put t reading surface seen, false)
  | none =>
    let promoted := autoPromote && decide (promoteThreshold ≤ 1)
    let word : Word :=
      { surface := surface, reading := reading, source := .mining
        state := if promoted then .confirmed else .pending
        count := 1, firstSeenEpoch := nowEpoch, lastSeenEpoch := nowEpoch }
    (NestedMap.emplace t reading surface word, promoted)

/-- One word of a trending list. -/
def ingestWord (nowEpoch : UInt64) (autoPromote : Bool) (t : Table) (incoming : Word) : Table :=
  if incoming.surface = [] ∨ incoming.reading = [] then t
  else
    match findLocked t incoming.surface incoming.reading with
    | some existing =>
      if existing.state = .rejected then t
      else
        NestedMap.put t incoming.reading incoming.surface
          { existing with
            lastSeenEpoch := nowEpoch
            score := existing.score.max incoming.score
            state := if autoPromote ∧ existing.state = .pending then .confirmed
              else existing.state }
    | none =>
      NestedMap.emplace t incoming.reading incoming.surface
        { incoming with
          source := .trending
          state := if autoPromote then .confirmed else .pending
          firstSeenEpoch := nowEpoch
          lastSeenEpoch := nowEpoch }

/-- **`IngestTrending`.** -/
def ingestTrending (t : Table) (batch : List Word) (nowEpoch : UInt64) (autoPromote : Bool) :
    Table :=
  batch.foldl (ingestWord nowEpoch autoPromote) t

/-- The table with the state of one word replaced, if the word is there. -/
def withState (t : Table) (surface reading : Bytes) (state : State) : Table :=
  match findLocked t surface reading with
  | some word => NestedMap.put t reading surface { word with state := state }
  | none => t

/-- `SetState`: the table, and the state that the word had. -/
def setState (t : Table) (surface reading : Bytes) (state : State) : Table × Option State :=
  (withState t surface reading state, (findLocked t surface reading).map Word.state)

/-- `CompareAndSetState`. -/
def compareAndSetState (t : Table) (surface reading : Bytes) (expected desired : State) :
    Table × Bool :=
  if (findLocked t surface reading).map Word.state = some expected then
    (withState t surface reading desired, true)
  else (t, false)

/-- `SetStateLocked`. -/
def setStateLocked (t : Table) (surface reading : Bytes) (state : State) : Table × Bool :=
  match findLocked t surface reading with
  | none => (t, false)
  | some word =>
    if word.state = state then (t, false) else (withState t surface reading state, true)

/-- `Confirm`. -/
def confirm (t : Table) (surface reading : Bytes) : Table × Bool :=
  setStateLocked t surface reading .confirmed

/-- `Reject`. -/
def reject (t : Table) (surface reading : Bytes) : Table × Bool :=
  setStateLocked t surface reading .rejected

/-- `LookupConfirmed`. -/
def lookupConfirmed (t : Table) (reading : Bytes) : List Word :=
  ((NestedMap.bucket t reading).entries.map Prod.snd).filter (fun word => word.state = .confirmed)

/-- A pending word that was not seen for too long. A word seen in the future,
after a change of the clock, is not old. -/
def expired (nowEpoch maxAgeSec : UInt64) (word : Word) : Bool :=
  word.state = .pending && word.lastSeenEpoch < nowEpoch && maxAgeSec < nowEpoch - word.lastSeenEpoch

/-- **`PrunePending`**: the table, and how many words went. -/
def prunePending (t : Table) (nowEpoch maxAgeSec : UInt64) : Table × ℕ :=
  let kept := NestedMap.filter t (fun _ _ word => !expired nowEpoch maxAgeSec word)
  (kept, (NestedMap.rows t).length - (NestedMap.rows kept).length)

/-- One row of another store. -/
def mergeRow (policy : ImportConflictPolicy) (acc : Table × ImportCounts)
    (row : Bytes × Bytes × Word) : Table × ImportCounts :=
  let t := acc.1
  let counts := acc.2
  let word := row.2.2
  match NestedMap.lookup t row.1 row.2.1 with
  | none =>
    (NestedMap.put t row.1 row.2.1 word, { counts with imported := counts.imported + 1 })
  | some existing =>
    let counts := { counts with conflicts := counts.conflicts + 1 }
    match policy with
    | .merge =>
      -- The local state wins, so an import never revives a rejected word.
      (NestedMap.put t row.1 row.2.1
        { existing with
          count := saturatingAdd existing.count word.count
          firstSeenEpoch := min existing.firstSeenEpoch word.firstSeenEpoch
          lastSeenEpoch := max existing.lastSeenEpoch word.lastSeenEpoch
          score := existing.score.max word.score },
        { counts with imported := counts.imported + 1 })
    | .overwrite =>
      (NestedMap.put t row.1 row.2.1 word, { counts with imported := counts.imported + 1 })
    | .keepBoth => (t, { counts with skipped := counts.skipped + 1 })

/-- **`Merge`** with another store. (A store that is merged with itself stays as
it is.) -/
def merge (t other : Table) (policy : ImportConflictPolicy) : Table × ImportCounts :=
  (NestedMap.rows other).foldl (mergeRow policy) (t, {})

/-! ## The text -/

/-- `AutoWordSourceName`. -/
def sourceName : Source → Bytes
  | .trending => utf8 "trending"
  | .mining => utf8 "mining"

/-- `AutoWordStateName`. -/
def stateName : State → Bytes
  | .confirmed => utf8 "confirmed"
  | .rejected => utf8 "rejected"
  | .pending => utf8 "pending"

/-- `ParseAutoWordSource`. -/
def parseSource (value : Bytes) : Option Source :=
  if value = utf8 "mining" then some .mining
  else if value = utf8 "trending" then some .trending
  else none

/-- `ParseAutoWordState`. -/
def parseState (value : Bytes) : Option State :=
  if value = utf8 "pending" then some .pending
  else if value = utf8 "confirmed" then some .confirmed
  else if value = utf8 "rejected" then some .rejected
  else none

/-- `ParseScore`. -/
def parseScore (token : Bytes) : Option Double := (parseFinite token).map .finite

/-- `FormatScore`. -/
def formatScore : Double → Bytes
  | .finite b => (toChars b).text
  | .infinity negative => if negative then utf8 "-inf" else utf8 "inf"
  | .nan => utf8 "nan"

/-- `kAutoWordStoreTsvHeader`. -/
def storeHeader : Bytes := utf8 "# azookey-auto-word-store v1"

/-- `kColumnHeader`. -/
def columnHeader : Bytes :=
  utf8 "# surface\treading\tsource\tstate\tcount\tfirst_seen_epoch\tlast_seen_epoch\tscore"

/-- The line of a word. -/
def rowText (word : Word) : Bytes :=
  Bytes.joinFields 0x09
    [escapeTsvField word.surface, escapeTsvField word.reading, sourceName word.source,
      stateName word.state, decimalDigits word.count.toNat,
      decimalDigits word.firstSeenEpoch.toNat, decimalDigits word.lastSeenEpoch.toNat]
    (formatScore word.score)

/-- **`SerializeTable`.** -/
def serializeTable (t : Table) : Bytes :=
  (storeHeader :: columnHeader :: (NestedMap.rows t).map (fun row => rowText row.2.2)).flatMap
    (fun line => line ++ [0x0a])

/-- The word that eight fields spell. -/
def wordOfFields : List Bytes → Option Word
  | [surface, reading, source, state, count, firstSeen, lastSeen, score] =>
    if unescapeTsvField surface = [] ∨ unescapeTsvField reading = [] then none
    else do
      let source ← parseSource source
      let state ← parseState state
      let count ← parseUInt32 count
      let firstSeen ← parseUInt64 firstSeen
      let lastSeen ← parseUInt64 lastSeen
      let score ← parseScore score
      some ⟨unescapeTsvField surface, unescapeTsvField reading, source, state, count, firstSeen,
        lastSeen, score⟩
  | _ => none

/-- The word of a line. Its last field runs to the end of the line. -/
def parseRow (line : Bytes) : Option Word := (Bytes.readFields 0x09 7 line).bind wordOfFields

/-- One line of the text. A malformed one is skipped, and remembered. -/
def parseLine (acc : Bool × Table) (line : Bytes) : Bool × Table :=
  if line = [] ∨ line.head? = some 0x23 then acc
  else
    match parseRow line with
    | none => (false, acc.2)
    | some word => (acc.1, NestedMap.emplace acc.2 word.reading word.surface word)

/-- `ParseText`: whether every row was well formed, and the table. -/
def parseText (text : Bytes) : Bool × Table :=
  (Bytes.pieces 0x0a text).foldl parseLine (true, .empty)

/-- **`LoadText`**: the table is replaced by what the text holds. -/
def loadText (text : Bytes) : Bool × Table := parseText text

/-! ## Readable tables -/

/-- **A word that the reader accepts**, filed where it belongs. -/
structure Filed (reading surface : Bytes) (word : Word) : Prop where
  reading_eq : word.reading = reading
  surface_eq : word.surface = surface
  reading_ne : reading ≠ []
  surface_ne : surface ≠ []
  finite : word.score.isFinite = true

/-- Every row of a table is one that the reader accepts. -/
abbrev Readable (t : Table) : Prop := NestedMap.Holds Filed t

/-- A word that differs in its source, its state, its counters or a finite score
is filed where it was. -/
theorem Filed.congr {reading surface : Bytes} {word word' : Word} (h : Filed reading surface word)
    (hreading : word'.reading = word.reading) (hsurface : word'.surface = word.surface)
    (hscore : word'.score.isFinite = true) : Filed reading surface word' :=
  ⟨hreading.trans h.reading_eq, hsurface.trans h.surface_eq, h.reading_ne, h.surface_ne, hscore⟩

/-- A word that is found is filed where it was found. -/
theorem Readable.of_findLocked {t : Table} (h : Readable t) {surface reading : Bytes} {word : Word}
    (hfound : findLocked t surface reading = some word) : Filed reading surface word :=
  h.entry reading surface word hfound

/-- A sighting keeps the rows readable. -/
theorem Readable.observe {t : Table} (h : Readable t) {surface reading : Bytes}
    (hsurface : surface ≠ []) (hreading : reading ≠ []) (nowEpoch : UInt64)
    (promoteThreshold : UInt32) (autoPromote : Bool) :
    Readable (observe t surface reading nowEpoch promoteThreshold autoPromote).1 := by
  unfold AutoWord.observe
  split
  · rename_i existing hfound
    have hfiled := h.of_findLocked hfound
    dsimp only
    split
    · exact h
    · split
      · exact h.put (hfiled.congr rfl rfl hfiled.finite)
      · exact h.put (hfiled.congr rfl rfl hfiled.finite)
  · exact h.emplace ⟨rfl, rfl, hreading, hsurface, rfl⟩

/-- A trending word keeps the rows readable. -/
theorem Readable.ingestWord {t : Table} (h : Readable t) {incoming : Word}
    (hscore : incoming.score.isFinite = true) (nowEpoch : UInt64) (autoPromote : Bool) :
    Readable (ingestWord nowEpoch autoPromote t incoming) := by
  unfold AutoWord.ingestWord
  split
  · exact h
  · rename_i hempty
    obtain ⟨hsurface, hreading⟩ := not_or.mp hempty
    split
    · rename_i existing hfound
      have hfiled := h.of_findLocked hfound
      split
      · exact h
      · exact h.put (hfiled.congr rfl rfl (Double.isFinite_max hfiled.finite hscore))
    · exact h.emplace ⟨rfl, rfl, hreading, hsurface, hscore⟩

/-- A trending list keeps the rows readable. -/
theorem Readable.ingestTrending {t : Table} (h : Readable t) {batch : List Word}
    (hbatch : ∀ word ∈ batch, word.score.isFinite = true) (nowEpoch : UInt64)
    (autoPromote : Bool) : Readable (ingestTrending t batch nowEpoch autoPromote) := by
  unfold AutoWord.ingestTrending
  induction batch generalizing t with
  | nil => exact h
  | cons word batch ih =>
    exact ih (h.ingestWord (hbatch word List.mem_cons_self) nowEpoch autoPromote)
      (fun w hw => hbatch w (List.mem_cons_of_mem _ hw))

/-- A new state keeps the rows readable. -/
theorem Readable.withState {t : Table} (h : Readable t) (surface reading : Bytes)
    (state : State) : Readable (withState t surface reading state) := by
  unfold AutoWord.withState
  split
  · rename_i word hfound
    have hfiled := h.of_findLocked hfound
    exact h.put (hfiled.congr rfl rfl hfiled.finite)
  · exact h

/-- A row of another store keeps the rows readable. -/
theorem Readable.mergeRow {acc : Table × ImportCounts} (h : Readable acc.1)
    {row : Bytes × Bytes × Word} (hrow : Filed row.1 row.2.1 row.2.2)
    (policy : ImportConflictPolicy) : Readable (mergeRow policy acc row).1 := by
  unfold AutoWord.mergeRow
  dsimp only
  split
  · exact h.put hrow
  · rename_i existing hfound
    have hfiled := h.entry _ _ _ hfound
    split
    · exact h.put (hfiled.congr rfl rfl (Double.isFinite_max hfiled.finite hrow.finite))
    · exact h.put hrow
    · exact h

/-- Another store keeps the rows readable. -/
theorem Readable.merge {t other : Table} (h : Readable t) (hother : Readable other)
    (policy : ImportConflictPolicy) : Readable (merge t other policy).1 := by
  have hrows : ∀ row ∈ NestedMap.rows other, Filed row.1 row.2.1 row.2.2 :=
    fun row hrow => hother.entry _ _ _ (NestedMap.mem_rows.mp hrow)
  have hfold : ∀ (rows : List (Bytes × Bytes × Word)) (acc : Table × ImportCounts),
      (∀ row ∈ rows, Filed row.1 row.2.1 row.2.2) → Readable acc.1 →
        Readable (rows.foldl (AutoWord.mergeRow policy) acc).1 := by
    intro rows
    induction rows with
    | nil => exact fun acc _ hacc => hacc
    | cons row rows ih =>
      intro acc hrows hacc
      exact ih _ (fun r hr => hrows r (List.mem_cons_of_mem _ hr))
        (hacc.mergeRow (hrows row List.mem_cons_self) policy)
  exact hfold _ (t, {}) hrows h

/-- What is read of a line is a word that the reader accepts. -/
theorem filed_of_parseRow {line : Bytes} {word : Word} (h : parseRow line = some word) :
    Filed word.reading word.surface word := by
  obtain ⟨fields, -, h⟩ := Option.bind_eq_some_iff.mp h
  unfold wordOfFields at h
  split at h
  · split_ifs at h with hempty
    simp only [Option.bind_eq_bind, Option.bind_eq_some_iff] at h
    obtain ⟨_, -, _, -, _, -, _, -, _, -, score, hscore, h⟩ := h
    obtain ⟨b, -, rfl⟩ := Option.map_eq_some_iff.mp hscore
    obtain ⟨hsurface, hreading⟩ := not_or.mp hempty
    rw [← Option.some.inj h]
    exact ⟨rfl, rfl, hreading, hsurface, rfl⟩
  · cases h

/-- A line keeps the rows readable. -/
theorem Readable.parseLine {acc : Bool × Table} (h : Readable acc.2) (line : Bytes) :
    Readable (parseLine acc line).2 := by
  unfold AutoWord.parseLine
  split_ifs
  · exact h
  · split
    · exact h
    · rename_i word hword
      exact h.emplace (filed_of_parseRow hword)

/-- **A text gives readable rows, whatever it holds.** -/
theorem readable_loadText (text : Bytes) : Readable (loadText text).2 := by
  have hfold : ∀ (lines : List Bytes) (acc : Bool × Table), Readable acc.2 →
      Readable (lines.foldl AutoWord.parseLine acc).2 := by
    intro lines
    induction lines with
    | nil => exact fun acc h => h
    | cons line lines ih => exact fun acc h => ih _ (h.parseLine line)
  exact hfold _ _ NestedMap.holds_empty

/-! ## Reading back -/

/-- The name of a source holds no separator and reads back. -/
theorem parseSource_sourceName (source : Source) :
    (0x09 ∉ sourceName source ∧ 0x0a ∉ sourceName source)
      ∧ parseSource (sourceName source) = some source := by
  cases source <;> decide

/-- The name of a state holds no separator and reads back. -/
theorem parseState_stateName (state : State) :
    (0x09 ∉ stateName state ∧ 0x0a ∉ stateName state)
      ∧ parseState (stateName state) = some state := by
  cases state <;> decide

/-- A finite score is not empty, holds no line end and reads back. -/
theorem parseScore_formatScore {score : Double} (h : score.isFinite = true) :
    formatScore score ≠ [] ∧ 0x0a ∉ formatScore score
      ∧ parseScore (formatScore score) = some score := by
  cases score with
  | finite b =>
    refine ⟨Numeral.text_ne_nil _, fun hmem => ?_, ?_⟩
    · rcases mem_text hmem with h | h
      · exact absurd h (by decide)
      · exact absurd h (by decide)
    · show (parseFinite (toChars b).text).map Double.finite = _
      rw [parseFinite_toChars]
      rfl
  | infinity => cases h
  | nan => cases h

/-- The fields of a line before the last hold no separator. -/
theorem not_mem_fields (word : Word) :
    ∀ field ∈ [escapeTsvField word.surface, escapeTsvField word.reading, sourceName word.source,
      stateName word.state, decimalDigits word.count.toNat,
      decimalDigits word.firstSeenEpoch.toNat, decimalDigits word.lastSeenEpoch.toNat],
      0x09 ∉ field ∧ 0x0a ∉ field := by
  simp only [List.forall_mem_cons, List.not_mem_nil, false_imp_iff, implies_true, and_true]
  exact ⟨not_mem_escapeTsvField _, not_mem_escapeTsvField _, (parseSource_sourceName _).1,
    (parseState_stateName _).1, not_mem_decimalDigits _, not_mem_decimalDigits _,
    not_mem_decimalDigits _⟩

/-- **The line of a word reads back.** -/
theorem parseRow_rowText {reading surface : Bytes} {word : Word}
    (h : Filed reading surface word) : parseRow (rowText word) = some word := by
  obtain ⟨hne, hline, hscore⟩ := parseScore_formatScore h.finite
  unfold parseRow rowText
  have hfields := Bytes.readFields_joinFields (fun f hf => (not_mem_fields word f hf).1) hline hne
  rw [show (7 : ℕ) = [escapeTsvField word.surface, escapeTsvField word.reading,
    sourceName word.source, stateName word.state, decimalDigits word.count.toNat,
    decimalDigits word.firstSeenEpoch.toNat, decimalDigits word.lastSeenEpoch.toNat].length from rfl,
    hfields, Option.bind_some]
  show wordOfFields [_, _, _, _, _, _, _, _] = _
  rw [wordOfFields, unescape_escapeTsvField, unescape_escapeTsvField,
    if_neg (by rw [h.reading_eq, h.surface_eq, not_or]; exact ⟨h.surface_ne, h.reading_ne⟩),
    (parseSource_sourceName _).2, (parseState_stateName _).2, parseUInt32_decimalDigits,
    parseUInt64_decimalDigits, parseUInt64_decimalDigits, hscore]
  rfl

/-- The line of a word is one line, and is no comment. -/
theorem rowText_form {reading surface : Bytes} {word : Word} (h : Filed reading surface word) :
    0x0a ∉ rowText word ∧ ¬ (rowText word = [] ∨ (rowText word).head? = some 0x23) := by
  constructor
  · intro hmem
    rcases Bytes.mem_joinFields hmem with heq | ⟨field, hfield, hc⟩ | hc
    · exact absurd heq (by decide)
    · exact (not_mem_fields word field hfield).2 hc
    · exact (parseScore_formatScore h.finite).2.1 hc
  · unfold rowText
    rw [Bytes.joinFields_cons, not_or]
    exact head?_escapeTsvField _ _ (by rw [h.surface_eq]; exact h.surface_ne)

/-- **A readable table reads back from its text.** -/
theorem loadText_serializeTable {t : Table} (h : Readable t) :
    loadText (serializeTable t) = (true, t) := by
  have hfiled : ∀ row ∈ NestedMap.rows t, Filed row.1 row.2.1 row.2.2 :=
    fun row hrow => h.entry _ _ _ (NestedMap.mem_rows.mp hrow)
  have hlines : ∀ line ∈ storeHeader :: columnHeader ::
      (NestedMap.rows t).map (fun row => rowText row.2.2), 0x0a ∉ line := by
    simp only [List.forall_mem_cons, List.forall_mem_map]
    exact ⟨by decide, by decide, fun row hrow => (rowText_form (hfiled row hrow)).1⟩
  -- The two headers are comments; each other line adds its word.
  have hheader : ∀ acc, parseLine (parseLine acc storeHeader) columnHeader = acc := by
    intro acc
    have hcomment : (storeHeader = [] ∨ storeHeader.head? = some 0x23)
        ∧ (columnHeader = [] ∨ columnHeader.head? = some 0x23) := by decide
    rw [parseLine, if_pos hcomment.2, parseLine, if_pos hcomment.1]
  have hrows : ∀ (rows : List (Bytes × Bytes × Word)) (acc : Table),
      (∀ row ∈ rows, Filed row.1 row.2.1 row.2.2) →
        (rows.map (fun row => rowText row.2.2)).foldl parseLine (true, acc)
          = (true, rows.foldl (fun t row => NestedMap.emplace t row.1 row.2.1 row.2.2) acc) := by
    intro rows
    induction rows with
    | nil => exact fun acc _ => rfl
    | cons row rows ih =>
      intro acc hrows
      have hrow := hrows row List.mem_cons_self
      have hline : parseLine (true, acc) (rowText row.2.2)
          = (true, NestedMap.emplace acc row.1 row.2.1 row.2.2) := by
        rw [parseLine, if_neg (rowText_form hrow).2, parseRow_rowText hrow]
        show (true, NestedMap.emplace acc row.2.2.reading row.2.2.surface row.2.2) = _
        rw [hrow.reading_eq, hrow.surface_eq]
      rw [List.map_cons, List.foldl_cons, List.foldl_cons, hline]
      exact ih _ (fun r hr => hrows r (List.mem_cons_of_mem _ hr))
  unfold loadText parseText serializeTable
  rw [Bytes.pieces_flatMap hlines, List.foldl_cons, List.foldl_cons, hheader, hrows _ _ hfiled,
    NestedMap.build_rows NestedMap.adds_emplace h.noEmptyBucket]
  exact (NestedMap.holds_foldl (P := Filed) (fun t row ht hrow => ht.emplace hrow)
    NestedMap.holds_empty hfiled).noEmptyBucket

/-! ## Reachable tables -/

/-- **The tables that the operations reach.** A sighting has a surface and a
reading, and a trending word a finite score; what is merged is itself
reachable, and what is loaded is any text. -/
inductive Reachable : Table → Prop
  | empty : Reachable .empty
  | observe {t : Table} {surface reading : Bytes} (h : Reachable t) (hsurface : surface ≠ [])
      (hreading : reading ≠ []) (nowEpoch : UInt64) (promoteThreshold : UInt32)
      (autoPromote : Bool) :
      Reachable (observe t surface reading nowEpoch promoteThreshold autoPromote).1
  | ingestTrending {t : Table} {batch : List Word} (h : Reachable t)
      (hbatch : ∀ word ∈ batch, word.score.isFinite = true) (nowEpoch : UInt64)
      (autoPromote : Bool) : Reachable (ingestTrending t batch nowEpoch autoPromote)
  | setState {t : Table} (h : Reachable t) (surface reading : Bytes) (state : State) :
      Reachable (setState t surface reading state).1
  | merge {t other : Table} (h : Reachable t) (hother : Reachable other)
      (policy : ImportConflictPolicy) : Reachable (merge t other policy).1
  | prunePending {t : Table} (h : Reachable t) (nowEpoch maxAgeSec : UInt64) :
      Reachable (prunePending t nowEpoch maxAgeSec).1
  | loadText (text : Bytes) : Reachable (loadText text).2

/-- **Every reachable table consists of rows that the reader accepts.** -/
theorem Reachable.readable {t : Table} (h : Reachable t) : Readable t := by
  induction h with
  | empty => exact NestedMap.holds_empty
  | observe _ hsurface hreading now threshold promote ih =>
    exact ih.observe hsurface hreading now threshold promote
  | ingestTrending _ hbatch now promote ih => exact ih.ingestTrending hbatch now promote
  | setState _ surface reading state ih => exact ih.withState surface reading state
  | merge _ _ policy ih ihother => exact ih.merge ihother policy
  | prunePending _ now maxAge ih =>
    exact NestedMap.Holds.filter ih (fun _ _ word => !expired now maxAge word)
  | loadText text => exact readable_loadText text

end AutoWord

end AzooKey.Learning

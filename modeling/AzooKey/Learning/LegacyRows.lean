import AzooKey.Learning.LearningStoreFiles

/-!
# The rows of an old text

`WithoutLegacyRows` of `learning/src/LearningStore.cpp` against `ParseRows` of
the same file. The reader delivers, line by line, a row or that the line is
malformed (`parseRows`), and `parseLines` of the whole text is what is left when
its rows are emplaced (`parseLines_eq`). The rewriter works on the segments, so
that the lines it keeps keep their bytes.

Only the first line of a text may be a header. A line further down that reads
like one is malformed and is kept; where every line in front of it is a row that
goes, it becomes the first line, and the lines behind it are read in another
format (`HeaderMovesUp`). Everywhere else the rewriter removes exactly the rows
of the pair (`removes_iff`).
-/

namespace AzooKey.Learning.LearningStore

/-! ## The rows of a text -/

/-- `Format` of `ParseRows`. -/
inductive Format
  | v2
  | escaped
  | legacy
deriving DecidableEq

/-- The parser of a format. -/
def Format.parseRow : Format → Bytes → Option (Key × Record)
  | .v2 => parseV2Row
  | .escaped => parseLegacyRow true
  | .legacy => parseLegacyRow false

/-- The format that the first line announces, and the lines to parse. -/
def formatOf : List Bytes → Format × List Bytes
  | [] => (.legacy, [])
  | first :: lines =>
    if first = v2Header then (.v2, lines)
    else if first = escapedTsvHeader then (.escaped, lines)
    else (.legacy, first :: lines)

/-- The calls that `ParseRows` makes for some lines: `on_row` with a row, or
`on_malformed`, here with the line itself. -/
def parsed (parseRow : Bytes → Option (Key × Record)) (lines : List Bytes) :
    List (Bytes × Option (Key × Record)) :=
  (lines.filter (fun line => line ≠ [])).map (fun line => (line, parseRow line))

/-- **`ParseRows`.** -/
def parseRows (text : Bytes) : List (Bytes × Option (Key × Record)) :=
  let format := formatOf (Bytes.pieces 0x0a text)
  parsed format.1.parseRow format.2

/-- The rows that are delivered. -/
def parsedRows (text : Bytes) : List (Key × Record) := (parseRows text).filterMap Prod.snd

/-- The lines that are malformed. -/
def malformedLines (text : Bytes) : List Bytes :=
  ((parseRows text).filter (fun call => call.2.isNone)).map Prod.fst

/-- Emplacing the rows of some lines. -/
theorem foldl_parseLine (parseRow : Bytes → Option (Key × Record)) (lines : List Bytes)
    (acc : ℕ × Table) :
    lines.foldl (parseLine parseRow) acc
      = (acc.1 + ((parsed parseRow lines).filter (fun call => call.2.isNone)).length,
          ((parsed parseRow lines).filterMap Prod.snd).foldl
            (fun t row => t.emplace row.1 row.2) acc.2) := by
  induction lines generalizing acc with
  | nil => rfl
  | cons line lines ih =>
    rw [List.foldl_cons, ih]
    by_cases hline : line = []
    · simp [parseLine, parsed, hline]
    · cases hrow : parseRow line with
      | none =>
        simp [parseLine, parsed, hline, hrow]
        omega
      | some row => simp [parseLine, parsed, hline, hrow]

/-- **What `ParseInto` makes of a text**: the number of the malformed lines, and
the rows, of which the first of a key stays. -/
theorem parseLines_eq (text : Bytes) :
    parseLines (Bytes.pieces 0x0a text)
      = ((malformedLines text).length,
          (parsedRows text).foldl (fun t row => t.emplace row.1 row.2) .empty) := by
  have hformat : parseLines (Bytes.pieces 0x0a text)
      = (formatOf (Bytes.pieces 0x0a text)).2.foldl
          (parseLine (formatOf (Bytes.pieces 0x0a text)).1.parseRow) (0, .empty) := by
    cases Bytes.pieces 0x0a text with
    | nil => rfl
    | cons first lines =>
      rw [parseLines, formatOf]
      split
      · rfl
      · split <;> rfl
  rw [hformat, foldl_parseLine, Nat.zero_add, malformedLines, parsedRows, parseRows,
    List.length_map]

/-! ## The rewritten text -/

/-- A row goes: of the pair, or any when there is none. -/
def goes (pair : Option (Bytes × Bytes)) (row : Key × Record) : Bool :=
  pair.all (fun p => row.1.reading = p.1 ∧ row.1.surface = p.2)

/-- Whether the fields of the rows are escaped, from the first line. -/
def escapedFields (lines : List Bytes) : Bool := lines.head? = some escapedTsvHeader

/-- The lines that are kept. -/
def keptLines (pair : Option (Bytes × Bytes)) (lines : List Bytes) : List Bytes :=
  lines.filter (fun line => !dropsRow pair (escapedFields lines) line)

/-- A line goes when it is a row that goes. -/
theorem dropsRow_eq (pair : Option (Bytes × Bytes)) (escaped : Bool) (line : Bytes) :
    dropsRow pair escaped line
      = (line ≠ [] && (parseLegacyRow escaped line).any (goes pair)) := rfl

/-- The rewritten text, from its segments. -/
theorem withoutLegacyRows_eq (pair : Option (Bytes × Bytes)) (text : Bytes) :
    (withoutLegacyRows pair text).1
      = ((Bytes.segments 0x0a text).filter (fun segment =>
          !dropsRow pair (escapedFields (Bytes.pieces 0x0a text))
            (Bytes.segmentText 0x0a segment))).flatten := by
  rw [withoutLegacyRows, escapedFields, Bytes.pieces_eq_map_segments, List.head?_map]

/-- **The lines of the rewritten text are those that are kept.** -/
theorem pieces_withoutLegacyRows (pair : Option (Bytes × Bytes)) (text : Bytes) :
    Bytes.pieces 0x0a (withoutLegacyRows pair text).1
      = keptLines pair (Bytes.pieces 0x0a text) := by
  rw [withoutLegacyRows_eq, Bytes.pieces_eq_map_segments,
    ((Bytes.segmented_segments 0x0a text).filter _).segments_flatten, keptLines,
    Bytes.pieces_eq_map_segments 0x0a text, List.filter_map]
  rfl

/-- Whether a line was left out. -/
theorem snd_withoutLegacyRows (pair : Option (Bytes × Bytes)) (text : Bytes) :
    (withoutLegacyRows pair text).2
      = (Bytes.pieces 0x0a text).any
          (dropsRow pair (escapedFields (Bytes.pieces 0x0a text))) := by
  rw [withoutLegacyRows, escapedFields, Bytes.pieces_eq_map_segments, List.head?_map, List.any_map]
  rfl

/-- A line without a separator is no row. -/
theorem dropsRow_header (pair : Option (Bytes × Bytes)) (escaped : Bool) {header : Bytes}
    (h : header = v2Header ∨ header = escapedTsvHeader) : dropsRow pair escaped header = false := by
  have hnone : parseLegacyRow escaped header = none := by
    rcases h with rfl | rfl
    · cases escaped <;> decide
    · cases escaped <;> decide
  rw [dropsRow_eq, hnone, Option.any_none, Bool.and_false]

/-! ## When the rows are removed -/

/-- **A header moves up**: every line in front of it is a row that goes, so the
rewriter makes it the first line. -/
def HeaderMovesUp (pair : Option (Bytes × Bytes)) (lines : List Bytes) : Prop :=
  ∃ removed header rest, removed ≠ [] ∧ (header = v2Header ∨ header = escapedTsvHeader) ∧
    lines = removed ++ header :: rest ∧ ∀ line ∈ removed, dropsRow pair false line = true

/-- A text of the older formats: its first line does not announce the current
one. -/
def IsLegacyText (text : Bytes) : Prop := (Bytes.pieces 0x0a text).head? ≠ some v2Header

/-- **What a removal does to a text**: the parsed rows are those before without
the ones that go, the malformed lines are as they were, and the text is made of
whole lines of the one before, with their ends. A second removal does
nothing. -/
structure Removes (text : Bytes) (pair : Option (Bytes × Bytes)) : Prop where
  rows : parsedRows (withoutLegacyRows pair text).1
    = (parsedRows text).filter (fun row => !goes pair row)
  malformed : malformedLines (withoutLegacyRows pair text).1 = malformedLines text
  lines : ∃ kept : List Bytes, kept.Sublist (Bytes.segments 0x0a text) ∧
    (withoutLegacyRows pair text).1 = kept.flatten
  removed : (withoutLegacyRows pair text).2 = true ↔ ∃ row ∈ parsedRows text, goes pair row = true
  twice : (withoutLegacyRows pair (withoutLegacyRows pair text).1).1
    = (withoutLegacyRows pair text).1

/-! ## The format of the lines that are kept -/

/-- The two headers differ. -/
theorem v2Header_ne_escapedTsvHeader : v2Header ≠ escapedTsvHeader := by decide

/-- The fields are escaped in the format that says so. -/
theorem escapedFields_eq (lines : List Bytes) :
    escapedFields lines = decide ((formatOf lines).1 = .escaped) := by
  cases lines with
  | nil => rfl
  | cons first lines =>
    rw [escapedFields, formatOf]
    by_cases hv2 : first = v2Header
    · simp [hv2, v2Header_ne_escapedTsvHeader]
    · by_cases hescaped : first = escapedTsvHeader
      · simp [hescaped, v2Header_ne_escapedTsvHeader.symm]
      · simp [hv2, hescaped]

/-- The parser of a text in one of the older formats. -/
theorem parseRow_formatOf {lines : List Bytes} (h : lines.head? ≠ some v2Header) :
    (formatOf lines).1.parseRow = parseLegacyRow (escapedFields lines) := by
  cases lines with
  | nil => rfl
  | cons first lines =>
    have hfirst : first ≠ v2Header := fun heq => h (by rw [heq]; rfl)
    rw [formatOf, if_neg hfirst]
    by_cases hescaped : first = escapedTsvHeader
    · simp [hescaped, escapedFields, Format.parseRow]
    · simp [hescaped, escapedFields, Format.parseRow]

/-- **The format is kept, unless a header moves up.** -/
theorem formatOf_keptLines {pair : Option (Bytes × Bytes)} {lines : List Bytes}
    (h : lines.head? ≠ some v2Header) (hmoves : ¬HeaderMovesUp pair lines) :
    formatOf (keptLines pair lines)
      = ((formatOf lines).1,
          (formatOf lines).2.filter (fun line => !dropsRow pair (escapedFields lines) line)) := by
  cases lines with
  | nil => rfl
  | cons first lines =>
    have hv2 : first ≠ v2Header := fun heq => h (by rw [heq]; rfl)
    by_cases hfirst : first = escapedTsvHeader
    · -- the header stays where it is
      have hkept : (!dropsRow pair (escapedFields (first :: lines)) first) = true := by
        rw [dropsRow_header pair _ (Or.inr hfirst), Bool.not_false]
      rw [keptLines, List.filter_cons_of_pos (p := fun line =>
        !dropsRow pair (escapedFields (first :: lines)) line) hkept, formatOf, formatOf, if_neg hv2, if_neg hv2,
        if_pos hfirst, if_pos hfirst]
    · have hescaped : escapedFields (first :: lines) = false := by
        simp [escapedFields, hfirst]
      have hformat : formatOf (first :: lines) = (.legacy, first :: lines) := by
        rw [formatOf, if_neg hv2, if_neg hfirst]
      rw [hformat, keptLines, hescaped]
      cases hkept : (first :: lines).filter (fun line => !dropsRow pair false line) with
      | nil => rfl
      | cons line rest =>
        obtain ⟨removed, behind, hlines, hremoved, -, -⟩ := List.filter_eq_cons_iff.mp hkept
        -- a header in front of what is kept stood behind rows that went
        have hheader : ¬(line = v2Header ∨ line = escapedTsvHeader) := by
          intro hheader
          refine hmoves ⟨removed, line, behind, fun hnil => ?_, hheader, hlines,
            fun l hl => by simpa using hremoved l hl⟩
          rw [hnil, List.nil_append] at hlines
          have hline : first = line := (List.cons.inj hlines).1
          rw [← hline] at hheader
          exact hheader.elim hv2 hfirst
        rw [not_or] at hheader
        rw [formatOf, if_neg hheader.1, if_neg hheader.2]

/-! ## Rows and malformed lines of the lines that are kept -/

/-- The rows of the lines that are kept. -/
theorem filterMap_parsed_filter (pair : Option (Bytes × Bytes)) (escaped : Bool)
    (lines : List Bytes) :
    (parsed (parseLegacyRow escaped)
        (lines.filter (fun line => !dropsRow pair escaped line))).filterMap Prod.snd
      = ((parsed (parseLegacyRow escaped) lines).filterMap Prod.snd).filter
          (fun row => !goes pair row) := by
  induction lines with
  | nil => rfl
  | cons line lines ih =>
    by_cases hline : line = []
    · simpa [parsed, hline, dropsRow_eq] using ih
    · cases hrow : parseLegacyRow escaped line with
      | none => simpa [parsed, hline, dropsRow_eq, hrow] using ih
      | some row =>
        cases hgoes : goes pair row with
        | true => simpa [parsed, hline, dropsRow_eq, hrow, hgoes] using ih
        | false => simpa [parsed, hline, dropsRow_eq, hrow, hgoes] using ih

/-- The malformed lines are among those that are kept. -/
theorem filter_parsed_filter (pair : Option (Bytes × Bytes)) (escaped : Bool)
    (lines : List Bytes) :
    (parsed (parseLegacyRow escaped)
        (lines.filter (fun line => !dropsRow pair escaped line))).filter (fun call => call.2.isNone)
      = (parsed (parseLegacyRow escaped) lines).filter (fun call => call.2.isNone) := by
  induction lines with
  | nil => rfl
  | cons line lines ih =>
    by_cases hline : line = []
    · simpa [parsed, hline, dropsRow_eq] using ih
    · cases hrow : parseLegacyRow escaped line with
      | none => simpa [parsed, hline, dropsRow_eq, hrow] using ih
      | some row =>
        cases hgoes : goes pair row with
        | true => simpa [parsed, hline, dropsRow_eq, hrow, hgoes] using ih
        | false => simpa [parsed, hline, dropsRow_eq, hrow, hgoes] using ih

/-- A line is dropped when a row is. -/
theorem any_dropsRow (pair : Option (Bytes × Bytes)) (escaped : Bool) (lines : List Bytes) :
    lines.any (dropsRow pair escaped)
      = ((parsed (parseLegacyRow escaped) lines).filterMap Prod.snd).any (goes pair) := by
  induction lines with
  | nil => rfl
  | cons line lines ih =>
    rw [List.any_cons, ih]
    by_cases hline : line = []
    · simp [parsed, hline, dropsRow_eq]
    · cases hrow : parseLegacyRow escaped line with
      | none => simp [parsed, hline, dropsRow_eq, hrow]
      | some row => simp [parsed, hline, dropsRow_eq, hrow]

/-- Every call is one of the two. -/
theorem length_calls (calls : List (Bytes × Option (Key × Record))) :
    (calls.filterMap Prod.snd).length + (calls.filter (fun call => call.2.isNone)).length
      = calls.length := by
  induction calls with
  | nil => rfl
  | cons call calls ih =>
    obtain ⟨line, row⟩ := call
    cases row with
    | none => simpa [← Nat.add_assoc] using ih
    | some row =>
      have hrow : Prod.snd (line, some row) = some row := rfl
      rw [List.filterMap_cons_some hrow, List.filter_cons_of_neg Bool.false_ne_true,
        List.length_cons, List.length_cons, Nat.add_right_comm, ih]

/-! ## The removal -/

section Removal

variable {text : Bytes} {pair : Option (Bytes × Bytes)}

/-- The segments of the rewritten text. -/
theorem segments_withoutLegacyRows (pair : Option (Bytes × Bytes)) (text : Bytes) :
    Bytes.segments 0x0a (withoutLegacyRows pair text).1
      = (Bytes.segments 0x0a text).filter (fun segment =>
          !dropsRow pair (escapedFields (Bytes.pieces 0x0a text))
            (Bytes.segmentText 0x0a segment)) := by
  rw [withoutLegacyRows_eq, ((Bytes.segmented_segments 0x0a text).filter _).segments_flatten]

/-- The first line of the rewritten text announces the same. -/
theorem escapedFields_withoutLegacyRows (h : IsLegacyText text)
    (hmoves : ¬HeaderMovesUp pair (Bytes.pieces 0x0a text)) :
    escapedFields (Bytes.pieces 0x0a (withoutLegacyRows pair text).1)
      = escapedFields (Bytes.pieces 0x0a text) := by
  rw [pieces_withoutLegacyRows, escapedFields_eq, escapedFields_eq,
    formatOf_keptLines h hmoves]

/-- **One removal after another**, when the first line announces the same. -/
theorem withoutLegacyRows_withoutLegacyRows (h : IsLegacyText text)
    (hmoves : ¬HeaderMovesUp pair (Bytes.pieces 0x0a text)) (other : Option (Bytes × Bytes)) :
    (withoutLegacyRows other (withoutLegacyRows pair text).1).1
      = ((Bytes.segments 0x0a text).filter (fun segment =>
          !dropsRow other (escapedFields (Bytes.pieces 0x0a text)) (Bytes.segmentText 0x0a segment)
            && !dropsRow pair (escapedFields (Bytes.pieces 0x0a text))
              (Bytes.segmentText 0x0a segment))).flatten := by
  rw [withoutLegacyRows_eq, escapedFields_withoutLegacyRows h hmoves, segments_withoutLegacyRows,
    List.filter_filter]

/-- What `ParseRows` delivers of a text in one of the older formats. -/
theorem parseRows_eq (h : IsLegacyText text) :
    parseRows text
      = parsed (parseLegacyRow (escapedFields (Bytes.pieces 0x0a text)))
          (formatOf (Bytes.pieces 0x0a text)).2 := by
  rw [parseRows, parseRow_formatOf h]

/-- What it delivers of the rewritten text. -/
theorem parseRows_withoutLegacyRows (h : IsLegacyText text)
    (hmoves : ¬HeaderMovesUp pair (Bytes.pieces 0x0a text)) :
    parseRows (withoutLegacyRows pair text).1
      = parsed (parseLegacyRow (escapedFields (Bytes.pieces 0x0a text)))
          ((formatOf (Bytes.pieces 0x0a text)).2.filter (fun line =>
            !dropsRow pair (escapedFields (Bytes.pieces 0x0a text)) line)) := by
  rw [parseRows, pieces_withoutLegacyRows, formatOf_keptLines h hmoves, parseRow_formatOf h]

/-- The header is no row that goes. -/
theorem any_dropsRow_formatOf (pair : Option (Bytes × Bytes)) (escaped : Bool)
    (lines : List Bytes) :
    lines.any (dropsRow pair escaped) = (formatOf lines).2.any (dropsRow pair escaped) := by
  cases lines with
  | nil => rfl
  | cons first lines =>
    rw [formatOf]
    by_cases hv2 : first = v2Header
    · rw [if_pos hv2, List.any_cons, dropsRow_header pair escaped (Or.inl hv2), Bool.false_or]
    · rw [if_neg hv2]
      by_cases hescaped : first = escapedTsvHeader
      · rw [if_pos hescaped, List.any_cons, dropsRow_header pair escaped (Or.inr hescaped),
          Bool.false_or]
      · rw [if_neg hescaped]

/-- **The rows are removed, unless a header moves up.** -/
theorem removes_of_not_headerMovesUp (h : IsLegacyText text)
    (hmoves : ¬HeaderMovesUp pair (Bytes.pieces 0x0a text)) : Removes text pair where
  rows := by
    rw [parsedRows, parsedRows, parseRows_withoutLegacyRows h hmoves, parseRows_eq h,
      filterMap_parsed_filter]
  malformed := by
    rw [malformedLines, malformedLines, parseRows_withoutLegacyRows h hmoves, parseRows_eq h,
      filter_parsed_filter]
  lines := ⟨_, List.filter_sublist, withoutLegacyRows_eq pair text⟩
  removed := by
    rw [snd_withoutLegacyRows, any_dropsRow_formatOf, any_dropsRow, parsedRows, parseRows_eq h,
      List.any_eq_true]
  twice := by
    rw [withoutLegacyRows_withoutLegacyRows h hmoves, withoutLegacyRows_eq]
    simp only [Bool.and_self]

/-- **A header that moves up is no longer malformed**, so one call is missing. -/
theorem not_removes_of_headerMovesUp
    (hmoves : HeaderMovesUp pair (Bytes.pieces 0x0a text)) : ¬Removes text pair := by
  intro hremoves
  obtain ⟨removed, header, rest, hne, hheader, hlines, hremoved⟩ := hmoves
  obtain ⟨first, removed, rfl⟩ := List.exists_cons_of_ne_nil hne
  -- the first line is a row, so the text is plain
  have hfirst : first ≠ v2Header ∧ first ≠ escapedTsvHeader := by
    have hdrop := hremoved first List.mem_cons_self
    constructor
    · intro heq
      rw [dropsRow_header pair false (Or.inl heq)] at hdrop
      exact Bool.false_ne_true hdrop
    · intro heq
      rw [dropsRow_header pair false (Or.inr heq)] at hdrop
      exact Bool.false_ne_true hdrop
  have hlegacy : IsLegacyText text := by
    rw [IsLegacyText, hlines]
    simpa using hfirst.1
  have hescaped : escapedFields (Bytes.pieces 0x0a text) = false := by
    rw [hlines]
    simp [escapedFields, hfirst.2]
  have hformat : formatOf (Bytes.pieces 0x0a text) = (.legacy, Bytes.pieces 0x0a text) := by
    rw [hlines, List.cons_append, formatOf, if_neg hfirst.1, if_neg hfirst.2]
  have hbefore : parseRows text = parsed (parseLegacyRow false) (Bytes.pieces 0x0a text) := by
    rw [parseRows_eq hlegacy, hescaped, hformat]
  -- the header is kept, and is the first line
  have hkept : keptLines pair (Bytes.pieces 0x0a text)
      = header :: rest.filter (fun line => !dropsRow pair false line) := by
    rw [keptLines, hescaped, hlines, List.filter_append, List.filter_eq_nil_iff.mpr, List.nil_append,
      List.filter_cons_of_pos]
    · rw [dropsRow_header pair false hheader, Bool.not_false]
    · intro line hline
      rw [hremoved line hline]
      simp
  have hafter : ∃ parseRow, parseRows (withoutLegacyRows pair text).1
      = parsed parseRow (rest.filter (fun line => !dropsRow pair false line)) := by
    rw [parseRows, pieces_withoutLegacyRows, hkept, formatOf]
    rcases hheader with rfl | rfl
    · exact ⟨_, by rw [if_pos rfl]⟩
    · exact ⟨_, by rw [if_neg v2Header_ne_escapedTsvHeader.symm, if_pos rfl]⟩
  obtain ⟨parseRow, hafter⟩ := hafter
  have hheader_ne : header ≠ [] := by
    rcases hheader with rfl | rfl
    · decide
    · decide
  -- the calls before, without the rows that go, and the calls after
  have hcallsBefore : ((parsedRows text).filter (fun row => !goes pair row)).length
      + (malformedLines text).length
      = (parsed (parseLegacyRow false) (header :: rest.filter
          (fun line => !dropsRow pair false line))).length := by
    rw [← length_calls, malformedLines, parsedRows, hbefore, List.length_map,
      ← filterMap_parsed_filter, ← filter_parsed_filter pair, ← hkept, keptLines, hescaped]
  have hcallsAfter : (parsedRows (withoutLegacyRows pair text).1).length
      + (malformedLines (withoutLegacyRows pair text).1).length
      = (parsed parseRow (rest.filter (fun line => !dropsRow pair false line))).length := by
    rw [← length_calls, malformedLines, parsedRows, hafter, List.length_map]
  rw [hremoves.rows, hremoves.malformed, hcallsBefore] at hcallsAfter
  simp [parsed, hheader_ne] at hcallsAfter

/-- **Rows are removed, and removals commute, exactly when no header moves up.** -/
theorem removes_iff (text : Bytes) (p q : Option (Bytes × Bytes)) (h : IsLegacyText text) :
    (Removes text p ∧ Removes text q
        ∧ (withoutLegacyRows q (withoutLegacyRows p text).1).1
          = (withoutLegacyRows p (withoutLegacyRows q text).1).1)
      ↔ ¬HeaderMovesUp p (Bytes.pieces 0x0a text)
        ∧ ¬HeaderMovesUp q (Bytes.pieces 0x0a text) := by
  constructor
  · rintro ⟨hp, hq, -⟩
    exact ⟨fun hmoves => not_removes_of_headerMovesUp hmoves hp,
      fun hmoves => not_removes_of_headerMovesUp hmoves hq⟩
  · rintro ⟨hp, hq⟩
    refine ⟨removes_of_not_headerMovesUp h hp, removes_of_not_headerMovesUp h hq, ?_⟩
    rw [withoutLegacyRows_withoutLegacyRows h hp, withoutLegacyRows_withoutLegacyRows h hq]
    congr 1
    refine List.filter_congr (fun segment _ => ?_)
    rw [Bool.and_comm]

/-- A text whose only row goes, with no header behind it. -/
theorem removes_iff_plain :
    IsLegacyText (utf8 "a\tb\t1 100\n# note\n") ∧
      ((Removes (utf8 "a\tb\t1 100\n# note\n") (some (utf8 "a", utf8 "b"))
        ∧ Removes (utf8 "a\tb\t1 100\n# note\n") none
        ∧ (withoutLegacyRows none
              (withoutLegacyRows (some (utf8 "a", utf8 "b")) (utf8 "a\tb\t1 100\n# note\n")).1).1
          = (withoutLegacyRows (some (utf8 "a", utf8 "b"))
              (withoutLegacyRows none (utf8 "a\tb\t1 100\n# note\n")).1).1)
      ↔ ¬HeaderMovesUp (some (utf8 "a", utf8 "b")) (Bytes.pieces 0x0a (utf8 "a\tb\t1 100\n# note\n"))
        ∧ ¬HeaderMovesUp none (Bytes.pieces 0x0a (utf8 "a\tb\t1 100\n# note\n"))) := by
  have h : IsLegacyText (utf8 "a\tb\t1 100\n# note\n") := by
    unfold IsLegacyText
    decide
  exact ⟨h, removes_iff _ _ _ h⟩

end Removal

/-- **A header that stands behind the row of the pair.** -/
theorem not_removes_header :
    IsLegacyText (utf8 "a\tb\t0 0\n# azookey-learning-tsv escaped=1\nx\\\\y\tz\t1 100\n") ∧
      ¬Removes (utf8 "a\tb\t0 0\n# azookey-learning-tsv escaped=1\nx\\\\y\tz\t1 100\n")
        (some (utf8 "a", utf8 "b")) := by
  refine ⟨by unfold IsLegacyText; decide, not_removes_of_headerMovesUp ?_⟩
  refine ⟨[utf8 "a\tb\t0 0"], escapedTsvHeader, [utf8 "x\\\\y\tz\t1 100"],
    List.cons_ne_nil _ _, Or.inr rfl, by decide, fun line hline => ?_⟩
  rw [List.mem_singleton.mp hline]
  decide +kernel

end AzooKey.Learning.LearningStore

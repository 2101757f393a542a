import AzooKey.Core.Utf8
import AzooKey.Lib.OrderedMap

/-!
# Custom romaji tables

`core/src/CustomRomajiLoader.cpp`: a tab-separated text becomes an ordered
table from typed keys to rules. A rule says what its key prints and how many
bytes of the key it consumes.

What a line must satisfy to enter the table is what the converter relies on
later, so it is kept with the table (`CustomRomajiTable.ruleOk`): a rule
consumes at least one byte of its key, and a key is a short lower-case ASCII
string. Without the first no conversion loop would end; without the second a
key could not be typed.
-/

namespace AzooKey.Core

/-- `CustomRomajiRule`: what a key prints, and how much of the key it
consumes. -/
structure CustomRomajiRule where
  output : Bytes
  consume : ℕ
deriving DecidableEq, Repr

/-- `std::tolower` in the "C" locale. -/
def toLower (c : UInt8) : UInt8 := if 0x41 ≤ c ∧ c ≤ 0x5a then c - 0x41 + 0x61 else c

/-- `ValidInput`: one to eight ASCII bytes. -/
def validInput (input : Bytes) : Bool :=
  !(input.isEmpty || 8 < input.length) && input.all (fun byte => byte ≤ 0x7f)

/-- The loop of `ValidOutput`, with the UTF-16 units counted so far. -/
def validOutputFrom (units : ℕ) (output : Bytes) : Bool :=
  match h : decodeNextUtf8 output with
  | none => true
  | some d =>
    if !d.ok then false
    else if 8 < units + (if 0xffff < d.codepoint then 2 else 1) then false
    else validOutputFrom (units + (if 0xffff < d.codepoint then 2 else 1)) d.rest
termination_by output.length
decreasing_by exact decodeNextUtf8_rest_lt h

/-- `ValidOutput`: well-formed UTF-8 of at most eight UTF-16 units. -/
def validOutput (output : Bytes) : Bool := validOutputFrom 0 output

/-- Decimal digits read left to right. -/
def digitsFrom (value : ℕ) (digits : Bytes) : ℕ :=
  digits.foldl (fun v d => v * 10 + (d.toNat - 0x30)) value

/-- `std::from_chars` into a `size_t`, when it has to consume the whole field:
at least one decimal digit and nothing else, and a value below `2 ^ 64`. -/
def fromCharsSize (field : Bytes) : Option ℕ :=
  if field.isEmpty || !field.all (fun c => 0x30 ≤ c ∧ c ≤ 0x39) then none
  else if 2 ^ 64 ≤ digitsFrom 0 field then none
  else some (digitsFrom 0 field)

/-- What `ParseLine` has checked of a rule when it enters the table. -/
def RuleOk (key : Bytes) (rule : CustomRomajiRule) : Prop :=
  (1 ≤ rule.consume ∧ rule.consume ≤ key.length) ∧ key.length ≤ 8
    ∧ (∀ c ∈ key, c ≤ 0x7f ∧ toLower c = c) ∧ validOutput rule.output = true

/-- **A custom romaji table**, as `CustomRomajiLoader::Parse` builds it: an
ordered map of rules that `ParseLine` has checked. -/
structure CustomRomajiTable where
  /-- The rules by their keys. -/
  rules : OrderedMap Bytes CustomRomajiRule
  /-- Every rule has passed `ParseLine`. -/
  ruleOk : ∀ e ∈ rules.entries, RuleOk e.1 e.2

namespace CustomRomajiTable

/-- The table with no rule. -/
def empty : CustomRomajiTable := ⟨OrderedMap.empty, fun _ h => absurd h List.not_mem_nil⟩

/-- `table[key] = rule`, for a checked rule. -/
def assign (table : CustomRomajiTable) (key : Bytes) (rule : CustomRomajiRule)
    (h : RuleOk key rule) : CustomRomajiTable where
  rules := table.rules.assign key rule
  ruleOk e he := by
    rcases AssocList.mem_insertWith he with rfl | he | ⟨w, -, rfl⟩
    · exact h
    · exact table.ruleOk e he
    · exact h

/-- A rule that is found has been checked. -/
theorem ruleOk_of_find? {table : CustomRomajiTable} {key : Bytes} {rule : CustomRomajiRule}
    (h : table.rules.find? key = some rule) : RuleOk key rule :=
  table.ruleOk _ (AssocList.mem_of_find?_eq_some h)

end CustomRomajiTable

/-- The consume field of a line: the whole key when it is absent, otherwise a
number between one and the length of the key. -/
def parseConsume (input : Bytes) : Option Bytes → Option ℕ
  | none => some input.length
  | some field =>
    match fromCharsSize field with
    | none => none
    | some consume => if consume = 0 ∨ input.length < consume then none else some consume

/-- The two or three tab-separated fields of a line: key, output, and the
optional consume field. -/
def lineFields (line : Bytes) : Option (Bytes × Bytes × Option Bytes) :=
  match Bytes.breakAt 0x09 line with
  | none => none
  | some (input, tail) =>
    match Bytes.breakAt 0x09 tail with
    | none => some (input, tail, none)
    | some (output, field) =>
      if (Bytes.breakAt 0x09 field).isSome then none else some (input, output, some field)

/-- `ParseLine`: the entry that a line puts into the table. -/
def parseLine (line : Bytes) : Option (Bytes × CustomRomajiRule) :=
  match lineFields line with
  | none => none
  | some (input, output, field) =>
    if !validInput input || !validOutput output then none
    else (parseConsume input field).map (fun consume => (input.map toLower, ⟨output, consume⟩))

/-- A consume field lies between one and the length of a non-empty key. -/
theorem parseConsume_bounds {input : Bytes} {field : Option Bytes} {consume : ℕ}
    (hne : input ≠ []) (h : parseConsume input field = some consume) :
    1 ≤ consume ∧ consume ≤ input.length := by
  cases field with
  | none =>
    obtain rfl := Option.some.inj h
    exact ⟨List.length_pos_iff.mpr hne, le_rfl⟩
  | some field =>
    simp only [parseConsume] at h
    split at h
    · exact absurd h (by simp)
    · split at h
      · exact absurd h (by simp)
      · obtain rfl := Option.some.inj h
        omega

set_option maxRecDepth 10000 in
/-- Lowering a byte twice is lowering it once. -/
theorem toLower_toLower : ∀ c : UInt8, toLower (toLower c) = toLower c := by
  decide

set_option maxRecDepth 10000 in
/-- Lowering keeps a byte in ASCII. -/
theorem toLower_le : ∀ c : UInt8, c ≤ 0x7f → toLower c ≤ 0x7f := by
  decide

/-- **A line that enters the table satisfies what the table records.** -/
theorem parseLine_ruleOk {line key : Bytes} {rule : CustomRomajiRule}
    (h : parseLine line = some (key, rule)) : RuleOk key rule := by
  unfold parseLine at h
  split at h
  · exact absurd h (by simp)
  · rename_i input output field _
    split at h
    · exact absurd h (by simp)
    · rename_i hvalid
      rw [Bool.or_eq_true, not_or, Bool.not_eq_true', Bool.not_eq_true', Bool.not_eq_false,
        Bool.not_eq_false] at hvalid
      obtain ⟨consume, hconsume, heq⟩ := Option.map_eq_some_iff.mp h
      obtain ⟨rfl, rfl⟩ := Prod.mk.inj heq
      obtain ⟨hin, hout⟩ := hvalid
      simp only [validInput, Bool.and_eq_true, Bool.not_eq_true', Bool.or_eq_false_iff,
        List.isEmpty_eq_false_iff, decide_eq_false_iff_not, not_lt, List.all_eq_true,
        decide_eq_true_eq] at hin
      have hbounds := parseConsume_bounds hin.1.1 hconsume
      refine ⟨⟨hbounds.1, by rw [List.length_map]; exact hbounds.2⟩,
        by rw [List.length_map]; exact hin.1.2, fun c hc => ?_, hout⟩
      obtain ⟨b, hb, rfl⟩ := List.mem_map.mp hc
      exact ⟨toLower_le b (hin.2 b hb), toLower_toLower b⟩

/-- `line.remove_suffix(1)` when the line ends in a carriage return. -/
def stripCarriageReturn (line : Bytes) : Bytes :=
  if line.getLast? = some 0x0d then line.dropLast else line

/-- What one line does to the table and to the list of invalid lines. -/
def addLine (line : Bytes) (lineNumber : ℕ) (table : CustomRomajiTable)
    (invalidLines : List ℕ) : CustomRomajiTable × List ℕ :=
  if line.isEmpty || line.head? = some 0x23 then (table, invalidLines)
  else
    match h : parseLine line with
    | some (key, rule) => (table.assign key rule (parseLine_ruleOk h), invalidLines)
    | none => (table, invalidLines ++ [lineNumber])

/-- The line loop of `Parse`. -/
def parseLines (tsv : Bytes) (lineNumber : ℕ) (table : CustomRomajiTable)
    (invalidLines : List ℕ) : CustomRomajiTable × List ℕ :=
  if tsv.isEmpty then (table, invalidLines)
  else
    match h : Bytes.breakAt 0x0a tsv with
    | none => addLine (stripCarriageReturn tsv) lineNumber table invalidLines
    | some (line, rest) =>
      let next := addLine (stripCarriageReturn line) lineNumber table invalidLines
      parseLines rest (lineNumber + 1) next.1 next.2
termination_by tsv.length
decreasing_by exact Bytes.length_after_lt h

/-- `CustomRomajiParseResult`. -/
structure CustomRomajiParseResult where
  table : Option CustomRomajiTable
  invalidLines : List ℕ

/-- **`CustomRomajiLoader::Parse`.** A byte order mark is skipped, comments
and empty lines are ignored, and a table with no rule is no table. -/
def CustomRomajiLoader.parse (tsv : Bytes) : CustomRomajiParseResult :=
  let body := if tsv.take 3 = [0xef, 0xbb, 0xbf] then tsv.drop 3 else tsv
  let parsed := parseLines body 1 CustomRomajiTable.empty []
  ⟨if parsed.1.rules.entries.isEmpty then none else some parsed.1, parsed.2⟩

end AzooKey.Core

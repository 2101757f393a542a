import AzooKey.Host.Utf16Units
import AzooKey.Lib.FindText
import AzooKey.Lib.InsertionSort

/-!
# The findings of a language model

`ParseAnomalyFindings` of `inference-host/src/AnomalyDetector.cpp`: a model is asked
for the exact texts of what is suspicious in a paragraph. Each quote is searched from the
end of the one before it, then from the start, and what is found is reported as a range of
UTF-16 units.

The text and the quotes are well-formed UTF-8, so a quote stands between code points,
and the units before it and of it count exactly (`parseAnomalyFindings_spec`). Offsets
have 32 bits; a paragraph of 60 KiB is the longest that is let in.
-/

namespace AzooKey.Host

open AzooKey.Core (decodeNextUtf8)
open AzooKey.Ipc.Json (Value parse clean_of_parse)

/-- `kMaxAnomalySuggestions`. -/
def maxAnomalySuggestions : ℕ := 5

/-- `kMaxAnomalyReasonBytes`. -/
def maxAnomalyReasonBytes : ℕ := 512

/-- `kMaxAnomalySuggestionBytes`. -/
def maxAnomalySuggestionBytes : ℕ := 256

/-- `kMinAmbiguousQuoteUnits`. -/
def minAmbiguousQuoteUnits : UInt32 := 3

/-- `kAmbiguousConfidence`. -/
def ambiguousConfidence : Double := Double.round false (3 / 10)

/-- `AnomalyFindingField`. -/
structure AnomalyFindingField where
  start : UInt32
  length : UInt32
  reason : Bytes
  suggestions : List Bytes
  confidence : Double
deriving DecidableEq

/-- `CountOccurrences`, from a place on. -/
def countOccurrencesFrom (text quote : Bytes) (pos : ℕ) : ℕ :=
  match _h : findText text quote pos with
  | none => 0
  | some found => countOccurrencesFrom text quote (found + 1) + 1
termination_by text.length + 1 - pos
decreasing_by
  obtain ⟨hpos, hle, -⟩ := findText_eq_some_iff.mp _h
  omega

/-- `CountOccurrences`. -/
def countOccurrences (text quote : Bytes) : ℕ := countOccurrencesFrom text quote 0

/-- The loop of `Truncate`: the last end of a code point within the limit. -/
def truncateEnd (maxBytes pos : ℕ) (rest : Bytes) : ℕ :=
  match _h : decodeNextUtf8 rest with
  | none => pos
  | some d =>
    let next := pos + (rest.length - d.rest.length)
    if maxBytes < next then pos else truncateEnd maxBytes next d.rest
termination_by rest.length
decreasing_by exact Core.decodeNextUtf8_rest_lt _h

/-- **`Truncate`.** -/
def truncate (text : Bytes) (maxBytes : ℕ) : Bytes :=
  if text.length ≤ maxBytes then text else text.take (truncateEnd maxBytes 0 text)

/-- `std::clamp`. -/
def clampDouble (v lo hi : Double) : Double :=
  if Double.ieeeLt v lo then lo else if Double.ieeeLt hi v then hi else v

/-- The suggestions of a finding. -/
def suggestionsOf (quote : Bytes) (elements : List Value) : List Bytes :=
  (elements.filterMap (fun suggestion =>
    match suggestion with
    | .string text =>
      if text ≠ [] ∧ text.length ≤ maxAnomalySuggestionBytes ∧ text ≠ quote then some text else none
    | _ => none)).take maxAnomalySuggestions

/-- The finding of an item whose quote has been found. -/
def findingAt (text quote : Bytes) (item : Value) (found : ℕ) : AnomalyFindingField where
  start := utf16Length (text.take found)
  length := utf16Length quote
  reason := truncate ((item.getString (utf8 "reason")).getD []) maxAnomalyReasonBytes
  suggestions := ((item.getArray (utf8 "suggestions")).map (suggestionsOf quote)).getD []
  confidence :=
    let confidence := clampDouble ((item.getNumber (utf8 "confidence")).getD (Double.round false (1 / 2)))
      (.finite (.zero false)) (Double.round false 1)
    if 1 < countOccurrences text quote then Double.min confidence ambiguousConfidence else confidence

/-- What the loop over the items carries. -/
structure Placing where
  findings : List AnomalyFindingField := []
  searchFrom : ℕ := 0

/-- One round of the loop of `ParseAnomalyFindings`. -/
def placeItem (text : Bytes) (maxFindings : ℕ) (s : Placing) (item : Value) : Placing :=
  if maxFindings ≤ s.findings.length then s
  else if !item.isObject then s
  else
    match item.getString (utf8 "quote") with
    | none | some [] => s
    | some quote =>
      match (findText text quote s.searchFrom).or (findText text quote 0) with
      | none => s
      | some found =>
        let placed : Placing := { s with searchFrom := found + quote.length }
        let finding := findingAt text quote item found
        if 1 < countOccurrences text quote ∧ finding.length < minAmbiguousQuoteUnits then placed
        else if s.findings.any (fun other =>
            other.start = finding.start ∧ other.length = finding.length) then placed
        else { placed with findings := s.findings ++ [finding] }

/-- **`ParseAnomalyFindings`.** -/
def parseAnomalyFindings (text result : Bytes) (maxFindings : ℕ) : Option (List AnomalyFindingField) :=
  match parse result with
  | some (.array items) =>
    some ((items.foldl (placeItem text maxFindings) {}).findings.insertionSort
      (fun a b => a.start ≤ b.start))
  | _ => none

/-! ## Occurrences -/

/-- There is something to count where the quote stands. -/
theorem countOccurrencesFrom_pos {text quote : Bytes} {pos : ℕ} :
    0 < countOccurrencesFrom text quote pos
      ↔ ∃ i, pos ≤ i ∧ i ≤ text.length ∧ quote <+: text.drop i := by
  rw [countOccurrencesFrom]
  split
  · next hnone =>
    refine ⟨fun h => absurd h (lt_irrefl 0), fun ⟨i, hpos, hle, hstands⟩ => ?_⟩
    exact absurd hnone (findText_ne_none hpos hle hstands)
  · next found hfound =>
    obtain ⟨hpos, hle, hstands, -⟩ := findText_eq_some_iff.mp hfound
    exact ⟨fun _ => ⟨found, hpos, hle, hstands⟩, fun _ => Nat.succ_pos _⟩

/-- A quote that stands at two places at least, which may overlap. -/
def OccursTwice (text quote : Bytes) : Prop :=
  ∃ i j, i < j ∧ j ≤ text.length ∧ quote <+: text.drop i ∧ quote <+: text.drop j

/-- **`CountOccurrences` tells whether a quote is ambiguous.** -/
theorem one_lt_countOccurrences {text quote : Bytes} :
    1 < countOccurrences text quote ↔ OccursTwice text quote := by
  unfold countOccurrences
  rw [countOccurrencesFrom]
  split
  · next hnone =>
    refine ⟨fun h => absurd h (by norm_num), fun ⟨i, _, hlt, hle, hi, _⟩ => ?_⟩
    exact absurd hnone (findText_ne_none (Nat.zero_le i) (hlt.le.trans hle) hi)
  · next found hfound =>
    obtain ⟨-, hle, hstands, hfirst⟩ := findText_eq_some_iff.mp hfound
    rw [Nat.lt_add_left_iff_pos, countOccurrencesFrom_pos]
    constructor
    · rintro ⟨j, hlt, hj, hquote⟩
      exact ⟨found, j, hlt, hj, hstands, hquote⟩
    · rintro ⟨i, j, hlt, hj, hi, hquote⟩
      have hfound : found ≤ i := by
        by_contra hbefore
        exact hfirst i (Nat.zero_le i) (not_le.mp hbefore) hi
      exact ⟨j, by omega, hj, hquote⟩

/-! ## Truncating -/

/-- The loop stops between code points, within the limit. -/
theorem truncateEnd_spec {maxBytes pos : ℕ} {rest : Bytes} (h : ValidUtf8 rest) (hpos : pos ≤ maxBytes) :
    ∃ front back, rest = front ++ back ∧ ValidUtf8 front
      ∧ truncateEnd maxBytes pos rest = pos + front.length ∧ pos + front.length ≤ maxBytes := by
  induction h generalizing pos with
  | nil =>
    refine ⟨[], [], rfl, .nil, ?_, hpos⟩
    rw [truncateEnd]
    rfl
  | @cons scalar rest hscalar _ ih =>
    have hdecode := Core.decodeNextUtf8_append hscalar rest
    have hlength : (scalar ++ rest).length - rest.length = scalar.length := by
      rw [List.length_append, Nat.add_sub_cancel]
    have hunfold : truncateEnd maxBytes pos (scalar ++ rest)
        = if maxBytes < pos + scalar.length then pos
          else truncateEnd maxBytes (pos + scalar.length) rest := by
      rw [truncateEnd]
      split
      · next hnone =>
        rw [hdecode] at hnone
        cases hnone
      · next d hsome =>
        rw [hdecode] at hsome
        obtain rfl := Option.some.inj hsome
        rw [hlength]
    by_cases hover : maxBytes < pos + scalar.length
    · refine ⟨[], scalar ++ rest, rfl, .nil, ?_, hpos⟩
      rw [hunfold, if_pos hover]
      rfl
    · obtain ⟨front, back, rfl, hfront, heq, hle⟩ := ih (not_lt.mp hover)
      refine ⟨scalar ++ front, back, (List.append_assoc _ _ _).symm, .cons hscalar hfront, ?_, ?_⟩
      · rw [hunfold, if_neg hover, heq, List.length_append, Nat.add_assoc]
      · rw [List.length_append, ← Nat.add_assoc]
        exact hle

/-- **`Truncate` leaves a text within the limit.** -/
theorem truncate_spec {text : Bytes} (h : ValidUtf8 text) (maxBytes : ℕ) :
    ValidUtf8 (truncate text maxBytes) ∧ (truncate text maxBytes).length ≤ maxBytes := by
  unfold truncate
  by_cases hle : text.length ≤ maxBytes
  · rw [if_pos hle]
    exact ⟨h, hle⟩
  · rw [if_neg hle]
    obtain ⟨front, back, rfl, hfront, heq, hmax⟩ := truncateEnd_spec h (Nat.zero_le maxBytes)
    rw [Nat.zero_add] at heq hmax
    rw [heq, List.take_left]
    exact ⟨hfront, hmax⟩

/-! ## Confidence -/

/-- A value of the unit interval. -/
def InUnit (x : Double) : Prop := ∃ b, x = .finite b ∧ 0 ≤ b.toRat ∧ b.toRat ≤ 1

/-- The constants are exact, or rounded down. -/
theorem toRat_constants : (∃ b, Double.round false 1 = .finite b ∧ b.toRat = 1)
    ∧ (∃ b, Double.round false (1 / 2) = .finite b ∧ b.toRat = 1 / 2)
    ∧ ∃ b, ambiguousConfidence = .finite b ∧ 0 ≤ b.toRat ∧ b.toRat ≤ 3 / 10 := by
  have hround : ∀ x : ℚ, 0 < x → nearest x < 2 ^ (1024 : ℤ) →
      ∃ b, Double.round false x = .finite b ∧ b.toRat = nearest x := by
    intro x hx hlt
    have habs : |x| = x := abs_of_pos hx
    have hrange : 0 < |x| ∧ nearest |x| < 2 ^ (1024 : ℤ) := by
      rw [habs]
      exact ⟨hx, hlt⟩
    refine ⟨⟨decide (x < 0), nearest |x|, representable_nearest hrange.1 hrange.2⟩, dif_pos hrange, ?_⟩
    show (if decide (x < 0) = true then -nearest |x| else nearest |x|) = nearest x
    rw [decide_eq_false (not_lt.mpr hx.le), if_neg Bool.false_ne_true, habs]
  have hbig : (1 : ℚ) < 2 ^ (1024 : ℤ) := one_lt_zpow₀ (by norm_num) (by norm_num)
  refine ⟨?_, ?_, ?_⟩
  · have hnearest : nearest 1 = 1 := by decide +kernel
    obtain ⟨b, hb, hrat⟩ := hround 1 (by norm_num) (hnearest.trans_lt hbig)
    exact ⟨b, hb, hrat.trans hnearest⟩
  · have hnearest : nearest (1 / 2) = 1 / 2 := by decide +kernel
    have hlt : (1 / 2 : ℚ) < 2 ^ (1024 : ℤ) := lt_trans (by norm_num) hbig
    obtain ⟨b, hb, hrat⟩ := hround (1 / 2) (by norm_num) (hnearest.trans_lt hlt)
    exact ⟨b, hb, hrat.trans hnearest⟩
  · have hnearest : nearest (3 / 10) = 5404319552844595 / 2 ^ 54 := by decide +kernel
    have hlt : (5404319552844595 / 2 ^ 54 : ℚ) < 2 ^ (1024 : ℤ) := lt_trans (by norm_num) hbig
    obtain ⟨b, hb, hrat⟩ := hround (3 / 10) (by norm_num) (hnearest.trans_lt hlt)
    refine ⟨b, hb, ?_, ?_⟩
    · rw [hrat, hnearest]
      norm_num
    · rw [hrat, hnearest]
      norm_num

/-- **Clamping a finite value** leaves it in the unit interval. -/
theorem inUnit_clampDouble (b : Binary64) :
    InUnit (clampDouble (.finite b) (.finite (.zero false)) (Double.round false 1)) := by
  obtain ⟨⟨one, hone, honeRat⟩, -⟩ := toRat_constants
  have hzero : (Binary64.zero false).toRat = 0 := rfl
  unfold clampDouble
  rw [hone]
  by_cases hlow : Double.ieeeLt (.finite b) (.finite (.zero false)) = true
  · rw [if_pos hlow]
    exact ⟨_, rfl, hzero.ge, by rw [hzero]; norm_num⟩
  rw [if_neg hlow]
  by_cases hhigh : Double.ieeeLt (.finite one) (.finite b) = true
  · rw [if_pos hhigh]
    exact ⟨one, rfl, by rw [honeRat]; norm_num, honeRat.le⟩
  · rw [if_neg hhigh]
    have hlow : ¬ b.toRat < (Binary64.zero false).toRat := fun h => hlow (decide_eq_true h)
    have hhigh : ¬ one.toRat < b.toRat := fun h => hhigh (decide_eq_true h)
    rw [hzero] at hlow
    rw [honeRat] at hhigh
    exact ⟨b, rfl, not_lt.mp hlow, not_lt.mp hhigh⟩

/-- Lowering a value of the unit interval to the limit. -/
theorem inUnit_min {x : Double} (h : InUnit x) :
    ∃ b, Double.min x ambiguousConfidence = .finite b ∧ 0 ≤ b.toRat ∧ b.toRat ≤ 3 / 10 := by
  obtain ⟨limit, hlimit, hnonneg, hle⟩ := toRat_constants.2.2
  obtain ⟨b, rfl, hb, -⟩ := h
  unfold Double.min
  rw [hlimit]
  by_cases hlt : Double.ieeeLt (.finite limit) (.finite b) = true
  · rw [if_pos hlt]
    exact ⟨limit, rfl, hnonneg, hle⟩
  · rw [if_neg hlt]
    have hlt : ¬ limit.toRat < b.toRat := fun h => hlt (decide_eq_true h)
    exact ⟨b, rfl, hb, (not_lt.mp hlt).trans hle⟩

/-! ## Findings -/

/-- **A finding designates its quote**: where it stands, and what goes with it. -/
structure Designates (text quote : Bytes) (finding : AnomalyFindingField) : Prop where
  ne_nil : quote ≠ []
  valid : ValidUtf8 quote
  stands : ∃ front back, text = front ++ (quote ++ back) ∧ ValidUtf8 front
    ∧ finding.start = utf16Length front ∧ finding.length = utf16Length quote
  reason : ValidUtf8 finding.reason ∧ finding.reason.length ≤ maxAnomalyReasonBytes
  confidence : InUnit finding.confidence
  ambiguous : OccursTwice text quote →
    (∃ b, finding.confidence = .finite b ∧ b.toRat ≤ 3 / 10) ∧ 3 ≤ (utf16Units quote).length
  count_suggestions : finding.suggestions.length ≤ maxAnomalySuggestions
  suggestions : ∀ suggestion ∈ finding.suggestions, suggestion ≠ [] ∧ suggestion ≠ quote
    ∧ suggestion.length ≤ maxAnomalySuggestionBytes

/-- The suggestions of a finding are few, and none is the quote. -/
theorem suggestionsOf_spec (quote : Bytes) (elements : List Value) :
    (suggestionsOf quote elements).length ≤ maxAnomalySuggestions
      ∧ ∀ suggestion ∈ suggestionsOf quote elements, suggestion ≠ [] ∧ suggestion ≠ quote
        ∧ suggestion.length ≤ maxAnomalySuggestionBytes := by
  refine ⟨List.length_take_le _ _, fun suggestion hmem => ?_⟩
  obtain ⟨element, -, helement⟩ := List.mem_filterMap.mp (List.mem_of_mem_take hmem)
  cases element with
  | string text =>
    dsimp only at helement
    split at helement
    · rename_i hkeep
      obtain rfl := Option.some.inj helement
      exact ⟨hkeep.1, hkeep.2.2, hkeep.2.1⟩
    · cases helement
  | _ => cases helement

/-- What a model is confident of is in the unit interval, when it has been clamped. -/
theorem inUnit_confidence {item : Value} (hitem : item.Clean) :
    InUnit (clampDouble ((item.getNumber (utf8 "confidence")).getD (Double.round false (1 / 2)))
      (.finite (.zero false)) (Double.round false 1)) := by
  cases hnumber : item.getNumber (utf8 "confidence") with
  | none =>
    obtain ⟨b, hb, -⟩ := toRat_constants.2.1
    rw [Option.getD_none, hb]
    exact inUnit_clampDouble b
  | some x =>
    obtain ⟨b, rfl⟩ := hitem.finite_of_getNumber hnumber
    exact inUnit_clampDouble b

/-- **The finding of an item** designates what has been found. -/
theorem designates_findingAt {text quote : Bytes} {item : Value} {found : ℕ} (htext : ValidUtf8 text)
    (hitem : item.Clean) (hquote : item.getString (utf8 "quote") = some quote) (hne : quote ≠ [])
    (hstands : quote <+: text.drop found)
    (hunits : ¬ (1 < countOccurrences text quote
      ∧ (findingAt text quote item found).length < minAmbiguousQuoteUnits)) :
    Designates text quote (findingAt text quote item found) := by
  have hvalid := hitem.valid_of_getString hquote
  obtain ⟨back, hback⟩ := hstands
  have hcut : text = text.take found ++ (quote ++ back) := by
    rw [hback, List.take_append_drop]
  have hunit := inUnit_confidence hitem
  refine ⟨hne, hvalid, ⟨text.take found, back, hcut, ?_, rfl, rfl⟩, ?_, ?_, ?_, ?_, ?_⟩
  · refine (ValidUtf8.cut (hcut ▸ htext) fun lead hlead => ?_).1
    -- a quote does not begin with a trailing octet
    obtain ⟨first, tail, rfl⟩ := List.exists_cons_of_ne_nil hne
    obtain rfl := Option.some.inj hlead
    exact hvalid.not_isTrailing_head
  · refine truncate_spec ?_ maxAnomalyReasonBytes
    cases hreason : item.getString (utf8 "reason") with
    | none => exact .nil
    | some reason => exact hitem.valid_of_getString hreason
  · show InUnit (if _ then _ else _)
    by_cases htwice : 1 < countOccurrences text quote
    · rw [if_pos htwice]
      obtain ⟨b, hb, hnonneg, hsmall⟩ := inUnit_min hunit
      exact ⟨b, hb, hnonneg, hsmall.trans (by norm_num)⟩
    · rw [if_neg htwice]
      exact hunit
  · intro htwice
    have htwice := one_lt_countOccurrences.mpr htwice
    refine ⟨?_, ?_⟩
    · obtain ⟨b, hb, -, hsmall⟩ := inUnit_min hunit
      refine ⟨b, ?_, hsmall⟩
      show (if _ then _ else _) = _
      rw [if_pos htwice]
      exact hb
    · obtain ⟨heq, -⟩ := utf16Length_eq hvalid
      have hlength : 3 ≤ (utf16Length quote).toNat :=
        not_lt.mp fun hshort => hunits ⟨htwice, UInt32.lt_iff_toNat_lt.mpr hshort⟩
      rw [heq, UInt32.toNat_ofNat'] at hlength
      exact hlength.trans (Nat.mod_le _ _)
  · show (((item.getArray (utf8 "suggestions")).map (suggestionsOf quote)).getD []).length ≤ _
    cases item.getArray (utf8 "suggestions") with
    | none => exact Nat.zero_le _
    | some elements => exact (suggestionsOf_spec quote elements).1
  · show ∀ suggestion ∈ ((item.getArray (utf8 "suggestions")).map (suggestionsOf quote)).getD [], _
    cases item.getArray (utf8 "suggestions") with
    | none => exact fun _ h => absurd h List.not_mem_nil
    | some elements => exact (suggestionsOf_spec quote elements).2

/-! ## The loop -/

/-- Two findings are different ranges. -/
def OtherSpan (a b : AnomalyFindingField) : Prop := ¬ (a.start = b.start ∧ a.length = b.length)

/-- **What the loop keeps**: few findings, of the items, with different ranges. -/
structure Placing.Ok (text : Bytes) (items : List Value) (maxFindings : ℕ) (s : Placing) : Prop where
  few : s.findings.length ≤ maxFindings
  distinct : s.findings.Pairwise OtherSpan
  designates : ∀ finding ∈ s.findings, ∃ item ∈ items, ∃ quote,
    item.getString (utf8 "quote") = some quote ∧ Designates text quote finding

/-- A place to search from does not matter. -/
theorem Placing.Ok.searchFrom {text : Bytes} {items : List Value} {maxFindings : ℕ} {s : Placing}
    (h : s.Ok text items maxFindings) (from' : ℕ) : { s with searchFrom := from' }.Ok text items maxFindings :=
  ⟨h.few, h.distinct, h.designates⟩

/-- **One item** keeps it. -/
theorem ok_placeItem {text : Bytes} {items : List Value} {maxFindings : ℕ} {s : Placing} {item : Value}
    (htext : ValidUtf8 text) (hmem : item ∈ items) (hitem : item.Clean)
    (h : s.Ok text items maxFindings) : (placeItem text maxFindings s item).Ok text items maxFindings := by
  unfold placeItem
  split
  · exact h
  rename_i hroom
  split
  · exact h
  split
  · exact h
  · exact h
  rename_i quote hnil hquote
  have hne : quote ≠ [] := hnil
  split
  · exact h
  rename_i found hfound
  dsimp only
  split
  · exact h.searchFrom _
  rename_i hunits
  split
  · exact h.searchFrom _
  rename_i hspan
  -- found after the one before, or from the start
  have hplace : ∃ pos, findText text quote pos = some found := by
    cases hfirst : findText text quote s.searchFrom with
    | some at' =>
      rw [hfirst] at hfound
      obtain rfl := Option.some.inj hfound
      exact ⟨_, hfirst⟩
    | none =>
      rw [hfirst] at hfound
      exact ⟨0, hfound⟩
  obtain ⟨pos, hplace⟩ := hplace
  obtain ⟨-, -, hstands, -⟩ := findText_eq_some_iff.mp hplace
  have hnew := designates_findingAt htext hitem hquote hne hstands hunits
  refine ⟨?_, ?_, ?_⟩
  · show (s.findings ++ [_]).length ≤ maxFindings
    rw [List.length_append, List.length_singleton]
    exact not_le.mp hroom
  · refine List.pairwise_append.mpr ⟨h.distinct, List.pairwise_singleton _ _, ?_⟩
    intro other hother finding hfinding
    obtain rfl := List.mem_singleton.mp hfinding
    intro hsame
    exact hspan (List.any_eq_true.mpr ⟨other, hother, decide_eq_true hsame⟩)
  · intro finding hfinding
    rcases List.mem_append.mp hfinding with hold | hfinding
    · exact h.designates finding hold
    · obtain rfl := List.mem_singleton.mp hfinding
      exact ⟨item, hmem, quote, hquote, hnew⟩

/-- **All items** keep it. -/
theorem ok_foldl {text : Bytes} {items : List Value} {maxFindings : ℕ} (htext : ValidUtf8 text)
    (hclean : ∀ item ∈ items, item.Clean) :
    (items.foldl (placeItem text maxFindings) {}).Ok text items maxFindings := by
  have hstart : Placing.Ok text items maxFindings {} :=
    ⟨Nat.zero_le _, .nil, fun _ h => absurd h List.not_mem_nil⟩
  have hrun : ∀ (rest : List Value) (s : Placing), (∀ item ∈ rest, item ∈ items) →
      s.Ok text items maxFindings → (rest.foldl (placeItem text maxFindings) s).Ok text items maxFindings := by
    intro rest
    induction rest with
    | nil => exact fun s _ h => h
    | cons item rest ih =>
      intro s hrest h
      have hmem := hrest item List.mem_cons_self
      exact ih _ (fun other hother => hrest other (List.mem_cons_of_mem _ hother))
        (ok_placeItem htext hmem (hclean item hmem) h)
  exact hrun items {} (fun _ h => h) hstart

/-- **The units of a designated range are those of the quote**, in a text whose offsets fit. -/
theorem Designates.slice {text quote : Bytes} {finding : AnomalyFindingField}
    (h : Designates text quote finding) (hlt : text.length < 2 ^ 32) :
    ((utf16Units text).drop finding.start.toNat).take finding.length.toNat = utf16Units quote := by
  obtain ⟨front, back, rfl, hfront, hstart, hlength⟩ := h.stands
  rw [List.length_append, List.length_append] at hlt
  rw [hstart, hlength, toNat_utf16Length hfront (by omega), toNat_utf16Length h.valid (by omega),
    utf16Units_append hfront, utf16Units_append h.valid, List.drop_left, List.take_left]

/-- **The findings of a model**: for every text and every answer, each finding
designates the quote of an item, and its range of UTF-16 units is the quote. The ranges are
different, in order, and no more than asked for. -/
theorem parseAnomalyFindings_spec {text result : Bytes} {maxFindings : ℕ}
    {findings : List AnomalyFindingField} (htext : ValidUtf8 text)
    (h : parseAnomalyFindings text result maxFindings = some findings) :
    findings.length ≤ maxFindings
      ∧ findings.Pairwise OtherSpan
      ∧ findings.Pairwise (fun a b => a.start ≤ b.start)
      ∧ ∀ finding ∈ findings, ∃ items, parse result = some (.array items) ∧ ∃ item ∈ items, ∃ quote,
        item.getString (utf8 "quote") = some quote ∧ Designates text quote finding
          ∧ (text.length < 2 ^ 32 →
            ((utf16Units text).drop finding.start.toNat).take finding.length.toNat
              = utf16Units quote) := by
  unfold parseAnomalyFindings at h
  split at h
  · rename_i items hparse
    obtain rfl := Option.some.inj h
    have hclean : ∀ item ∈ items, item.Clean := by
      cases clean_of_parse hparse with
      | array helements => exact helements
    have hok := @ok_foldl _ _ maxFindings htext hclean
    have hperm := List.perm_insertionSort (fun a b => a.start ≤ b.start)
      (items.foldl (placeItem text maxFindings) {}).findings
    refine ⟨?_, ?_, ?_, ?_⟩
    · rw [hperm.length_eq]
      exact hok.few
    · refine (hperm.pairwise_iff ?_).mpr hok.distinct
      exact fun {a b} hab hba => hab ⟨hba.1.symm, hba.2.symm⟩
    · exact pairwise_insertionSort_of_mem (fun a _ b _ => UInt32.le_total _ _)
        (fun a _ b _ c _ hab hbc => UInt32.le_trans hab hbc)
    · intro finding hfinding
      obtain ⟨item, hmem, quote, hquote, hdesignates⟩ :=
        hok.designates finding (hperm.mem_iff.mp hfinding)
      exact ⟨items, hparse, item, hmem, quote, hquote, hdesignates, hdesignates.slice⟩
  · cases h

/-- A text that rains twice, behind a face of two units. -/
def rainText : Bytes := utf8 "😀雨が降る雪が降る雨が降る"

/-- An answer that names the snow first, and the rain once more than the text does. -/
def rainAnswer : Bytes :=
  utf8 "[\x7b\"quote\":\"雪が降る\"\x7d,\x7b\"quote\":\"雨が降る\",\"suggestions\":[\"晴れる\"]\x7d,\x7b\"quote\":\"雨が降る\"\x7d,\x7b\"quote\":\"雨が降る\"\x7d]"

/-- The rain is found behind the snow, then in front of it, and not a third time. -/
theorem parseAnomalyFindings_spec_rain :
    ∃ findings, parseAnomalyFindings rainText rainAnswer 5 = some findings
      ∧ findings.map (fun finding => (finding.start, finding.length)) = [(2, 4), (6, 4), (10, 4)]
      ∧ findings.Pairwise OtherSpan
      ∧ ∀ finding ∈ findings, ∃ quote, Designates rainText quote finding := by
  have hspans : (parseAnomalyFindings rainText rainAnswer 5).map
      (fun findings => findings.map fun finding => (finding.start, finding.length))
        = some [(2, 4), (6, 4), (10, 4)] := by
    decide +kernel
  obtain ⟨findings, hread, hspans⟩ := Option.map_eq_some_iff.mp hspans
  have hvalid : Core.Dictionary.isValidUtf8 rainText = true := by decide +kernel
  have htext := (Core.Dictionary.isValidUtf8_iff.mp hvalid).1
  obtain ⟨-, hdistinct, -, hall⟩ := parseAnomalyFindings_spec htext hread
  refine ⟨findings, hread, hspans, hdistinct, fun finding hfinding => ?_⟩
  obtain ⟨-, -, -, -, quote, -, hdesignates, -⟩ := hall finding hfinding
  exact ⟨quote, hdesignates⟩

end AzooKey.Host

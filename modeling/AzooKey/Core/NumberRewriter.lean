import AzooKey.Core.SimpleConverter
import AzooKey.Lib.KanjiNumeral

/-!
# Forms of a number

`core/src/NumberRewriter.cpp`: a reading of ASCII digits is offered in other forms,
in kanji, in circled and Roman digits where there are any, and in base 16, 8 and 2.

The reader refuses what does not fit into 64 bits before it multiplies
(`parseUint64_eq`). The kanji are read back by the rules of kanji numerals
(`value_convertJapaneseNumber`), which the source nowhere has: blocks of four digits
that are zero are left out, and so is 一 before a unit in the plain form, but not in
the formal one.
-/

namespace AzooKey.Core.NumberRewriter

/-! ## The tables -/

/-- `kKanjiDigits`. -/
def kanjiDigits : List Bytes :=
  ["", "一", "二", "三", "四", "五", "六", "七", "八", "九"].map utf8

/-- `kDaijiDigits`. -/
def daijiDigits : List Bytes :=
  ["", "壱", "弐", "参", "肆", "伍", "陸", "漆", "捌", "玖"].map utf8

/-- `kKanjiSmallUnits`. -/
def kanjiSmallUnits : List Bytes := ["", "十", "百", "千"].map utf8

/-- `kDaijiSmallUnits`. -/
def daijiSmallUnits : List Bytes := ["", "拾", "百", "千"].map utf8

/-- `kLargeUnits`. -/
def largeUnits : List Bytes := ["", "万", "億", "兆", "京"].map utf8

/-- `kRomanUpper`. -/
def romanUpper : List Bytes :=
  ["", "Ⅰ", "Ⅱ", "Ⅲ", "Ⅳ", "Ⅴ", "Ⅵ", "Ⅶ", "Ⅷ", "Ⅸ", "Ⅹ", "Ⅺ", "Ⅻ"].map utf8

/-- `kRomanLower`. -/
def romanLower : List Bytes :=
  ["", "ⅰ", "ⅱ", "ⅲ", "ⅳ", "ⅴ", "ⅵ", "ⅶ", "ⅷ", "ⅸ", "ⅹ", "ⅺ", "ⅻ"].map utf8

/-- `kCircledNumbers`. -/
def circledNumbers : List Bytes :=
  ["⓪", "①", "②", "③", "④", "⑤", "⑥", "⑦", "⑧", "⑨", "⑩", "⑪", "⑫", "⑬", "⑭", "⑮", "⑯", "⑰", "⑱", "⑲",
    "⑳", "㉑", "㉒", "㉓", "㉔", "㉕", "㉖", "㉗", "㉘", "㉙", "㉚", "㉛", "㉜", "㉝", "㉞", "㉟", "㊱", "㊲",
    "㊳", "㊴", "㊵", "㊶", "㊷", "㊸", "㊹", "㊺", "㊻", "㊼", "㊽", "㊾", "㊿"].map utf8

/-! ## Reading and writing numbers -/

/-- `IsAsciiDecimal`. -/
def isAsciiDecimal (text : Bytes) : Bool := !text.isEmpty && text.all isDigitByte

/-- The loop of `ParseUint64`, behind the digits that have been read. -/
def parseUint64From (parsed : ℕ) : Bytes → Option ℕ
  | [] => some parsed
  | ch :: text =>
    let digit := ch.toNat - 0x30
    if (2 ^ 64 - 1 - digit) / 10 < parsed then none else parseUint64From (parsed * 10 + digit) text

/-- **`ParseUint64`.** -/
def parseUint64 (text : Bytes) : Option ℕ := parseUint64From 0 text

/-- One round of the loop of `ConvertSegment`: the digit at a position and its unit. -/
def convertPosition (segment : ℕ) (daiji : Bool) (pos : ℕ) : Bytes :=
  let digits := if daiji then daijiDigits else kanjiDigits
  let units := if daiji then daijiSmallUnits else kanjiSmallUnits
  let digit := segment / 10 ^ pos % 10
  if digit = 0 then []
  else (if digit = 1 ∧ 0 < pos ∧ daiji = false then [] else digits.getD digit []) ++ units.getD pos []

/-- **`ConvertSegment`.** -/
def convertSegment (segment : ℕ) (daiji : Bool) : Bytes :=
  [3, 2, 1, 0].flatMap (convertPosition segment daiji)

/-- The segments of a number, the lowest first, and what is left when there are as many as
there may be. -/
def segmentsOf : ℕ → ℕ → List ℕ × ℕ
  | 0, value => ([], value)
  | count + 1, value =>
    if value = 0 then ([], 0)
    else
      let rest := segmentsOf count (value / 10000)
      (value % 10000 :: rest.1, rest.2)

/-- The loop over the segments, the highest first. -/
def joinSegments (daiji : Bool) : ℕ → List ℕ → Bytes
  | _, [] => []
  | index, segment :: segments =>
    joinSegments daiji (index + 1) segments
      ++ if segment = 0 then [] else convertSegment segment daiji ++ largeUnits.getD index []

/-- **`ConvertJapaneseNumber`.** -/
def convertJapaneseNumber (value : ℕ) (daiji : Bool) : Bytes :=
  if value = 0 then utf8 "零"
  else
    let segments := segmentsOf largeUnits.length value
    if segments.2 ≠ 0 then [] else joinSegments daiji 0 segments.1

/-- The characters of the digits of `ToBase`. -/
def baseDigit (d : ℕ) : UInt8 := (utf8 "0123456789abcdef").getD d 0

/-- The loop of `ToBase`, the lowest digit first. In base 0 and 1 it would not end. -/
def reversedDigits (base value : ℕ) : Bytes :=
  if _h : value = 0 ∨ base < 2 then []
  else baseDigit (value % base) :: reversedDigits base (value / base)
termination_by value
decreasing_by exact Nat.div_lt_self (by omega) (by omega)

/-- **`ToBase`.** -/
def toBase (value base : ℕ) : Bytes :=
  if value = 0 then utf8 "0" else (reversedDigits base value).reverse

/-! ## Candidates -/

/-- `Candidate`, with its description. -/
structure Candidate extends SimpleConverter.Candidate where
  description : Bytes
deriving DecidableEq

/-- `AddCandidate`. -/
def addCandidate (candidates : List Candidate) (reading surface description debugTag : Bytes) :
    List Candidate :=
  if surface = [] ∨ surface = reading then candidates
  else if candidates.any (fun candidate => candidate.surface = surface) then candidates
  else
    candidates ++ [{
      surface := surface
      reading := reading
      score := SimpleConverter.literal (5 / 100)
      source := .heuristic
      debugInfo := utf8 "number-rewriter:" ++ debugTag
      description := description }]

/-- A form of a number: its surface, its description and its tag. -/
structure Form where
  surface : Bytes
  description : Bytes
  tag : Bytes

/-- The forms of a number, in the order in which they are added. -/
def formsOf (value : ℕ) : List Form :=
  [⟨convertJapaneseNumber value false, utf8 "漢数字", utf8 "kanji"⟩,
    ⟨convertJapaneseNumber value true, utf8 "大字", utf8 "daiji"⟩]
  ++ (if value < circledNumbers.length then
      [⟨circledNumbers.getD value [], utf8 "丸数字", utf8 "circled"⟩] else [])
  ++ (if 0 < value ∧ value < romanUpper.length then
      [⟨romanUpper.getD value [], utf8 "ローマ数字（大文字）", utf8 "roman-upper"⟩,
        ⟨romanLower.getD value [], utf8 "ローマ数字（小文字）", utf8 "roman-lower"⟩] else [])
  ++ [⟨utf8 "0x" ++ toBase value 16, utf8 "16進数", utf8 "hex"⟩,
    ⟨utf8 "0" ++ toBase value 8, utf8 "8進数", utf8 "octal"⟩,
    ⟨utf8 "0b" ++ toBase value 2, utf8 "2進数", utf8 "binary"⟩]

/-- The forms are added one by one. -/
def addForms (reading : Bytes) (forms : List Form) (candidates : List Candidate) : List Candidate :=
  forms.foldl (fun candidates form =>
    addCandidate candidates reading form.surface form.description form.tag) candidates

/-- **`ExpandNumberCandidates`.** -/
def expandNumberCandidates (reading : Bytes) : List Candidate :=
  if isAsciiDecimal reading then
    (parseUint64 reading).elim [] fun value => addForms reading (formsOf value) []
  else []

/-! ## The reader -/

/-- The digits behind others only make the number greater. -/
theorem le_digits (parsed : ℕ) (text : Bytes) :
    parsed ≤ text.foldl (fun value c => value * 10 + (c.toNat - 0x30)) parsed := by
  induction text generalizing parsed with
  | nil => exact le_refl _
  | cons ch text ih =>
    have hle : parsed ≤ parsed * 10 + (ch.toNat - 0x30) := by omega
    exact hle.trans (ih _)

/-- What has been read stays below `2 ^ 64`. -/
theorem parseUint64From_eq {parsed : ℕ} {text : Bytes} (h : text.all isDigitByte = true)
    (hparsed : parsed < 2 ^ 64) :
    parseUint64From parsed text
      = if text.foldl (fun value c => value * 10 + (c.toNat - 0x30)) parsed < 2 ^ 64 then
          some (text.foldl (fun value c => value * 10 + (c.toNat - 0x30)) parsed)
        else none := by
  induction text generalizing parsed with
  | nil => rw [parseUint64From, List.foldl_nil, if_pos hparsed]
  | cons ch text ih =>
    rw [List.all_cons, Bool.and_eq_true] at h
    have hdigit : ch.toNat - 0x30 < 10 := by
      have hbounds := h.1
      unfold isDigitByte at hbounds
      rw [Bool.and_eq_true, decide_eq_true_eq, decide_eq_true_eq, UInt8.le_iff_toNat_le,
        UInt8.le_iff_toNat_le] at hbounds
      have hhigh : ch.toNat ≤ 0x39 := hbounds.2
      omega
    have hle := le_digits (parsed * 10 + (ch.toNat - 0x30)) text
    rw [parseUint64From, List.foldl_cons]
    by_cases hover : (2 ^ 64 - 1 - (ch.toNat - 0x30)) / 10 < parsed
    · rw [if_pos hover, if_neg (by omega)]
    · rw [if_neg hover, ih h.2 (by omega)]

/-- **The reader**: a number that fits, and never a smaller one. -/
theorem parseUint64_eq {text : Bytes} (h : text.all isDigitByte = true) :
    parseUint64 text = if digitsValue text < 2 ^ 64 then some (digitsValue text) else none :=
  parseUint64From_eq h (by norm_num)

/-! ## Kanji -/

open KanjiNumeral

/-- **What the tables mean**: the digits, the small units and the large ones. -/
theorem meaning_tables :
    (∀ daiji : Bool, ∀ d < 10, d ≠ 0 →
      meaning ((if daiji then daijiDigits else kanjiDigits).getD d []) = some (.digit d))
    ∧ (∀ daiji : Bool, ∀ pos < 4, pos ≠ 0 →
      meaning ((if daiji then daijiSmallUnits else kanjiSmallUnits).getD pos [])
        = some (.unit (10 ^ pos)))
    ∧ ∀ index < 5, index ≠ 0 →
      meaning (largeUnits.getD index []) = some (.wholeUnit (10000 ^ index)) := by
  decide

/-- The digits mean digits. -/
theorem meaning_digit (daiji : Bool) {d : ℕ} (hpos : d ≠ 0) (hd : d < 10) :
    meaning ((if daiji then daijiDigits else kanjiDigits).getD d []) = some (.digit d) :=
  meaning_tables.1 daiji d hd hpos

/-- The small units mean units. -/
theorem meaning_smallUnit (daiji : Bool) {pos : ℕ} (hpos : pos ≠ 0) (hlt : pos < 4) :
    meaning ((if daiji then daijiSmallUnits else kanjiSmallUnits).getD pos [])
      = some (.unit (10 ^ pos)) :=
  meaning_tables.2.1 daiji pos hlt hpos

/-- The large units mean whole units. -/
theorem meaning_largeUnit {index : ℕ} (hindex : index ≠ 0) (hlt : index < 5) :
    meaning (largeUnits.getD index []) = some (.wholeUnit (10000 ^ index)) :=
  meaning_tables.2.2 index hlt hindex

/-- A digit with a unit is added to the part. -/
theorem read_convertPosition (segment : ℕ) (daiji : Bool) {pos : ℕ} (hpos : pos ≠ 0) (hlt : pos < 4)
    (whole part : ℕ) (text : Bytes) :
    read ⟨whole, part, 0⟩ (convertPosition segment daiji pos ++ text)
      = read ⟨whole, part + segment / 10 ^ pos % 10 * 10 ^ pos, 0⟩ text := by
  have hd : segment / 10 ^ pos % 10 < 10 := Nat.mod_lt _ (by norm_num)
  unfold convertPosition
  dsimp only
  generalize segment / 10 ^ pos % 10 = digit at hd ⊢
  by_cases hzero : digit = 0
  · rw [if_pos hzero, hzero, Nat.zero_mul, Nat.add_zero, List.nil_append]
  rw [if_neg hzero, List.append_assoc]
  by_cases hone : digit = 1 ∧ 0 < pos ∧ daiji = false
  · rw [if_pos hone, List.nil_append, read_append (meaning_smallUnit daiji hpos hlt), hone.1]
    rfl
  · rw [if_neg hone, read_append (meaning_digit daiji hzero hd),
      read_append (meaning_smallUnit daiji hpos hlt)]
    show read ⟨whole, part + (if digit = 0 then 1 else digit) * 10 ^ pos, 0⟩ text = _
    rw [if_neg hzero]

/-- The last digit has no unit. -/
theorem read_convertPosition_zero (segment : ℕ) (daiji : Bool) (whole part : ℕ) (text : Bytes) :
    read ⟨whole, part, 0⟩ (convertPosition segment daiji 0 ++ text)
      = read ⟨whole, part, segment % 10⟩ text := by
  have hd : segment % 10 < 10 := Nat.mod_lt _ (by norm_num)
  unfold convertPosition
  dsimp only
  rw [pow_zero, Nat.div_one]
  generalize segment % 10 = digit at hd ⊢
  by_cases hzero : digit = 0
  · rw [if_pos hzero, hzero, List.nil_append]
  · have hunit : (if daiji then daijiSmallUnits else kanjiSmallUnits).getD 0 [] = [] := by
      cases daiji <;> rfl
    rw [if_neg hzero, if_neg (fun h => absurd h.2.1 (lt_irrefl 0)), hunit, List.append_nil,
      read_append (meaning_digit daiji hzero hd)]
    rfl

/-- **A segment is read as its number.** -/
theorem read_convertSegment {segment : ℕ} (h : segment < 10000) (daiji : Bool) (whole : ℕ)
    (text : Bytes) :
    ∃ part, part + segment % 10 = segment
      ∧ read ⟨whole, 0, 0⟩ (convertSegment segment daiji ++ text)
        = read ⟨whole, part, segment % 10⟩ text := by
  refine ⟨0 + segment / 10 ^ 3 % 10 * 10 ^ 3 + segment / 10 ^ 2 % 10 * 10 ^ 2
    + segment / 10 ^ 1 % 10 * 10 ^ 1, by omega, ?_⟩
  show read _ ((convertPosition segment daiji 3 ++ (convertPosition segment daiji 2
    ++ (convertPosition segment daiji 1 ++ (convertPosition segment daiji 0 ++ [])))) ++ text) = _
  rw [List.append_nil, List.append_assoc, List.append_assoc, List.append_assoc,
    read_convertPosition segment daiji (by norm_num) (by norm_num),
    read_convertPosition segment daiji (by norm_num) (by norm_num),
    read_convertPosition segment daiji (by norm_num) (by norm_num), read_convertPosition_zero]

/-- The segments are the digits in base 10000. -/
theorem segmentsOf_spec (count value : ℕ) :
    (∀ segment ∈ (segmentsOf count value).1, segment < 10000)
      ∧ (segmentsOf count value).1.length ≤ count
      ∧ Nat.ofDigits 10000 (segmentsOf count value).1
        + 10000 ^ count * (segmentsOf count value).2 = value := by
  induction count generalizing value with
  | zero =>
    refine ⟨fun _ hno => absurd hno List.not_mem_nil, le_refl _, ?_⟩
    show 0 + 10000 ^ 0 * value = value
    omega
  | succ count ih =>
    unfold segmentsOf
    by_cases hzero : value = 0
    · rw [if_pos hzero, hzero]
      exact ⟨fun _ hno => absurd hno List.not_mem_nil, Nat.zero_le _, rfl⟩
    · rw [if_neg hzero]
      obtain ⟨hlt, hlength, hsum⟩ := ih (value / 10000)
      refine ⟨fun segment hsegment => ?_, Nat.succ_le_succ hlength, ?_⟩
      · rcases List.mem_cons.mp hsegment with rfl | hsegment
        · exact Nat.mod_lt _ (by norm_num)
        · exact hlt segment hsegment
      · show Nat.ofDigits 10000 (value % 10000 :: _) + _ = value
        rw [Nat.ofDigits_cons, pow_succ]
        calc value % 10000 + 10000 * Nat.ofDigits 10000 (segmentsOf count (value / 10000)).1
              + 10000 ^ count * 10000 * (segmentsOf count (value / 10000)).2
            = value % 10000 + 10000 * (Nat.ofDigits 10000 (segmentsOf count (value / 10000)).1
              + 10000 ^ count * (segmentsOf count (value / 10000)).2) := by ring
          _ = value := by rw [hsum]; exact Nat.mod_add_div value 10000

/-- The segments that have a unit are added to the whole. -/
theorem read_joinSegments (daiji : Bool) {index : ℕ} (hindex : index ≠ 0) {segments : List ℕ}
    (hlt : ∀ segment ∈ segments, segment < 10000) (hlength : index + segments.length ≤ 5)
    (whole : ℕ) (text : Bytes) :
    read ⟨whole, 0, 0⟩ (joinSegments daiji index segments ++ text)
      = read ⟨whole + 10000 ^ index * Nat.ofDigits 10000 segments, 0, 0⟩ text := by
  induction segments generalizing index text with
  | nil => rfl
  | cons segment segments ih =>
    rw [List.length_cons] at hlength
    have hsegment := hlt segment List.mem_cons_self
    rw [joinSegments, List.append_assoc, ih (Nat.succ_ne_zero index)
      (fun other hother => hlt other (List.mem_cons_of_mem _ hother)) (by omega),
      Nat.ofDigits_cons]
    have hvalue : whole + 10000 ^ index * (segment + 10000 * Nat.ofDigits 10000 segments)
        = whole + 10000 ^ (index + 1) * Nat.ofDigits 10000 segments + segment * 10000 ^ index := by
      rw [pow_succ]
      ring
    by_cases hzero : segment = 0
    · rw [if_pos hzero, List.nil_append, hvalue, hzero, Nat.zero_mul, Nat.add_zero]
    · obtain ⟨part, hpart, hread⟩ := read_convertSegment hsegment daiji
        (whole + 10000 ^ (index + 1) * Nat.ofDigits 10000 segments)
        (largeUnits.getD index [] ++ text)
      rw [if_neg hzero, List.append_assoc, hread,
        read_append (meaning_largeUnit hindex (by omega)), hvalue]
      show read ⟨_ + (part + segment % 10) * _, 0, 0⟩ text = _
      rw [hpart]

/-- **A number in kanji is read as the number.** -/
theorem value_convertJapaneseNumber {value : ℕ} (h : value < 2 ^ 64) (daiji : Bool) :
    KanjiNumeral.value (convertJapaneseNumber value daiji) = some value := by
  unfold convertJapaneseNumber
  by_cases hzero : value = 0
  · rw [if_pos hzero, hzero]
    rfl
  rw [if_neg hzero]
  have hcount : largeUnits.length = 5 := rfl
  dsimp only
  rw [hcount]
  obtain ⟨hlt, hlength, hsum⟩ := segmentsOf_spec 5 value
  have hrest : (segmentsOf 5 value).2 = 0 := by
    by_contra hne
    have hpos := Nat.one_le_iff_ne_zero.mpr hne
    have : 10000 ^ 5 * 1 ≤ 10000 ^ 5 * (segmentsOf 5 value).2 := Nat.mul_le_mul_left _ hpos
    omega
  rw [hrest, Nat.mul_zero, Nat.add_zero] at hsum
  rw [if_neg (not_not.mpr hrest)]
  cases hsegments : (segmentsOf 5 value).1 with
  | nil =>
    rw [hsegments] at hsum
    exact absurd hsum.symm hzero
  | cons segment segments =>
    rw [hsegments] at hlt hlength hsum
    rw [List.length_cons] at hlength
    have hsegment := hlt segment List.mem_cons_self
    unfold KanjiNumeral.value
    rw [joinSegments]
    have hjoin := read_joinSegments daiji (Nat.succ_ne_zero 0)
      (fun other hother => hlt other (List.mem_cons_of_mem _ hother)) (by omega) 0
      (if segment = 0 then [] else convertSegment segment daiji ++ largeUnits.getD 0 [])
    rw [Nat.ofDigits_cons] at hsum
    show read ⟨0, 0, 0⟩ _ = _
    rw [hjoin, ← hsum]
    by_cases hsegmentZero : segment = 0
    · rw [if_pos hsegmentZero, hsegmentZero]
      show some (0 + 10000 ^ (0 + 1) * Nat.ofDigits 10000 segments + 0 + 0) = _
      congr 1
    · obtain ⟨part, hpart, hread⟩ := read_convertSegment hsegment daiji
        (0 + 10000 ^ (0 + 1) * Nat.ofDigits 10000 segments) (largeUnits.getD 0 [])
      rw [if_neg hsegmentZero, hread]
      show some (0 + 10000 ^ (0 + 1) * Nat.ofDigits 10000 segments + part + segment % 10) = _
      congr 1
      simp
      omega

/-- Distinct numbers are written distinctly. -/
theorem convertJapaneseNumber_ne {v w : ℕ} (hv : v < 2 ^ 64) (hw : w < 2 ^ 64) (h : v ≠ w)
    (daiji : Bool) : convertJapaneseNumber v daiji ≠ convertJapaneseNumber w daiji := by
  intro heq
  have hvalue := value_convertJapaneseNumber hv daiji
  rw [heq, value_convertJapaneseNumber hw daiji] at hvalue
  exact h (Option.some.inj hvalue).symm

/-- A number in kanji is a text that does not begin with ASCII. -/
theorem exists_convertJapaneseNumber {v : ℕ} (h : v < 2 ^ 64) (daiji : Bool) :
    ∃ c text, convertJapaneseNumber v daiji = c :: text ∧ 0x80 ≤ c := by
  have hvalue := value_convertJapaneseNumber h daiji
  cases hkanji : convertJapaneseNumber v daiji with
  | nil =>
    rw [hkanji] at hvalue
    obtain rfl : 0 = v := Option.some.inj hvalue
    rw [convertJapaneseNumber, if_pos rfl] at hkanji
    exact absurd hkanji (by decide)
  | cons c text =>
    refine ⟨c, text, rfl, ?_⟩
    by_contra hlt
    rw [hkanji, value_eq_none (not_le.mp hlt)] at hvalue
    cases hvalue

/-! ## Bases -/

/-- The character of a digit, `0` to `9` and `a` to `f`. -/
def numeralChar (d : ℕ) : UInt8 := UInt8.ofNat (Nat.digitChar d).toNat

/-- **The numeral of a number** in a base: its digits, the highest first, and no zero in
front of others. -/
def IsNumeral (base value : ℕ) (text : Bytes) : Prop :=
  ∃ digits : List ℕ, text = digits.map numeralChar ∧ digits ≠ [] ∧ (∀ d ∈ digits, d < base)
    ∧ Nat.ofDigits base digits.reverse = value ∧ (digits.head? = some 0 → digits = [0])

/-- The table of `ToBase` holds the characters of the digits. -/
theorem baseDigit_eq : ∀ d < 16, baseDigit d = numeralChar d := by decide

/-- The loop writes the digits. -/
theorem reversedDigits_eq {base : ℕ} (hbase : 2 ≤ base) (hhigh : base ≤ 16) (value : ℕ) :
    reversedDigits base value = (Nat.digits base value).map numeralChar := by
  induction value using Nat.strong_induction_on with
  | _ value ih =>
    unfold reversedDigits
    by_cases hzero : value = 0
    · rw [dif_pos (Or.inl hzero), hzero, Nat.digits_zero]
      rfl
    · have hpos := Nat.pos_of_ne_zero hzero
      have hdigit : value % base < 16 := lt_of_lt_of_le (Nat.mod_lt _ (by omega)) hhigh
      rw [dif_neg (by omega), Nat.digits_def' (by omega) hpos, List.map_cons,
        ih _ (Nat.div_lt_self hpos (by omega)), baseDigit_eq _ hdigit]

/-- **`ToBase` writes the numeral.** -/
theorem isNumeral_toBase {base : ℕ} (hbase : 2 ≤ base) (hhigh : base ≤ 16) (value : ℕ) :
    IsNumeral base value (toBase value base) := by
  unfold toBase
  by_cases hzero : value = 0
  · rw [if_pos hzero, hzero]
    refine ⟨[0], by decide, List.cons_ne_nil _ _, fun d hd => ?_, rfl, fun _ => rfl⟩
    rw [List.mem_singleton.mp hd]
    omega
  · have hne : Nat.digits base value ≠ [] := Nat.digits_ne_nil_iff_ne_zero.mpr hzero
    rw [if_neg hzero, reversedDigits_eq hbase hhigh]
    refine ⟨(Nat.digits base value).reverse, List.map_reverse.symm, List.reverse_ne_nil_iff.mpr hne,
      fun d hd => Nat.digits_lt_base (by omega) (List.mem_reverse.mp hd), ?_, fun hhead => ?_⟩
    · rw [List.reverse_reverse]
      exact Nat.ofDigits_digits base value
    · rw [List.head?_reverse, List.getLast?_eq_getLast_of_ne_nil hne] at hhead
      exact absurd (Option.some.inj hhead) (Nat.getLast_digit_ne_zero base hzero)

/-! ## Adding candidates -/

/-- What is added is a surface that is not there. -/
theorem map_addCandidate (candidates : List Candidate) (reading surface description debugTag : Bytes) :
    (addCandidate candidates reading surface description debugTag).map (fun c => c.surface)
      = if surface = [] ∨ surface = reading ∨ surface ∈ candidates.map (fun c => c.surface) then
          candidates.map (fun c => c.surface)
        else candidates.map (fun c => c.surface) ++ [surface] := by
  unfold addCandidate
  by_cases hskip : surface = [] ∨ surface = reading
  · rw [if_pos hskip, if_pos (hskip.imp_right Or.inl)]
  · have hmem : candidates.any (fun candidate => candidate.surface = surface) = true
        ↔ surface ∈ candidates.map (fun c => c.surface) := by
      rw [List.any_eq_true, List.mem_map]
      simp only [decide_eq_true_eq]
    rw [if_neg hskip]
    by_cases hthere : surface ∈ candidates.map (fun c => c.surface)
    · rw [if_pos (hmem.mpr hthere), if_pos (Or.inr (Or.inr hthere))]
    · rw [if_neg (fun h => hthere (hmem.mp h)), if_neg (fun h => h.elim (fun h => hskip (Or.inl h))
        (fun h => h.elim (fun h => hskip (Or.inr h)) hthere)), List.map_append]
      rfl

/-- **What is added in all**: the surfaces of the forms, each once, but nothing empty and not
the reading. -/
theorem addForms_surfaces (reading : Bytes) (forms : List Form) {candidates : List Candidate}
    (hnodup : (candidates.map (fun c => c.surface)).Nodup) :
    ((addForms reading forms candidates).map (fun c => c.surface)).Nodup
      ∧ (∀ surface, surface ∈ (addForms reading forms candidates).map (fun c => c.surface)
        ↔ surface ∈ candidates.map (fun c => c.surface)
          ∨ surface ∈ forms.map Form.surface ∧ surface ≠ [] ∧ surface ≠ reading)
      ∧ candidates.map (fun c => c.surface)
        <+: (addForms reading forms candidates).map (fun c => c.surface) := by
  induction forms generalizing candidates with
  | nil =>
    refine ⟨hnodup, fun surface => ⟨Or.inl, ?_⟩, List.prefix_rfl⟩
    rintro (h | ⟨h, -⟩)
    · exact h
    · exact absurd h List.not_mem_nil
  | cons form forms ih =>
    have hmap := map_addCandidate candidates reading form.surface form.description form.tag
    have hstep : ((addCandidate candidates reading form.surface form.description form.tag).map
        (fun c => c.surface)).Nodup := by
      rw [hmap]
      split
      · exact hnodup
      · next hnew =>
        rw [List.nodup_append]
        refine ⟨hnodup, List.nodup_singleton _, fun a ha b hb => ?_⟩
        rw [List.mem_singleton.mp hb]
        rintro rfl
        exact hnew (Or.inr (Or.inr ha))
    obtain ⟨hall, hmem, hprefix⟩ := ih hstep
    refine ⟨hall, fun surface => ?_, List.IsPrefix.trans ?_ hprefix⟩
    · show surface ∈ (addForms reading forms _).map _ ↔ _
      rw [hmem, hmap, List.map_cons, List.mem_cons]
      split
      · next hold =>
        constructor
        · rintro (h | ⟨h, hne⟩)
          · exact Or.inl h
          · exact Or.inr ⟨Or.inr h, hne⟩
        · rintro (h | ⟨rfl | h, hne⟩)
          · exact Or.inl h
          · exact Or.inl ((hold.resolve_left hne.1).resolve_left hne.2)
          · exact Or.inr ⟨h, hne⟩
      · next hnew =>
        have hform : form.surface ≠ [] ∧ form.surface ≠ reading :=
          ⟨fun h => hnew (Or.inl h), fun h => hnew (Or.inr (Or.inl h))⟩
        rw [List.mem_append, List.mem_singleton]
        constructor
        · rintro ((h | rfl) | ⟨h, hne⟩)
          · exact Or.inl h
          · exact Or.inr ⟨Or.inl rfl, hform⟩
          · exact Or.inr ⟨Or.inr h, hne⟩
        · rintro (h | ⟨rfl | h, hne⟩)
          · exact Or.inl (Or.inl h)
          · exact Or.inl (Or.inr rfl)
          · exact Or.inr ⟨h, hne⟩
    · rw [hmap]
      split
      · exact List.prefix_rfl
      · exact List.prefix_append _ _

/-- A candidate is one of a form. -/
theorem mem_addForms {reading : Bytes} {forms : List Form} {candidates : List Candidate} {c : Candidate}
    (h : c ∈ addForms reading forms candidates) :
    c ∈ candidates ∨ ∃ form ∈ forms, c.surface = form.surface ∧ c.description = form.description
      ∧ c.debugInfo = utf8 "number-rewriter:" ++ form.tag := by
  induction forms generalizing candidates with
  | nil => exact Or.inl h
  | cons form forms ih =>
    obtain hmem | ⟨other, hother, heq⟩ := ih h
    · unfold addCandidate at hmem
      dsimp only at hmem
      split_ifs at hmem
      · exact Or.inl hmem
      · exact Or.inl hmem
      · obtain hmem | hmem := List.mem_append.mp hmem
        · exact Or.inl hmem
        · rw [List.mem_singleton.mp hmem]
          exact Or.inr ⟨form, List.mem_cons_self, rfl, rfl, rfl⟩
    · exact Or.inr ⟨other, List.mem_cons_of_mem _ hother, heq⟩

/-! ## What is offered -/

/-- The surfaces that are offered for a reading. -/
def surfacesOf (reading : Bytes) : List Bytes :=
  (expandNumberCandidates reading).map (fun c => c.surface)

/-- **The candidates of a reading stand for a number.** The formal kanji of zero are the plain
ones, and the numeral in base 8 is left out where the reading is that numeral. -/
structure Offers (reading : Bytes) (value : ℕ) : Prop where
  forms : ∀ c ∈ expandNumberCandidates reading, ∃ form ∈ formsOf value, c.surface = form.surface
    ∧ c.description = form.description ∧ c.debugInfo = utf8 "number-rewriter:" ++ form.tag
  first : (surfacesOf reading).head? = some (convertJapaneseNumber value false)
  kanji : KanjiNumeral.value (convertJapaneseNumber value false) = some value
  daiji_mem : convertJapaneseNumber value true ∈ surfacesOf reading
  daiji : KanjiNumeral.value (convertJapaneseNumber value true) = some value
  hex : utf8 "0x" ++ toBase value 16 ∈ surfacesOf reading ∧ IsNumeral 16 value (toBase value 16)
  octal : (utf8 "0" ++ toBase value 8 ∈ surfacesOf reading ∨ utf8 "0" ++ toBase value 8 = reading)
    ∧ IsNumeral 8 value (toBase value 8)
  binary : utf8 "0b" ++ toBase value 2 ∈ surfacesOf reading ∧ IsNumeral 2 value (toBase value 2)
  distinct : (surfacesOf reading).Nodup
  not_reading : reading ∉ surfacesOf reading

/-- What begins with a letter or with kanji is not the reading. -/
theorem ne_of_not_isDigitByte {text reading : Bytes} {c : UInt8} (hc : c ∈ text)
    (hno : isDigitByte c = false) (hreading : reading.all isDigitByte = true) : text ≠ reading := by
  rintro rfl
  rw [List.all_eq_true.mp hreading c hc] at hno
  cases hno

/-- **A number that fits is offered.** -/
theorem offers {reading : Bytes} (hdigits : reading.all isDigitByte = true) (hne : reading ≠ [])
    (hlt : digitsValue reading < 2 ^ 64) : Offers reading (digitsValue reading) := by
  have hdecimal : isAsciiDecimal reading = true := by
    unfold isAsciiDecimal
    rw [hdigits, Bool.and_true, List.isEmpty_eq_false_iff.mpr hne]
    rfl
  have hexpand : expandNumberCandidates reading
      = addForms reading (formsOf (digitsValue reading)) [] := by
    unfold expandNumberCandidates
    rw [if_pos hdecimal, parseUint64_eq hdigits, if_pos hlt]
    rfl
  have hkanji : ∀ daiji, convertJapaneseNumber (digitsValue reading) daiji ≠ []
      ∧ convertJapaneseNumber (digitsValue reading) daiji ≠ reading := by
    intro daiji
    obtain ⟨c, text, heq, hc⟩ := exists_convertJapaneseNumber hlt daiji
    have hno : isDigitByte c = false := by
      have hhigh : ¬ c ≤ 0x39 := not_le.mpr (lt_of_lt_of_le (by decide) hc)
      unfold isDigitByte
      rw [decide_eq_false hhigh, Bool.and_false]
    rw [heq]
    exact ⟨List.cons_ne_nil _ _, ne_of_not_isDigitByte List.mem_cons_self hno hdigits⟩
  have hnil : (([] : List Candidate).map (fun c => c.surface)).Nodup := List.nodup_nil
  obtain ⟨hnodup, hmem, -⟩ := addForms_surfaces reading (formsOf (digitsValue reading)) hnil
  have hsurface : ∀ form ∈ formsOf (digitsValue reading), form.surface ≠ [] →
      form.surface ≠ reading → form.surface ∈ surfacesOf reading := by
    intro form hform hnil hother
    unfold surfacesOf
    rw [hexpand]
    exact (hmem _).mpr (Or.inr ⟨List.mem_map_of_mem hform, hnil, hother⟩)
  -- the forms that are always there
  have hform : ∀ form ∈ [⟨utf8 "0x" ++ toBase (digitsValue reading) 16, utf8 "16進数", utf8 "hex"⟩,
      ⟨utf8 "0" ++ toBase (digitsValue reading) 8, utf8 "8進数", utf8 "octal"⟩,
      (⟨utf8 "0b" ++ toBase (digitsValue reading) 2, utf8 "2進数", utf8 "binary"⟩ : Form)],
      form ∈ formsOf (digitsValue reading) := fun form hform => List.mem_append_right _ hform
  have hdaiji : (⟨convertJapaneseNumber (digitsValue reading) true, utf8 "大字", utf8 "daiji"⟩ : Form)
      ∈ formsOf (digitsValue reading) := by
    refine List.mem_append_left _ (List.mem_append_left _ (List.mem_append_left _ ?_))
    exact List.mem_cons_of_mem _ List.mem_cons_self
  have hletter : ∀ text : Bytes, utf8 "0x" ++ text ≠ reading ∧ utf8 "0b" ++ text ≠ reading := by
    intro text
    refine ⟨ne_of_not_isDigitByte (c := 0x78) (List.mem_append_left _ ?_) (by decide) hdigits,
      ne_of_not_isDigitByte (c := 0x62) (List.mem_append_left _ ?_) (by decide) hdigits⟩
    · decide
    · decide
  have hsome : ∀ text : Bytes, utf8 "0x" ++ text ≠ [] ∧ utf8 "0" ++ text ≠ [] ∧ utf8 "0b" ++ text ≠ [] :=
    fun text => ⟨List.append_ne_nil_of_left_ne_nil (by decide) _,
      List.append_ne_nil_of_left_ne_nil (by decide) _,
      List.append_ne_nil_of_left_ne_nil (by decide) _⟩
  refine {
    forms := fun c hc => ?_
    first := ?_
    kanji := value_convertJapaneseNumber hlt false
    daiji_mem := hsurface _ hdaiji (hkanji true).1 (hkanji true).2
    daiji := value_convertJapaneseNumber hlt true
    hex := ⟨hsurface _ (hform _ List.mem_cons_self) (hsome _).1 (hletter _).1,
      isNumeral_toBase (by decide) (by decide) _⟩
    octal := ⟨?_, isNumeral_toBase (by decide) (by decide) _⟩
    binary := ⟨hsurface _ (hform _ (List.mem_cons_of_mem _ (List.mem_cons_of_mem _
      List.mem_cons_self))) (hsome _).2.2 (hletter _).2, isNumeral_toBase (by decide) (by decide) _⟩
    distinct := ?_
    not_reading := fun h => ?_ }
  · rw [hexpand] at hc
    exact (mem_addForms hc).resolve_left List.not_mem_nil
  · -- nothing is there when the first form is added
    have hfirst := map_addCandidate [] reading (convertJapaneseNumber (digitsValue reading) false)
      (utf8 "漢数字") (utf8 "kanji")
    rw [if_neg (fun h => h.elim (hkanji false).1 (fun h => h.elim (hkanji false).2 List.not_mem_nil))]
      at hfirst
    have hnodupFirst : ((addCandidate [] reading (convertJapaneseNumber (digitsValue reading) false)
        (utf8 "漢数字") (utf8 "kanji")).map (fun c => c.surface)).Nodup := by
      rw [hfirst]
      exact List.nodup_singleton _
    obtain ⟨rest, hrest⟩ := (addForms_surfaces reading (formsOf (digitsValue reading)).tail
      hnodupFirst).2.2
    rw [hfirst] at hrest
    unfold surfacesOf
    rw [hexpand]
    show ((addForms reading (formsOf (digitsValue reading)).tail (addCandidate [] reading
      (convertJapaneseNumber (digitsValue reading) false) _ _)).map _).head? = _
    rw [← hrest]
    rfl
  · by_cases hoctal : utf8 "0" ++ toBase (digitsValue reading) 8 = reading
    · exact Or.inr hoctal
    · exact Or.inl (hsurface _ (hform _ (List.mem_cons_of_mem _ List.mem_cons_self)) (hsome _).2.1
        hoctal)
  · unfold surfacesOf
    rw [hexpand]
    exact hnodup
  · unfold surfacesOf at h
    rw [hexpand, hmem] at h
    exact h.elim List.not_mem_nil (fun h => h.2.2 rfl)

/-- **A reading of digits is offered in other forms** where it is a number below `2 ^ 64`, and
nothing is offered otherwise. -/
theorem expandNumberCandidates_spec (reading : Bytes) (hdigits : reading.all isDigitByte = true) :
    (expandNumberCandidates reading ≠ [] ↔ reading ≠ [] ∧ digitsValue reading < 2 ^ 64)
      ∧ (reading ≠ [] → digitsValue reading < 2 ^ 64 → Offers reading (digitsValue reading))
      ∧ ∀ v w daiji, v < 2 ^ 64 → w < 2 ^ 64 → v ≠ w →
        convertJapaneseNumber v daiji ≠ convertJapaneseNumber w daiji := by
  refine ⟨⟨fun h => ?_, fun ⟨hne, hlt⟩ => ?_⟩, offers hdigits,
    fun v w daiji hv hw hne => convertJapaneseNumber_ne hv hw hne daiji⟩
  · by_contra hno
    refine h ?_
    unfold expandNumberCandidates
    by_cases hempty : reading = []
    · rw [hempty]
      rfl
    · split
      · rw [parseUint64_eq hdigits, if_neg (fun hlt => hno ⟨hempty, hlt⟩)]
        rfl
      · rfl
  · intro hnil
    have hfirst := (offers hdigits hne hlt).first
    unfold surfacesOf at hfirst
    rw [hnil] at hfirst
    cases hfirst

/-- The forms of 10. -/
theorem expandNumberCandidates_spec_ten :
    (expandNumberCandidates (utf8 "10") ≠ [] ↔ utf8 "10" ≠ [] ∧ digitsValue (utf8 "10") < 2 ^ 64)
      ∧ (utf8 "10" ≠ [] → digitsValue (utf8 "10") < 2 ^ 64 → Offers (utf8 "10") (digitsValue (utf8 "10")))
      ∧ ∀ v w daiji, v < 2 ^ 64 → w < 2 ^ 64 → v ≠ w →
        convertJapaneseNumber v daiji ≠ convertJapaneseNumber w daiji :=
  expandNumberCandidates_spec (utf8 "10") (by decide)

end AzooKey.Core.NumberRewriter

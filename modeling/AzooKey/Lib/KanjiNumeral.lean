import AzooKey.Lib.Bytes

/-!
# Kanji numerals

The value of a numeral that is written with kanji: digits, units of a part (十, 百,
千) and units of the whole (万, 億, 兆, 京). A digit multiplies the unit behind it, a
unit without a digit counts once, and a unit of the whole multiplies the part before
it. The digits and the first unit have a second form each (大字).

A text is read character by character; each character changes what has been read so
far (`Reading.step`), and `read_append` says so of a text that begins with one.
-/

namespace KanjiNumeral

/-- What a character means. -/
inductive Symbol
  | digit (d : ℕ)
  | unit (n : ℕ)
  | wholeUnit (n : ℕ)
deriving DecidableEq

/-- What has been read: the whole units, the part behind them, and a digit. -/
structure Reading where
  whole : ℕ
  part : ℕ
  digit : ℕ
deriving DecidableEq

namespace Reading

/-- Nothing has been read. -/
def start : Reading := ⟨0, 0, 0⟩

/-- The number that has been read. -/
def value (r : Reading) : ℕ := r.whole + r.part + r.digit

/-- **One character more.** -/
def step (r : Reading) : Symbol → Reading
  | .digit d => ⟨r.whole, r.part, d⟩
  | .unit n => ⟨r.whole, r.part + (if r.digit = 0 then 1 else r.digit) * n, 0⟩
  | .wholeUnit n => ⟨r.whole + (r.part + r.digit) * n, 0, 0⟩

end Reading

/-- The characters, as texts, with their meanings. -/
def characters : List (Bytes × Symbol) :=
  [(utf8 "零", .digit 0), (utf8 "一", .digit 1), (utf8 "二", .digit 2), (utf8 "三", .digit 3),
    (utf8 "四", .digit 4), (utf8 "五", .digit 5), (utf8 "六", .digit 6), (utf8 "七", .digit 7),
    (utf8 "八", .digit 8), (utf8 "九", .digit 9), (utf8 "壱", .digit 1), (utf8 "弐", .digit 2),
    (utf8 "参", .digit 3), (utf8 "肆", .digit 4), (utf8 "伍", .digit 5), (utf8 "陸", .digit 6),
    (utf8 "漆", .digit 7), (utf8 "捌", .digit 8), (utf8 "玖", .digit 9), (utf8 "十", .unit 10),
    (utf8 "拾", .unit 10), (utf8 "百", .unit 100), (utf8 "千", .unit 1000),
    (utf8 "万", .wholeUnit (10 ^ 4)), (utf8 "億", .wholeUnit (10 ^ 8)),
    (utf8 "兆", .wholeUnit (10 ^ 12)), (utf8 "京", .wholeUnit (10 ^ 16))]

/-- The meaning of a character. -/
def meaning (character : Bytes) : Option Symbol :=
  (characters.find? (fun c => c.1 = character)).map Prod.snd

/-- The number that a text stands for, behind what has been read. All characters have
three octets. -/
def read (r : Reading) : Bytes → Option ℕ
  | [] => some r.value
  | a :: b :: c :: text => (meaning [a, b, c]).bind fun symbol => read (r.step symbol) text
  | _ => none

/-- **The number that a text stands for.** -/
def value (text : Bytes) : Option ℕ := read .start text

set_option maxRecDepth 10000 in
/-- A character is read first. -/
theorem read_append {character : Bytes} {symbol : Symbol} (h : meaning character = some symbol)
    (r : Reading) (text : Bytes) : read r (character ++ text) = read (r.step symbol) text := by
  have hall : ∀ c ∈ characters, c.1.length = 3 := by decide
  obtain ⟨entry, hfind, -⟩ := Option.map_eq_some_iff.mp h
  have hlength := hall entry (List.mem_of_find?_eq_some hfind)
  have hentry : entry.1 = character := by simpa using List.find?_some hfind
  rw [hentry] at hlength
  obtain ⟨a, b, c, rfl⟩ := List.length_eq_three.mp hlength
  show (meaning [a, b, c]).bind _ = _
  rw [h]
  rfl

set_option maxRecDepth 10000 in
/-- No character begins with an ASCII octet. -/
theorem meaning_eq_none {a b c : UInt8} (h : a < 0x80) : meaning [a, b, c] = none := by
  have hall : ∀ entry ∈ characters, 0x80 ≤ entry.1.headD 0 := by decide
  unfold meaning
  rw [Option.map_eq_none_iff, List.find?_eq_none]
  intro entry hentry heq
  have hle := hall entry hentry
  rw [of_decide_eq_true heq] at hle
  exact absurd h (not_lt.mpr hle)

/-- A text that begins with ASCII is no numeral. -/
theorem value_eq_none {a : UInt8} (h : a < 0x80) (text : Bytes) : value (a :: text) = none := by
  unfold value
  match text with
  | [] => rfl
  | [_] => rfl
  | b :: c :: text =>
    show (meaning [a, b, c]).bind _ = _
    rw [meaning_eq_none h]
    rfl

end KanjiNumeral

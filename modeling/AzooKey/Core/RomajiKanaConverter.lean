import AzooKey.Core.CustomRomajiLoader

/-!
# Romaji to kana

`core/src/RomajiKanaConverter.cpp`: a converter holds the romaji bytes that
are not converted yet, and feeding it a key returns the text that key
settles. With a custom table the conversion is the table's longest match
(`convertCustomPending`); without one it is the built-in table together with
the rules for doubled consonants, `n` and `nn`.

Both loops consume the pending bytes from the front, so both are recursions
on their number: a custom rule consumes at least one byte because the table
says so, a built-in match consumes its whole key.
-/

namespace AzooKey.Core

/-- `kRomajiMap`. -/
def romajiMap : List (Bytes × Bytes) :=
  romajiText.map (fun e => (utf8 e.1, utf8 e.2))
where
  romajiText : List (String × String) :=
    [("a", "あ"), ("xa", "ぁ"), ("la", "ぁ"), ("i", "い"), ("xi", "ぃ"), ("li", "ぃ"),
      ("u", "う"), ("wu", "う"), ("vu", "ゔ"), ("xu", "ぅ"), ("lu", "ぅ"), ("e", "え"),
      ("xe", "ぇ"), ("le", "ぇ"), ("o", "お"), ("xo", "ぉ"), ("lo", "ぉ"), ("ka", "か"),
      ("ca", "か"), ("ga", "が"), ("xka", "ゕ"), ("lka", "ゕ"), ("ki", "き"), ("gi", "ぎ"),
      ("ku", "く"), ("cu", "く"), ("gu", "ぐ"), ("ke", "け"), ("ge", "げ"), ("xke", "ゖ"),
      ("lke", "ゖ"), ("ko", "こ"), ("co", "こ"), ("go", "ご"), ("sa", "さ"), ("za", "ざ"),
      ("si", "し"), ("ci", "し"), ("shi", "し"), ("zi", "じ"), ("ji", "じ"), ("su", "す"),
      ("zu", "ず"), ("se", "せ"), ("ce", "せ"), ("ze", "ぜ"), ("so", "そ"), ("zo", "ぞ"),
      ("ta", "た"), ("da", "だ"), ("ti", "ち"), ("chi", "ち"), ("di", "ぢ"), ("tu", "つ"),
      ("tsu", "つ"), ("xtu", "っ"), ("ltu", "っ"), ("xtsu", "っ"), ("ltsu", "っ"), ("du", "づ"),
      ("te", "て"), ("de", "で"), ("to", "と"), ("do", "ど"), ("na", "な"), ("ni", "に"),
      ("nu", "ぬ"), ("ne", "ね"), ("no", "の"), ("ha", "は"), ("ba", "ば"), ("pa", "ぱ"),
      ("hi", "ひ"), ("bi", "び"), ("pi", "ぴ"), ("hu", "ふ"), ("fu", "ふ"), ("bu", "ぶ"),
      ("pu", "ぷ"), ("he", "へ"), ("be", "べ"), ("pe", "ぺ"), ("ho", "ほ"), ("bo", "ぼ"),
      ("po", "ぽ"), ("ma", "ま"), ("mi", "み"), ("mu", "む"), ("me", "め"), ("mo", "も"),
      ("ya", "や"), ("xya", "ゃ"), ("lya", "ゃ"), ("yu", "ゆ"), ("xyu", "ゅ"), ("lyu", "ゅ"),
      ("yo", "よ"), ("xyo", "ょ"), ("lyo", "ょ"), ("ra", "ら"), ("ri", "り"), ("ru", "る"),
      ("re", "れ"), ("ro", "ろ"), ("wa", "わ"), ("xwa", "ゎ"), ("lwa", "ゎ"), ("wyi", "ゐ"),
      ("wye", "ゑ"), ("wo", "を"), ("ye", "いぇ"), ("va", "ゔぁ"), ("vi", "ゔぃ"),
      ("ve", "ゔぇ"), ("vo", "ゔぉ"), ("kya", "きゃ"), ("kyu", "きゅ"), ("kye", "きぇ"),
      ("kyo", "きょ"), ("gya", "ぎゃ"), ("gyu", "ぎゅ"), ("gye", "ぎぇ"), ("gyo", "ぎょ"),
      ("qa", "くぁ"), ("kwa", "くぁ"), ("qwa", "くぁ"), ("qi", "くぃ"), ("kwi", "くぃ"),
      ("qwi", "くぃ"), ("qu", "くぅ"), ("kwu", "くぅ"), ("qwu", "くぅ"), ("qe", "くぇ"),
      ("kwe", "くぇ"), ("qwe", "くぇ"), ("qo", "くぉ"), ("kwo", "くぉ"), ("qwo", "くぉ"),
      ("gwa", "ぐぁ"), ("gwi", "ぐぃ"), ("gwu", "ぐぅ"), ("gwe", "ぐぇ"), ("gwo", "ぐぉ"),
      ("sha", "しゃ"), ("sya", "しゃ"), ("shu", "しゅ"), ("syu", "しゅ"), ("she", "しぇ"),
      ("sye", "しぇ"), ("sho", "しょ"), ("syo", "しょ"), ("ja", "じゃ"), ("zya", "じゃ"),
      ("jya", "じゃ"), ("jyi", "じぃ"), ("ju", "じゅ"), ("zyu", "じゅ"), ("jyu", "じゅ"),
      ("je", "じぇ"), ("zye", "じぇ"), ("jye", "じぇ"), ("jo", "じょ"), ("zyo", "じょ"),
      ("jyo", "じょ"), ("swa", "すぁ"), ("swi", "すぃ"), ("swu", "すぅ"), ("swe", "すぇ"),
      ("swo", "すぉ"), ("cha", "ちゃ"), ("cya", "ちゃ"), ("tya", "ちゃ"), ("tyi", "ちぃ"),
      ("cyi", "ちぃ"), ("chu", "ちゅ"), ("cyu", "ちゅ"), ("tyu", "ちゅ"), ("che", "ちぇ"),
      ("cye", "ちぇ"), ("tye", "ちぇ"), ("cho", "ちょ"), ("cyo", "ちょ"), ("tyo", "ちょ"),
      ("tsa", "つぁ"), ("tsi", "つぃ"), ("tse", "つぇ"), ("tso", "つぉ"), ("tha", "てゃ"),
      ("thi", "てぃ"), ("thu", "てゅ"), ("the", "てぇ"), ("tho", "てょ"), ("twa", "とぁ"),
      ("twi", "とぃ"), ("twu", "とぅ"), ("twe", "とぇ"), ("two", "とぉ"), ("dya", "ぢゃ"),
      ("dyi", "ぢぃ"), ("dyu", "ぢゅ"), ("dye", "ぢぇ"), ("dyo", "ぢょ"), ("dha", "でゃ"),
      ("dhi", "でぃ"), ("dhu", "でゅ"), ("dhe", "でぇ"), ("dho", "でょ"), ("dwa", "どぁ"),
      ("dwi", "どぃ"), ("dwu", "どぅ"), ("dwe", "どぇ"), ("dwo", "どぉ"), ("nya", "にゃ"),
      ("nyi", "にぃ"), ("nyu", "にゅ"), ("nye", "にぇ"), ("nyo", "にょ"), ("hya", "ひゃ"),
      ("hyi", "ひぃ"), ("hyu", "ひゅ"), ("hye", "ひぇ"), ("hyo", "ひょ"), ("bya", "びゃ"),
      ("byi", "びぃ"), ("byu", "びゅ"), ("bye", "びぇ"), ("byo", "びょ"), ("pya", "ぴゃ"),
      ("pyi", "ぴぃ"), ("pyu", "ぴゅ"), ("pye", "ぴぇ"), ("pyo", "ぴょ"), ("fa", "ふぁ"),
      ("hwa", "ふぁ"), ("fwa", "ふぁ"), ("fi", "ふぃ"), ("hwi", "ふぃ"), ("fwi", "ふぃ"),
      ("fwu", "ふぅ"), ("fe", "ふぇ"), ("hwe", "ふぇ"), ("fwe", "ふぇ"), ("fo", "ふぉ"),
      ("hwo", "ふぉ"), ("fwo", "ふぉ"), ("fya", "ふゃ"), ("fyu", "ふゅ"), ("fyo", "ふょ"),
      ("mya", "みゃ"), ("myi", "みぃ"), ("myu", "みゅ"), ("mye", "みぇ"), ("myo", "みょ"),
      ("rya", "りゃ"), ("ryi", "りぃ"), ("ryu", "りゅ"), ("rye", "りぇ"), ("ryo", "りょ"),
      ("wi", "うぃ"), ("we", "うぇ"), ("wha", "うぁ"), ("whi", "うぃ"), ("whu", "う"),
      ("whe", "うぇ"), ("who", "うぉ"), ("xn", "ん"), ("zh", "←"), ("zj", "↓"), ("zk", "↑"),
      ("zl", "→")]

/-- `kMaxRomajiKeyLength`. -/
def maxRomajiKeyLength : ℕ := 4

/-- The search both conversion loops make: the longest prefix of `pending`, of
at most `length` bytes, that `find` knows. -/
def longestMatch {α : Type} (find : Bytes → Option α) (pending : Bytes) : ℕ → Option (α × ℕ)
  | 0 => none
  | length + 1 =>
    match find (pending.take (length + 1)) with
    | some value => some (value, length + 1)
    | none => longestMatch find pending length

/-- `kRomajiMap.find`. -/
def romajiFind (chunk : Bytes) : Option Bytes := AssocList.find? romajiMap chunk

/-- `IsBuiltinRomajiPrefix`: a longer built-in key still starts with
`pending`. -/
def isBuiltinRomajiPrefix (pending : Bytes) : Bool :=
  romajiMap.any (fun e => pending.length < e.1.length && pending.isPrefixOf e.1)

/-- `std::isalpha` in the "C" locale. -/
def isAlpha (c : UInt8) : Bool := (0x41 ≤ c && c ≤ 0x5a) || (0x61 ≤ c && c ≤ 0x7a)

/-- `IsConsonant`. -/
def isConsonant (c : UInt8) : Bool := isAlpha c && !(utf8 "aeiou").contains c

/-- `IsVowelOrY`. -/
def isVowelOrY (c : UInt8) : Bool := (utf8 "aeiouy").contains c

/-- What is found is a match, of at least one byte. -/
theorem longestMatch_eq_some {α : Type} {find : Bytes → Option α} {pending : Bytes}
    {n : ℕ} {value : α} {length : ℕ} (h : longestMatch find pending n = some (value, length)) :
    1 ≤ length ∧ length ≤ n ∧ find (pending.take length) = some value := by
  induction n with
  | zero => exact absurd h (by simp [longestMatch])
  | succ n ih =>
    unfold longestMatch at h
    split at h
    · rename_i hfind
      obtain ⟨rfl, rfl⟩ := Prod.mk.inj (Option.some.inj h)
      exact ⟨Nat.succ_pos n, le_rfl, hfind⟩
    · obtain ⟨h₁, h₂, h₃⟩ := ih h
      exact ⟨h₁, Nat.le_succ_of_le h₂, h₃⟩

/-- **`ConvertPending` with the built-in table**: what is printed, and what
stays pending. -/
def convertBuiltinPending (forceFlush : Bool) (pending : Bytes) : Bytes × Bytes :=
  match _hp : pending with
  | [] => ([], [])
  | front :: tail =>
    match _hm : longestMatch romajiFind pending (min maxRomajiKeyLength pending.length) with
    | some (kana, length) =>
      let rest := convertBuiltinPending forceFlush (pending.drop length)
      (kana ++ rest.1, rest.2)
    | none =>
      if forceFlush && pending = utf8 "nn" then (utf8 "ん", [])
      else if forceFlush && pending = utf8 "n" then (utf8 "ん", [])
      else if forceFlush || (3 ≤ pending.length && !isBuiltinRomajiPrefix pending) then
        let rest := convertBuiltinPending forceFlush tail
        (front :: rest.1, rest.2)
      else ([], pending)
termination_by pending.length
decreasing_by
  · have hmatch := longestMatch_eq_some _hm
    have hlen : pending.length = tail.length + 1 := congrArg List.length _hp
    rw [List.length_drop, List.length_cons]
    omega
  · exact Nat.lt_succ_self _

/-- Whether a longer rule may still match: the first rule after `pending`
starts with it. -/
def longerPrefix (table : CustomRomajiTable) (pending : Bytes) : Bool :=
  match table.rules.upperBound pending with
  | none => false
  | some (key, _) => pending.isPrefixOf key

/-- The longest rule whose key the pending bytes start with. -/
def bestRule (table : CustomRomajiTable) (pending : Bytes) : Option CustomRomajiRule :=
  (longestMatch table.rules.find? pending (min pending.length 8)).map Prod.fst

/-- A best rule consumes between one byte and all of them. -/
theorem bestRule_consume {table : CustomRomajiTable} {pending : Bytes} {rule : CustomRomajiRule}
    (h : bestRule table pending = some rule) :
    1 ≤ rule.consume ∧ rule.consume ≤ pending.length := by
  obtain ⟨⟨value, length⟩, hm, rfl⟩ := Option.map_eq_some_iff.mp h
  obtain ⟨-, hle, hfind⟩ := longestMatch_eq_some hm
  have hok := (CustomRomajiTable.ruleOk_of_find? hfind).1
  rw [List.length_take] at hok
  exact ⟨hok.1, hok.2.trans (min_le_right _ _)⟩

/-- **`ConvertCustomPending`**: what is printed, and what stays pending. -/
def convertCustomPending (table : CustomRomajiTable) (forceFlush : Bool) (pending : Bytes) :
    Bytes × Bytes :=
  match _hp : pending with
  | [] => ([], [])
  | front :: tail =>
    if !forceFlush && longerPrefix table pending then ([], pending)
    else
      match _hb : bestRule table pending with
      | some rule =>
        let rest := convertCustomPending table forceFlush (pending.drop rule.consume)
        (rule.output ++ rest.1, rest.2)
      | none =>
        let rest := convertCustomPending table forceFlush tail
        (front :: rest.1, rest.2)
termination_by pending.length
decreasing_by
  · have hconsume := bestRule_consume _hb
    have hlen : pending.length = tail.length + 1 := congrArg List.length _hp
    rw [List.length_drop, List.length_cons]
    omega
  · exact Nat.lt_succ_self _

/-- `RomajiKanaConverter`. The last two fields serve `AmbiguousReadings`
alone: bit `i` of the mask says that the `i`-th ambiguous `nn` before a vowel
or `y` consumes both. -/
structure RomajiKanaConverter where
  pending : Bytes := []
  customTable : Option CustomRomajiTable := none
  consumeDoubleNMask : ℕ := 0
  ambiguousDoubleNSeen : ℕ := 0

namespace RomajiKanaConverter

/-- `ConvertPending`: the converter afterwards, and what is printed. -/
def convertPending (c : RomajiKanaConverter) (forceFlush : Bool) : RomajiKanaConverter × Bytes :=
  let r := match c.customTable with
    | some table => convertCustomPending table forceFlush c.pending
    | none => convertBuiltinPending forceFlush c.pending
  ({ c with pending := r.2 }, r.1)

/-- `SeparatesNWithApostrophe`. -/
def separatesNWithApostrophe (c : RomajiKanaConverter) : Bool :=
  c.customTable.isNone && (c.pending = utf8 "n" || c.pending = utf8 "nn")

/-- `Flush`. -/
def flush (c : RomajiKanaConverter) : RomajiKanaConverter × Bytes := c.convertPending true

/-- `Reset`. -/
def reset (c : RomajiKanaConverter) : RomajiKanaConverter := { c with pending := [] }

/-- `HasPending`. -/
def hasPending (c : RomajiKanaConverter) : Bool := !c.pending.isEmpty

/-- `Feed` without a custom table. -/
def feedBuiltin (c : RomajiKanaConverter) (ascii : UInt8) : RomajiKanaConverter × Bytes :=
  let lower := toLower ascii
  if ascii = 0x2d then
    let r := c.convertPending true
    (r.1, r.2 ++ utf8 "ー")
  else if ascii = 0x27 && c.separatesNWithApostrophe then
    ({ c with pending := [] }, utf8 "ん")
  else if !isAlpha lower then
    let r := c.convertPending true
    (r.1, r.2 ++ [ascii])
  else if c.pending = utf8 "nn" then
    let position := c.ambiguousDoubleNSeen
    let consume := position < 32 && (c.consumeDoubleNMask >>> position) &&& 1 != 0
    let c' : RomajiKanaConverter :=
      if isVowelOrY lower then
        { c with
          pending := (if consume then [] else [0x6e]) ++ [lower]
          ambiguousDoubleNSeen := position + 1 }
      else { c with pending := [lower] }
    let r := c'.convertPending false
    (r.1, utf8 "ん" ++ r.2)
  else if c.pending = utf8 "n" && !isVowelOrY lower && lower != 0x6e then
    let r := ({ c with pending := [lower] } : RomajiKanaConverter).convertPending false
    (r.1, utf8 "ん" ++ r.2)
  else if c.pending = [lower] && isConsonant lower && lower != 0x6e then
    (c, utf8 "っ")
  else ({ c with pending := c.pending ++ [lower] } : RomajiKanaConverter).convertPending false

/-- **`Feed`**: the converter afterwards, and what the key settles. -/
def feed (c : RomajiKanaConverter) (ascii : UInt8) : RomajiKanaConverter × Bytes :=
  match c.customTable with
  | some _ =>
    ({ c with pending := c.pending ++ [toLower ascii] } : RomajiKanaConverter).convertPending false
  | none => c.feedBuiltin ascii

/-- Whether some rule of the table starts with the text. -/
def startsRule (table : CustomRomajiTable) (candidate : Bytes) : Bool :=
  match table.rules.lowerBound candidate with
  | none => false
  | some (key, _) => candidate.isPrefixOf key

/-- `CanContinueCustomWith`: the key continues a rule, or begins one after the
pending bytes flush. -/
def canContinueCustomWith (c : RomajiKanaConverter) (ascii : UInt8) : Bool :=
  match c.customTable with
  | none => false
  | some table =>
    if 0x7f < ascii then false
    else startsRule table (c.pending ++ [toLower ascii])
      || (c.hasPending && startsRule table [toLower ascii])

/-- `PreviewPending` of the given pending bytes. -/
def previewOf (customTable : Option CustomRomajiTable) (pending : Bytes) : Bytes :=
  if customTable.isNone && (pending = utf8 "n" || pending = utf8 "nn") then utf8 "ん"
  else pending

/-- `PreviewPending`. -/
def previewPending (c : RomajiKanaConverter) : Bytes := previewOf c.customTable c.pending

/-- The loop of `PopPendingPreview`: bytes are dropped from the end until the
preview changes. -/
def popWhilePreview (customTable : Option CustomRomajiTable) (previous : Bytes)
    (pending : Bytes) : Bytes :=
  if _h : pending.dropLast ≠ [] ∧ previewOf customTable pending.dropLast = previous then
    popWhilePreview customTable previous pending.dropLast
  else pending.dropLast
termination_by pending.length
decreasing_by
  have hne : pending ≠ [] := by rintro rfl; exact _h.1 rfl
  have := List.length_pos_iff.mpr hne
  rw [List.length_dropLast]
  omega

/-- `PopPendingPreview`. -/
def popPendingPreview (c : RomajiKanaConverter) : RomajiKanaConverter :=
  if c.pending = [] then c
  else { c with pending := popWhilePreview c.customTable c.previewPending c.pending }

/-- The converter after a text has been fed, and all that is printed. -/
def feedAll (c : RomajiKanaConverter) : Bytes → RomajiKanaConverter × Bytes
  | [] => (c, [])
  | raw :: ascii =>
    let r := (c.feed raw).1.feedAll ascii
    (r.1, (c.feed raw).2 ++ r.2)

/-- **`ConvertForCommit`**: a whole text fed byte by byte, then flushed. -/
def convertForCommit (ascii : Bytes) (table : Option CustomRomajiTable) : Bytes :=
  let r := ({ customTable := table } : RomajiKanaConverter).feedAll ascii
  r.2 ++ r.1.flush.2

/-- **Nothing is converted to nothing.** -/
theorem convertForCommit_nil (table : Option CustomRomajiTable) : convertForCommit [] table = [] := by
  unfold convertForCommit feedAll flush convertPending
  cases table with
  | none =>
    dsimp only
    rw [convertBuiltinPending]
    rfl
  | some table =>
    dsimp only
    rw [convertCustomPending]
    rfl

/-- A text fed in two parts. -/
theorem feedAll_append (c : RomajiKanaConverter) (s t : Bytes) :
    c.feedAll (s ++ t)
      = (((c.feedAll s).1.feedAll t).1, (c.feedAll s).2 ++ ((c.feedAll s).1.feedAll t).2) := by
  induction s generalizing c with
  | nil => rfl
  | cons b s ih =>
    rw [List.cons_append, feedAll, ih, feedAll]
    simp only [List.append_assoc]

end RomajiKanaConverter

/-! ## Flushing the built-in table -/

set_option maxRecDepth 10000 in
/-- Every built-in key prints something. -/
theorem romajiFind_ne_nil {chunk kana : Bytes} (h : romajiFind chunk = some kana) : kana ≠ [] := by
  have hall : ∀ e ∈ romajiMap, e.2 ≠ [] := by decide
  exact hall _ (AssocList.mem_of_find?_eq_some h)

/-- **A forced conversion with the built-in table** leaves nothing pending, and
prints something unless nothing was pending. -/
theorem convertBuiltinPending_true (pending : Bytes) :
    (convertBuiltinPending true pending).2 = []
      ∧ (pending ≠ [] → (convertBuiltinPending true pending).1 ≠ []) := by
  induction pending using convertBuiltinPending.induct true with
  | case1 =>
    rw [convertBuiltinPending]
    exact ⟨rfl, fun h => absurd rfl h⟩
  | case2 front tail kana length hmatch ih =>
    rw [convertBuiltinPending]
    split
    · rename_i kana' length' hmatch'
      obtain ⟨rfl, rfl⟩ := Prod.mk.inj (Option.some.inj (hmatch.symm.trans hmatch'))
      refine ⟨ih.1, fun _ h => ?_⟩
      exact romajiFind_ne_nil (longestMatch_eq_some hmatch).2.2 (List.append_eq_nil_iff.mp h).1
    · rename_i hmatch'
      exact absurd (hmatch.symm.trans hmatch') (by simp)
  | case3 front tail hmatch hnn =>
    rw [convertBuiltinPending]
    split
    · rename_i hmatch'
      exact absurd (hmatch.symm.trans hmatch') (by simp)
    · rw [if_pos hnn]
      exact ⟨rfl, fun _ => by decide⟩
  | case4 front tail hmatch hnn hn =>
    rw [convertBuiltinPending]
    split
    · rename_i hmatch'
      exact absurd (hmatch.symm.trans hmatch') (by simp)
    · rw [if_neg hnn, if_pos hn]
      exact ⟨rfl, fun _ => by decide⟩
  | case5 front tail hmatch hnn hn hforce ih =>
    rw [convertBuiltinPending]
    split
    · rename_i hmatch'
      exact absurd (hmatch.symm.trans hmatch') (by simp)
    · rw [if_neg hnn, if_neg hn, if_pos hforce]
      exact ⟨ih.1, fun _ => List.cons_ne_nil _ _⟩
  | case6 front tail hmatch hnn hn hforce => exact absurd hforce (by simp)

end AzooKey.Core

import AzooKey.Core.AmbiguousReadings

/-!
# Spelling kana in romaji

`RomanizeRun` of `core/src/CharacterFormCycle.cpp`: a run of hiragana is spelled in
Hepburn by `Romanize`, and where that has no spelling, kana by kana. A spelling is meant to
type the kana it was made from.

Kana by kana it does so except behind ん: that is spelled `n` without an apostrophe, and
what is typed next may join it (`romanizeRun_typesBack_iff`).
-/

namespace AzooKey.Core

open RomajiKanaConverter

/-- The code points of a text of the tables. -/
def codepointsOf (text : String) : List ℕ := text.toList.map Char.toNat

/-- `kDigraphs`. -/
def digraphs : List (List ℕ × Bytes) :=
  digraphText.map (fun e => (codepointsOf e.1, utf8 e.2))
where
  digraphText : List (String × String) :=
    [("きゃ", "kya"), ("きゅ", "kyu"), ("きょ", "kyo"), ("しゃ", "sha"), ("しゅ", "shu"),
      ("しょ", "sho"), ("ちゃ", "cha"), ("ちゅ", "chu"), ("ちょ", "cho"), ("にゃ", "nya"),
      ("にゅ", "nyu"), ("にょ", "nyo"), ("ひゃ", "hya"), ("ひゅ", "hyu"), ("ひょ", "hyo"),
      ("みゃ", "mya"), ("みゅ", "myu"), ("みょ", "myo"), ("りゃ", "rya"), ("りゅ", "ryu"),
      ("りょ", "ryo"), ("ぎゃ", "gya"), ("ぎゅ", "gyu"), ("ぎょ", "gyo"), ("じゃ", "ja"),
      ("じゅ", "ju"), ("じぇ", "je"), ("じょ", "jo"), ("ぢゃ", "dya"), ("ぢゅ", "dyu"),
      ("ぢょ", "dyo"), ("びゃ", "bya"), ("びゅ", "byu"), ("びょ", "byo"), ("ぴゃ", "pya"),
      ("ぴゅ", "pyu"), ("ぴょ", "pyo")]

/-- `kScalars`. -/
def scalars : List (ℕ × Bytes) :=
  scalarText.map (fun e => (e.1.toNat, utf8 e.2))
where
  scalarText : List (Char × String) :=
    [('ぁ', "a"), ('あ', "a"), ('ぃ', "i"), ('い', "i"), ('ぅ', "u"), ('う', "u"),
      ('ぇ', "e"), ('え', "e"), ('ぉ', "o"), ('お', "o"), ('か', "ka"), ('き', "ki"),
      ('く', "ku"), ('け', "ke"), ('こ', "ko"), ('さ', "sa"), ('し', "shi"), ('す', "su"),
      ('せ', "se"), ('そ', "so"), ('た', "ta"), ('ち', "chi"), ('つ', "tsu"), ('て', "te"),
      ('と', "to"), ('な', "na"), ('に', "ni"), ('ぬ', "nu"), ('ね', "ne"), ('の', "no"),
      ('は', "ha"), ('ひ', "hi"), ('ふ', "fu"), ('へ', "he"), ('ほ', "ho"), ('ま', "ma"),
      ('み', "mi"), ('む', "mu"), ('め', "me"), ('も', "mo"), ('ゃ', "ya"), ('や', "ya"),
      ('ゅ', "yu"), ('ゆ', "yu"), ('ょ', "yo"), ('よ', "yo"), ('ら', "ra"), ('り', "ri"),
      ('る', "ru"), ('れ', "re"), ('ろ', "ro"), ('ゎ', "wa"), ('わ', "wa"), ('を', "wo"),
      ('ん', "n"), ('が', "ga"), ('ぎ', "gi"), ('ぐ', "gu"), ('げ', "ge"), ('ご', "go"),
      ('ざ', "za"), ('じ', "ji"), ('ず', "zu"), ('ぜ', "ze"), ('ぞ', "zo"), ('だ', "da"),
      ('ぢ', "di"), ('づ', "du"), ('で', "de"), ('ど', "do"), ('ば', "ba"), ('び', "bi"),
      ('ぶ', "bu"), ('べ', "be"), ('ぼ', "bo"), ('ぱ', "pa"), ('ぴ', "pi"), ('ぷ', "pu"),
      ('ぺ', "pe"), ('ぽ', "po"), ('ゔ', "vu")]

/-- `IsSmallKana`. -/
def isSmallKana (value : ℕ) : Bool := (codepointsOf "ぁぃぅぇぉゃゅょゎ").contains value

/-- `ScalarRomaji`. -/
def scalarRomaji (value : ℕ) : Bytes := (AssocList.find? scalars value).getD []

/-- The last part of `RomanizeUnit`: one kana alone. -/
def romanizeScalar (value : ℕ) : Bytes × ℕ :=
  match AssocList.find? scalars value with
  | some romaji => (romaji, 1)
  | none => ([], 0)

/-- `RomanizeUnit` at the front of what is left: the spelling, and how many kana it is for. -/
def romanizeUnit : List ℕ → Bytes × ℕ
  | [] => ([], 0)
  | [value] => romanizeScalar value
  | value :: next :: _ =>
    match AssocList.find? digraphs [value, next] with
    | some romaji => (romaji, 2)
    | none => if isSmallKana next then ([], 0) else romanizeScalar value

/-- A vowel at the front of a spelling. -/
def startsVowel (romaji : Bytes) : Bool := romaji.head?.any (utf8 "aeiou").contains

/-- The loop of `Romanize`. -/
def romanizeFrom (result : Bytes) : List ℕ → Bytes
  | [] => result
  | value :: tail =>
    if value = 'ー'.toNat then
      if result = [] then [] else romanizeFrom (result ++ utf8 "-") tail
    else if value = 'っ'.toNat then
      if tail.head?.all isSmallKana then []
      else
        match romanizeUnit tail with
        | (_, 0) | ([], _) => []
        | (front :: romaji, _) =>
          if startsVowel (front :: romaji) then []
          else romanizeFrom (result ++ [if front = 0x63 then 0x74 else front]) tail
    else
      match romanizeUnit (value :: tail) with
      | (_, 0) => []
      | (romaji, length + 1) =>
        let next := romanizeUnit tail
        let separated : Bool := value = 'ん'.toNat && next.2 ≠ 0
          && (startsVowel next.1 || next.1.head? = some 0x79)
        romanizeFrom (result ++ romaji ++ if separated then utf8 "'" else []) (tail.drop length)
termination_by input => input.length
decreasing_by
  · exact Nat.lt_succ_self _
  · exact Nat.lt_succ_self _
  · rw [List.length_drop, List.length_cons]
    exact Nat.lt_succ_of_le (Nat.sub_le _ _)

/-- **`Romanize`**: nothing where there is no spelling. -/
def romanize (input : List ℕ) : Bytes := romanizeFrom [] input

/-- One kana of the loop of `RomanizeRun`. -/
def spellKana (value : ℕ) : Bytes :=
  if value = 'ー'.toNat then utf8 "-"
  else if value = 'っ'.toNat then utf8 "xtu"
  else if scalarRomaji value ≠ [] then
    (if isSmallKana value then utf8 "x" else []) ++ scalarRomaji value
  else encodeUtf8 value

/-- **`RomanizeRun`.** -/
def romanizeRun (run : List ℕ) : Bytes :=
  let spelled := romanize run
  if spelled ≠ [] then spelled else run.flatMap spellKana

/-- The kana of the table, っ and ー. -/
def typedKana : List ℕ := 'っ'.toNat :: 'ー'.toNat :: scalars.map Prod.fst

/-- The octets of a run. -/
def runText (run : List ℕ) : Bytes := run.flatMap encodeUtf8

/-! ## Typing -/

/-- What keys leave pending with the built-in table, and what they print. -/
def typing (pending keys : Bytes) : Bytes × Bytes :=
  let r := (converterAt 0 0 pending).feedAll keys
  (r.1.pending, r.2)

/-- A key does the same after any number of ambiguous positions. -/
theorem feed_seen (seen : ℕ) (pending : Bytes) (raw : UInt8) :
    ∃ seen', (converterAt 0 seen pending).feed raw
      = (converterAt 0 seen' ((converterAt 0 0 pending).feed raw).1.pending,
        ((converterAt 0 0 pending).feed raw).2) := by
  by_cases h : pending = utf8 "nn" ∧ isVowelOrY (toLower raw) = true
  · obtain ⟨rfl, hkey⟩ := h
    -- without a mask no position is turned
    have hafter : ∀ position, afterDoubleN 0 position (toLower raw) = [0x6e, toLower raw] := by
      intro position
      have hconsumes : consumes 0 position = false := by
        unfold consumes
        rw [Nat.zero_shiftRight]
        exact Bool.and_false _
      unfold afterDoubleN
      rw [hconsumes]
      rfl
    refine ⟨seen + 1, ?_⟩
    rw [feed_position hkey, feed_position hkey, hafter, hafter]
    rfl
  · exact ⟨seen, feed_other h 0 seen⟩

/-- **Keys do the same after any number of ambiguous positions.** -/
theorem feedAll_seen (keys : Bytes) (seen : ℕ) (pending : Bytes) :
    ∃ seen', (converterAt 0 seen pending).feedAll keys
      = (converterAt 0 seen' (typing pending keys).1, (typing pending keys).2) := by
  induction keys generalizing seen pending with
  | nil => exact ⟨seen, rfl⟩
  | cons raw keys ih =>
    obtain ⟨seen₁, hfeed⟩ := feed_seen seen pending raw
    obtain ⟨seen₀, hfeed₀⟩ := feed_seen 0 pending raw
    obtain ⟨after, hafter⟩ := ih seen₁ ((converterAt 0 0 pending).feed raw).1.pending
    obtain ⟨after₀, hafter₀⟩ := ih seen₀ ((converterAt 0 0 pending).feed raw).1.pending
    refine ⟨after, ?_⟩
    unfold typing
    rw [feedAll, feedAll, hfeed, hafter, hfeed₀, hafter₀]
    rfl

/-- What is printed of the rest of a text. -/
theorem rest_seen (seen : ℕ) (pending ascii : Bytes) : rest 0 seen pending ascii = rest 0 0 pending ascii := by
  obtain ⟨after, hafter⟩ := feedAll_seen ascii seen pending
  obtain ⟨after₀, hafter₀⟩ := feedAll_seen ascii 0 pending
  unfold rest
  rw [hafter, hafter₀]
  rfl

/-- Keys, then the rest. -/
theorem rest_append {pending keys pending' out : Bytes} (h : typing pending keys = (pending', out))
    (more : Bytes) : rest 0 0 pending (keys ++ more) = out ++ rest 0 0 pending' more := by
  obtain ⟨after, hafter⟩ := feedAll_seen keys 0 pending
  rw [h] at hafter
  rw [← rest_seen after pending' more]
  unfold rest
  rw [feedAll_append, hafter]
  exact List.append_assoc _ _ _

/-! ## One kana -/

/-- The kana whose spelling joins an `n` typed before it. -/
def joiningKana : List ℕ := codepointsOf "あいうえおやゆよん"

/-- A text that does not begin with ん. -/
def BeginsOther (text : Bytes) : Prop := 3 ≤ text.length ∧ text.take 3 ≠ utf8 "ん"

instance (text : Bytes) : Decidable (BeginsOther text) :=
  inferInstanceAs (Decidable (_ ∧ _))

/-- The octets of ん. -/
theorem encodeUtf8_n : encodeUtf8 'ん'.toNat = utf8 "ん" := by decide

/-- One key, then the rest. -/
theorem typing_cons (pending : Bytes) (raw : UInt8) (keys : Bytes) :
    typing pending (raw :: keys)
      = ((typing ((converterAt 0 0 pending).feed raw).1.pending keys).1,
        ((converterAt 0 0 pending).feed raw).2
          ++ (typing ((converterAt 0 0 pending).feed raw).1.pending keys).2) := by
  obtain ⟨seen, hfeed⟩ := feed_seen 0 pending raw
  obtain ⟨after, hafter⟩ := feedAll_seen keys seen ((converterAt 0 0 pending).feed raw).1.pending
  show (((converterAt 0 0 pending).feedAll (raw :: keys)).1.pending,
    ((converterAt 0 0 pending).feedAll (raw :: keys)).2) = _
  rw [feedAll, hfeed, hafter]
  rfl

/-- A key that ends the syllable of what is pending. -/
def endsSyllable (raw : UInt8) : Bool :=
  raw = 0x2d || (isAlpha (toLower raw) && !isVowelOrY (toLower raw))

/-- **What is printed at the end**, and by the flush of a dash. -/
theorem flush_table :
    (convertBuiltinPending true (utf8 "nn") = (utf8 "ん", [])
      ∧ convertBuiltinPending true (utf8 "n") = (utf8 "ん", []))
    ∧ rest 0 0 [] [] = [] ∧ rest 0 0 (utf8 "n") [] = utf8 "ん"
    ∧ rest 0 0 (utf8 "nn") [] = utf8 "ん" := by
  decide +kernel

/-- Such a key, behind `nn` and behind `n`. -/
theorem feed_endsSyllable {raw : UInt8} (h : endsSyllable raw = true) :
    (converterAt 0 0 (utf8 "nn")).feed raw
        = (((converterAt 0 0 []).feed raw).1, utf8 "ん" ++ ((converterAt 0 0 []).feed raw).2)
      ∧ (toLower raw ≠ 0x6e → (converterAt 0 0 (utf8 "n")).feed raw
        = (((converterAt 0 0 []).feed raw).1, utf8 "ん" ++ ((converterAt 0 0 []).feed raw).2)) := by
  by_cases hdash : raw = 0x2d
  · subst hdash
    have hfeed : ∀ pending, (converterAt 0 0 pending).feed 0x2d
        = (converterAt 0 0 (convertBuiltinPending true pending).2,
          (convertBuiltinPending true pending).1 ++ utf8 "ー") := fun _ => rfl
    obtain ⟨hdouble, hsingle⟩ := flush_table.1
    rw [hfeed, hfeed, hfeed, hdouble, hsingle, convertBuiltinPending_nil]
    exact ⟨rfl, fun _ => rfl⟩
  have hletter : isAlpha (toLower raw) = true ∧ isVowelOrY (toLower raw) = false := by
    unfold endsSyllable at h
    rw [decide_eq_false hdash, Bool.false_or, Bool.and_eq_true, Bool.not_eq_true'] at h
    exact h
  obtain ⟨halpha, hvowel⟩ := hletter
  have hquote : raw ≠ 0x27 := by
    rintro rfl
    exact absurd halpha (by decide)
  have hempty : (converterAt 0 0 []).feed raw = (converterAt 0 0 [toLower raw]).convertPending false := by
    show feedBuiltin _ raw = _
    unfold feedBuiltin
    rw [if_neg hdash, if_neg (by simp [hquote]), if_neg (by simp [halpha]),
      if_neg (by simp [converterAt, utf8_n]), if_neg (by simp [converterAt, utf8_n]),
      if_neg (by simp [converterAt])]
    rfl
  rw [hempty]
  refine ⟨?_, fun hother => ?_⟩
  · show feedBuiltin _ raw = _
    unfold feedBuiltin
    have hpending : (converterAt 0 0 (utf8 "nn")).pending = utf8 "nn" := rfl
    rw [if_neg hdash, if_neg (by simp [hquote]), if_neg (by simp [halpha]), if_pos hpending]
    simp only [hvowel]
    rfl
  · show feedBuiltin _ raw = _
    unfold feedBuiltin
    rw [if_neg hdash, if_neg (by simp [hquote]), if_neg (by simp [halpha]),
      if_neg (by decide), if_pos (by simp [converterAt, hvowel, hother])]
    rfl

/-- A vowel or `y` behind `nn` does what it does behind `n`, and ん is printed before. -/
theorem feed_vowel_double {raw : UInt8} (h : isVowelOrY (toLower raw) = true) :
    ((converterAt 0 0 (utf8 "nn")).feed raw).1.pending = ((converterAt 0 0 (utf8 "n")).feed raw).1.pending
      ∧ ((converterAt 0 0 (utf8 "nn")).feed raw).2
        = utf8 "ん" ++ ((converterAt 0 0 (utf8 "n")).feed raw).2 := by
  obtain ⟨halpha, hn⟩ := (key_facts raw).2.1 h
  obtain ⟨-, hdash, hquote⟩ := (key_facts raw).1 halpha
  have hsingle : (converterAt 0 0 (utf8 "n")).feed raw
      = (converterAt 0 0 [0x6e, toLower raw]).convertPending false := by
    show feedBuiltin _ raw = _
    unfold feedBuiltin
    rw [if_neg hdash, if_neg (by simp [hquote]), if_neg (by simp [halpha]), if_neg (by decide),
      if_neg (by simp [h]), if_neg (by simp [converterAt, utf8_n, hn.symm])]
    rfl
  rw [feed_position h, hsingle]
  exact ⟨rfl, rfl⟩

/-- **Keys behind `nn` print ん**, and then what they print behind nothing, or behind `n`
where the first is a vowel or `y`. -/
theorem typing_double (raw : UInt8) (keys : Bytes) :
    (endsSyllable raw = true → typing (utf8 "nn") (raw :: keys)
        = ((typing [] (raw :: keys)).1, utf8 "ん" ++ (typing [] (raw :: keys)).2))
      ∧ (isVowelOrY (toLower raw) = true → typing (utf8 "nn") (raw :: keys)
        = ((typing (utf8 "n") (raw :: keys)).1, utf8 "ん" ++ (typing (utf8 "n") (raw :: keys)).2)) := by
  refine ⟨fun h => ?_, fun h => ?_⟩
  · rw [typing_cons, typing_cons, (feed_endsSyllable h).1, List.append_assoc]
  · obtain ⟨hpending, hprinted⟩ := feed_vowel_double h
    rw [typing_cons, typing_cons, hpending, hprinted, List.append_assoc]

/-- **Keys behind `n`** that do not join it print ん first. -/
theorem typing_single {raw : UInt8} (h : endsSyllable raw = true) (hn : toLower raw ≠ 0x6e)
    (keys : Bytes) : typing (utf8 "n") (raw :: keys)
      = ((typing [] (raw :: keys)).1, utf8 "ん" ++ (typing [] (raw :: keys)).2) := by
  rw [typing_cons, typing_cons, (feed_endsSyllable h).2 hn, List.append_assoc]

/-- **What the spellings type**, read off the tables: of ん, of a kana behind nothing, how the
spelling of a kana begins, and of the な row and of the kana that join an `n` behind `n`. -/
theorem typing_table :
    (typing [] (spellKana 'ん'.toNat) = (utf8 "n", [])
      ∧ typing (utf8 "n") (spellKana 'ん'.toNat) = (utf8 "nn", [])
      ∧ typing (utf8 "nn") (spellKana 'ん'.toNat) = (utf8 "n", utf8 "ん"))
    ∧ (∀ value ∈ typedKana, value = 'ん'.toNat
      ∨ typing [] (spellKana value) = ([], encodeUtf8 value) ∧ BeginsOther (encodeUtf8 value))
    ∧ (∀ value ∈ typedKana, value = 'ん'.toNat
      ∨ (∃ raw ∈ (spellKana value).head?, endsSyllable raw = true
        ∧ (toLower raw = 0x6e → value ∈ codepointsOf "なにぬねの") ∧ value ∉ joiningKana)
      ∨ ((∃ raw ∈ (spellKana value).head?, isVowelOrY (toLower raw) = true)
        ∧ value ∈ joiningKana.dropLast))
    ∧ (∀ value ∈ codepointsOf "なにぬねの",
      typing (utf8 "n") (spellKana value) = ([], utf8 "ん" ++ encodeUtf8 value))
    ∧ ∀ value ∈ joiningKana.dropLast,
      typing (utf8 "n") (spellKana value) = ([], (typing (utf8 "n") (spellKana value)).2)
        ∧ BeginsOther (typing (utf8 "n") (spellKana value)).2 := by
  decide +kernel

/-- `n` behind nothing, behind `n` and behind `nn`. -/
theorem typing_n : typing [] (spellKana 'ん'.toNat) = (utf8 "n", [])
    ∧ typing (utf8 "n") (spellKana 'ん'.toNat) = (utf8 "nn", [])
    ∧ typing (utf8 "nn") (spellKana 'ん'.toNat) = (utf8 "n", utf8 "ん") := typing_table.1

/-- Behind nothing a kana types itself. -/
theorem typing_alone : ∀ value ∈ typedKana, value = 'ん'.toNat
    ∨ typing [] (spellKana value) = ([], encodeUtf8 value) ∧ BeginsOther (encodeUtf8 value) :=
  typing_table.2.1

/-- How the spelling of a kana begins. -/
theorem spellKana_front : ∀ value ∈ typedKana, value = 'ん'.toNat
    ∨ (∃ raw ∈ (spellKana value).head?, endsSyllable raw = true
      ∧ (toLower raw = 0x6e → value ∈ codepointsOf "なにぬねの") ∧ value ∉ joiningKana)
    ∨ ((∃ raw ∈ (spellKana value).head?, isVowelOrY (toLower raw) = true)
      ∧ value ∈ joiningKana.dropLast) := typing_table.2.2.1

/-- Behind `n` a kana types ん and itself, or joins it. -/
theorem typing_behind {value : ℕ} (hvalue : value ∈ typedKana) (hn : value ≠ 'ん'.toNat) :
    (value ∉ joiningKana ∧ typing (utf8 "n") (spellKana value) = ([], utf8 "ん" ++ encodeUtf8 value))
      ∨ (value ∈ joiningKana
        ∧ ∃ other, typing (utf8 "n") (spellKana value) = ([], other) ∧ BeginsOther other) := by
  obtain ⟨raw, hraw, hends, hrow, hjoin⟩ | ⟨-, hjoin⟩ := (spellKana_front value hvalue).resolve_left hn
  · refine Or.inl ⟨hjoin, ?_⟩
    by_cases hfirst : toLower raw = 0x6e
    · exact typing_table.2.2.2.1 value (hrow hfirst)
    · obtain ⟨keys, hkeys⟩ := List.head?_eq_some_iff.mp hraw
      have halone := ((typing_alone value hvalue).resolve_left hn).1
      rw [hkeys] at halone ⊢
      rw [typing_single hends hfirst, halone]
  · exact Or.inr ⟨List.dropLast_subset _ hjoin, _, typing_table.2.2.2.2 value hjoin⟩

/-- Behind `nn` a kana types one ん, and something else. -/
theorem typing_behind_double {value : ℕ} (hvalue : value ∈ typedKana) (hn : value ≠ 'ん'.toNat) :
    ∃ other, typing (utf8 "nn") (spellKana value) = ([], utf8 "ん" ++ other) ∧ BeginsOther other := by
  obtain ⟨halone, hother⟩ := (typing_alone value hvalue).resolve_left hn
  obtain ⟨raw, hraw, hends, -⟩ | ⟨⟨raw, hraw, hvowel⟩, hjoin⟩ :=
    (spellKana_front value hvalue).resolve_left hn
  · obtain ⟨keys, hkeys⟩ := List.head?_eq_some_iff.mp hraw
    refine ⟨encodeUtf8 value, ?_, hother⟩
    rw [hkeys] at halone ⊢
    rw [(typing_double raw keys).1 hends, halone]
  · obtain ⟨keys, hkeys⟩ := List.head?_eq_some_iff.mp hraw
    obtain ⟨hjoined, hbegins⟩ := typing_table.2.2.2.2 value hjoin
    refine ⟨_, ?_, hbegins⟩
    rw [hkeys] at hjoined ⊢
    rw [(typing_double raw keys).2 hvowel, hjoined]

/-- What begins otherwise is no ん. -/
theorem BeginsOther.ne {text : Bytes} (h : BeginsOther text) (x y : Bytes) :
    text ++ x ≠ utf8 "ん" ++ y := by
  intro heq
  have hfront := congrArg (List.take 3) heq
  rw [List.take_append_of_le_length h.1] at hfront
  exact h.2 hfront

/-! ## A run -/

/-- Two kana that are typed apart from each other. -/
def TypedApart (value next : ℕ) : Prop := ¬ (value = 'ん'.toNat ∧ next ∈ joiningKana)

/-- A run with its first kana. -/
theorem runText_cons (value : ℕ) (run : List ℕ) :
    runText (value :: run) = encodeUtf8 value ++ runText run := rfl

/-- A run that begins with ん. -/
theorem runText_n (run : List ℕ) : runText ('ん'.toNat :: run) = utf8 "ん" ++ runText run := by
  rw [runText_cons, encodeUtf8_n]

/-- **A lost ん does not come back**: two are pending for one that has been typed, or for
two that have, and three are to be printed. -/
theorem rest_ne_of_lost {run : List ℕ} (hrun : ∀ value ∈ run, value ∈ typedKana) (count : ℕ) :
    rest 0 0 (utf8 "n") (run.flatMap spellKana)
        ≠ runText ('ん'.toNat :: 'ん'.toNat :: (List.replicate count 'ん'.toNat ++ run))
      ∧ rest 0 0 (utf8 "nn") (run.flatMap spellKana)
        ≠ runText ('ん'.toNat :: 'ん'.toNat :: (List.replicate count 'ん'.toNat ++ run)) := by
  induction run generalizing count with
  | nil =>
    -- at the end one ん is printed
    have hflush := flush_table.2.2
    have hlong : utf8 "ん"
        ≠ runText ('ん'.toNat :: 'ん'.toNat :: (List.replicate count 'ん'.toNat ++ [])) := by
      intro heq
      have hlength := congrArg List.length heq
      rw [runText_n, runText_n, List.length_append, List.length_append] at hlength
      have hthree : (utf8 "ん").length = 3 := by decide
      omega
    exact ⟨fun heq => hlong (hflush.1.symm.trans heq), fun heq => hlong (hflush.2.symm.trans heq)⟩
  | cons value run ih =>
    have ih := ih fun other hother => hrun other (List.mem_cons_of_mem _ hother)
    have hvalue := hrun value List.mem_cons_self
    rw [List.flatMap_cons]
    by_cases hn : value = 'ん'.toNat
    · subst hn
      obtain ⟨-, hbehind, hdouble⟩ := typing_n
      have hmore : List.replicate count 'ん'.toNat ++ 'ん'.toNat :: run
          = 'ん'.toNat :: (List.replicate count 'ん'.toNat ++ run) := by
        rw [← List.singleton_append, ← List.append_assoc, ← List.replicate_succ',
          List.replicate_succ]
        rfl
      rw [rest_append hbehind, rest_append hdouble, hmore, List.nil_append]
      refine ⟨(ih (count + 1)).2, fun heq => (ih count).1 ?_⟩
      rw [runText_n] at heq
      exact List.append_cancel_left heq
    · have halone := (typing_alone value hvalue).resolve_left hn
      refine ⟨?_, ?_⟩
      · obtain ⟨-, htyping⟩ | ⟨-, other, htyping, hother⟩ := typing_behind hvalue hn
        · rw [rest_append htyping, runText_n, List.append_assoc]
          intro heq
          exact halone.2.ne _ _ (List.append_cancel_left heq)
        · rw [rest_append htyping, runText_n]
          exact hother.ne _ _
      · obtain ⟨other, htyping, hother⟩ := typing_behind_double hvalue hn
        rw [rest_append htyping, runText_n, List.append_assoc]
        intro heq
        exact hother.ne _ _ (List.append_cancel_left heq)

/-- **The spellings of a run, typed behind nothing and behind `n`.** -/
theorem rest_spelled {run : List ℕ} (hrun : ∀ value ∈ run, value ∈ typedKana) :
    (rest 0 0 [] (run.flatMap spellKana) = runText run ↔ run.IsChain TypedApart)
      ∧ (rest 0 0 (utf8 "n") (run.flatMap spellKana) = runText ('ん'.toNat :: run)
        ↔ ('ん'.toNat :: run).IsChain TypedApart) := by
  induction run with
  | nil =>
    obtain ⟨hnone, hone, -⟩ := flush_table.2
    refine ⟨⟨fun _ => .nil, fun _ => hnone⟩, ⟨fun _ => .singleton _, fun _ => ?_⟩⟩
    exact hone
  | cons value run ih =>
    have htail : ∀ other ∈ run, other ∈ typedKana :=
      fun other hother => hrun other (List.mem_cons_of_mem _ hother)
    obtain ⟨ihalone, ihbehind⟩ := ih htail
    have hvalue := hrun value List.mem_cons_self
    rw [List.flatMap_cons]
    by_cases hn : value = 'ん'.toNat
    · subst hn
      obtain ⟨halone, hbehind, -⟩ := typing_n
      refine ⟨?_, ?_⟩
      · rw [rest_append halone, List.nil_append]
        exact ihbehind
      · rw [rest_append hbehind, List.nil_append]
        refine ⟨fun heq => ((rest_ne_of_lost htail 0).2 heq).elim, fun hchain => ?_⟩
        exact absurd ⟨rfl, by decide⟩ (List.isChain_cons_cons.mp hchain).1
    · obtain ⟨halone, -⟩ := (typing_alone value hvalue).resolve_left hn
      have hapart : (value :: run).IsChain TypedApart ↔ run.IsChain TypedApart := by
        rw [List.isChain_cons]
        exact ⟨And.right, fun h => ⟨fun _ _ hjoin => hn hjoin.1, h⟩⟩
      refine ⟨?_, ?_⟩
      · rw [rest_append halone, runText_cons, List.append_cancel_left_eq, hapart]
        exact ihalone
      · rw [List.isChain_cons_cons]
        obtain ⟨hmem, htyping⟩ | ⟨hmem, other, htyping, hother⟩ := typing_behind hvalue hn
        · have happly : TypedApart 'ん'.toNat value := fun hjoin => hmem hjoin.2
          rw [rest_append htyping, runText_n, runText_cons, List.append_assoc,
            List.append_cancel_left_eq, List.append_cancel_left_eq, hapart]
          exact ihalone.trans ⟨fun h => ⟨happly, h⟩, And.right⟩
        · rw [rest_append htyping, runText_n]
          refine ⟨fun heq => (hother.ne _ _ heq).elim, fun hchain => ?_⟩
          exact absurd ⟨rfl, hmem⟩ hchain.1

/-- **A run that is spelled kana by kana types itself, if and only if** no ん stands
right before a vowel, や, ゆ, よ or another ん. -/
theorem romanizeRun_typesBack_iff (run : List ℕ) (hrun : ∀ value ∈ run, value ∈ typedKana)
    (hfallback : romanize run = []) :
    convertForCommit (romanizeRun run) none = runText run ↔ run.IsChain TypedApart := by
  have hspelled : romanizeRun run = run.flatMap spellKana := by
    unfold romanizeRun
    rw [hfallback]
    rfl
  rw [hspelled]
  exact (rest_spelled hrun).1

/-- A run with a small kana that is typed back. -/
theorem romanizeRun_typesBack_fan :
    convertForCommit (romanizeRun (codepointsOf "ふぁんど")) none
      = runText (codepointsOf "ふぁんど") := by
  have hfallback : romanize (codepointsOf "ふぁんど") = [] := by decide +kernel
  refine (romanizeRun_typesBack_iff _ (by decide) hfallback).mpr ?_
  unfold TypedApart
  decide

/-- **しんようふぁんど is spelled `shinyoufuxando`, which types しにょうふぁんど.** -/
theorem not_typesBack_trust :
    ¬ ∀ run : List ℕ, (∀ value ∈ run, value ∈ typedKana) → run.head? ≠ some 'ー'.toNat →
      romanize run = [] → convertForCommit (romanizeRun run) none = runText run := by
  intro h
  have hback := h (codepointsOf "しんようふぁんど") (by decide) (by decide)
    (by decide +kernel)
  exact absurd hback (by decide +kernel)

end AzooKey.Core

import AzooKey.Core.RomajiKanaConverter

/-!
# Both readings of a doubled n

`core/src/RomajiKanaConverter.cpp`: the romaji `nn` before a vowel or `y` can be
read as `ん` and a syllable of the な row, or as `ん` and the vowel. `Feed` takes
the first reading, unless the bit of that position is set in a mask;
`AmbiguousReadings` converts the text with several masks, and keeps a position
only if its bit alone leaves as many letters unconverted as the default does.

Two runs that differ in one bit meet again before the next position: after a
vowel at once, and after `y` with the next letter, when it is `a`, `u`, `e` or
`o`. These positions can be turned in any combination
(`lettersLeft_of_turnable`), and each combination prints another text
(`rest_ne`). Anything else after `y` changes the number of letters for good
(`lettersLeft_ne`), so that trying each position alone is enough.
-/

namespace AzooKey.Core.RomajiKanaConverter

/-! ## The source -/

/-- `kMaxAmbiguousDoubleN`. -/
def maxAmbiguousDoubleN : ℕ := 3

/-- `convert` of `AmbiguousReadings`: the reading with a mask, and the number of
the positions. -/
def convertWithMask (ascii : Bytes) (table : Option CustomRomajiTable) (mask : ℕ) : Bytes × ℕ :=
  let r := ({ customTable := table, consumeDoubleNMask := mask } : RomajiKanaConverter).feedAll ascii
  (r.2 ++ r.1.flush.2, r.1.ambiguousDoubleNSeen)

/-- `ascii_letters`. -/
def asciiLetters (text : Bytes) : ℕ := text.countP isAlpha

/-- The positions that vary, as a mask. -/
def validMask (ascii : Bytes) (table : Option CustomRomajiTable) (varied : ℕ) : ℕ :=
  let defaultLetters := asciiLetters (convertWithMask ascii table 0).1
  (List.range varied).foldl (fun valid position =>
    let bit := 1 <<< position
    if asciiLetters (convertWithMask ascii table bit).1 = defaultLetters then valid ||| bit
    else valid) 0

/-- **`AmbiguousReadings`.** -/
def ambiguousReadings (ascii : Bytes) (table : Option CustomRomajiTable) (maxAmbiguous : ℕ) :
    List Bytes :=
  let default := convertWithMask ascii table 0
  let varied := min (min default.2 maxAmbiguous) maxAmbiguousDoubleN
  let valid := validMask ascii table varied
  default.1 :: ((List.range' 1 ((1 <<< varied) - 1)).filter (fun mask =>
    mask &&& (0xffffffff ^^^ valid) = 0)).map (fun mask => (convertWithMask ascii table mask).1)

/-! ## The table -/

/-- The small letters. -/
def letters : List UInt8 := (List.range 26).map (fun i => UInt8.ofNat (0x61 + i))

/-- The vowels with their syllables of the first row and of the な row. -/
def vowels : List (UInt8 × Bytes × Bytes) :=
  [(0x61, utf8 "あ", utf8 "な"), (0x69, utf8 "い", utf8 "に"), (0x75, utf8 "う", utf8 "ぬ"),
    (0x65, utf8 "え", utf8 "ね"), (0x6f, utf8 "お", utf8 "の")]

/-- **What the keys are**: the letters, `y` and the vowels. -/
theorem key_facts : ∀ c : UInt8,
    (isAlpha (toLower c) = true → toLower c ∈ letters ∧ c ≠ 0x2d ∧ c ≠ 0x27)
      ∧ (isVowelOrY (toLower c) = true → isAlpha (toLower c) = true ∧ toLower c ≠ 0x6e)
      ∧ (isVowelOrY c = true → c = 0x79 ∨ ∃ v ∈ vowels, c = v.1) := by
  decide +kernel

/-- A letter made small is a small letter. -/
theorem mem_letters (c : UInt8) (h : isAlpha (toLower c) = true) : toLower c ∈ letters :=
  ((key_facts c).1 h).1

/-- The vowels that follow `y`, with their syllables of the や row and of the
contracted な row. -/
def glides : List (UInt8 × Bytes × Bytes) :=
  [(0x61, utf8 "や", utf8 "にゃ"), (0x75, utf8 "ゆ", utf8 "にゅ"), (0x65, utf8 "いぇ", utf8 "にぇ"),
    (0x6f, utf8 "よ", utf8 "にょ")]

/-- The keys that begin with a byte. -/
def romajiRow (b : UInt8) : List (Bytes × Bytes) :=
  romajiMap.filter (fun e => e.1.head? = some b)

/-- A search looks at the keys with the same first byte. -/
theorem romajiFind_cons (b : UInt8) (t : Bytes) :
    romajiFind (b :: t) = AssocList.find? (romajiRow b) (b :: t) := by
  unfold romajiFind romajiRow
  induction romajiMap with
  | nil => rfl
  | cons e l ih =>
    rw [List.filter_cons]
    by_cases hkey : b :: t = e.1
    · have hhead : e.1.head? = some b := by rw [← hkey]; rfl
      rw [if_pos (decide_eq_true hhead), AssocList.find?, AssocList.find?, if_pos hkey, if_pos hkey]
    · rw [AssocList.find?, if_neg hkey, ih]
      split
      · rw [AssocList.find?, if_neg hkey]
      · rfl

/-- So does the search for a longer key. -/
theorem isBuiltinRomajiPrefix_cons (b : UInt8) (t : Bytes) :
    isBuiltinRomajiPrefix (b :: t) = (romajiRow b).any (fun e =>
      (b :: t).length < e.1.length && (b :: t).isPrefixOf e.1) := by
  unfold isBuiltinRomajiPrefix romajiRow
  induction romajiMap with
  | nil => rfl
  | cons e l ih =>
    rw [List.any_cons, List.filter_cons, ih]
    by_cases hhead : e.1.head? = some b
    · rw [if_pos (decide_eq_true hhead), List.any_cons]
    · rw [if_neg (by simpa using hhead)]
      have hbegins : (b :: t).isPrefixOf e.1 = false := by
        cases hkey : e.1 with
        | nil => rfl
        | cons c u =>
          rw [hkey] at hhead
          have hne : b ≠ c := fun heq => hhead (by rw [heq]; rfl)
          simp [List.isPrefixOf, hne]
      rw [hbegins, Bool.and_false, Bool.false_or]

/-- **The keys that begin with `y`, `n` and `i`.** -/
theorem romajiRow_eq :
    romajiRow 0x79 = [([0x79, 0x61], utf8 "や"), ([0x79, 0x75], utf8 "ゆ"), ([0x79, 0x6f], utf8 "よ"),
      ([0x79, 0x65], utf8 "いぇ")]
    ∧ romajiRow 0x6e = [([0x6e, 0x61], utf8 "な"), ([0x6e, 0x69], utf8 "に"),
      ([0x6e, 0x75], utf8 "ぬ"), ([0x6e, 0x65], utf8 "ね"), ([0x6e, 0x6f], utf8 "の"),
      ([0x6e, 0x79, 0x61], utf8 "にゃ"), ([0x6e, 0x79, 0x69], utf8 "にぃ"),
      ([0x6e, 0x79, 0x75], utf8 "にゅ"), ([0x6e, 0x79, 0x65], utf8 "にぇ"),
      ([0x6e, 0x79, 0x6f], utf8 "にょ")]
    ∧ romajiRow 0x69 = [([0x69], utf8 "い")]
    ∧ romajiRow 0x61 = [([0x61], utf8 "あ")] ∧ romajiRow 0x75 = [([0x75], utf8 "う")]
    ∧ romajiRow 0x65 = [([0x65], utf8 "え")] ∧ romajiRow 0x6f = [([0x6f], utf8 "お")] := by
  decide +kernel

/-! ## Searches of up to three letters -/

section Search

variable {α : Type} (find : Bytes → Option α) (a b c : UInt8)

/-- A search of one letter. -/
theorem longestMatch_one : longestMatch find [a] 1 = (find [a]).map (·, 1) := by
  rw [longestMatch, longestMatch]
  simp only [List.take_succ_cons, List.take_zero]
  cases find [a] <;> rfl

/-- A search of two letters. -/
theorem longestMatch_two :
    longestMatch find [a, b] 2 = ((find [a, b]).map (·, 2)).or ((find [a]).map (·, 1)) := by
  rw [longestMatch, longestMatch, longestMatch]
  simp only [List.take_succ_cons, List.take_zero]
  cases find [a, b] <;> cases find [a] <;> rfl

/-- A search of three letters. -/
theorem longestMatch_three :
    longestMatch find [a, b, c] 3 = ((find [a, b, c]).map (·, 3)).or
      (((find [a, b]).map (·, 2)).or ((find [a]).map (·, 1))) := by
  rw [longestMatch, longestMatch, longestMatch, longestMatch]
  simp only [List.take_succ_cons, List.take_zero]
  cases find [a, b, c] <;> cases find [a, b] <;> cases find [a] <;> rfl

end Search

/-- What the table knows of vowels. -/
theorem longestMatch_vowels : ∀ v ∈ vowels,
    longestMatch romajiFind [v.1] 1 = some (v.2.1, 1)
      ∧ longestMatch romajiFind [0x6e, v.1] 2 = some (v.2.2, 2) := by
  obtain ⟨-, hn, hi, ha, hu, he, ho⟩ := romajiRow_eq
  unfold vowels
  simp only [List.forall_mem_cons, List.not_mem_nil, false_imp_iff, implies_true, and_true,
    longestMatch_one, longestMatch_two, romajiFind_cons, hn, hi, ha, hu, he, ho]
  exact ⟨⟨rfl, rfl⟩, ⟨rfl, rfl⟩, ⟨rfl, rfl⟩, ⟨rfl, rfl⟩, rfl, rfl⟩

/-- What it knows of the vowels after `y`. -/
theorem longestMatch_glides : ∀ g ∈ glides,
    longestMatch romajiFind [0x79, g.1] 2 = some (g.2.1, 2)
      ∧ longestMatch romajiFind [0x6e, 0x79, g.1] 3 = some (g.2.2, 3) := by
  obtain ⟨hy, hn, -⟩ := romajiRow_eq
  unfold glides
  simp only [List.forall_mem_cons, List.not_mem_nil, false_imp_iff, implies_true, and_true,
    longestMatch_two, longestMatch_three, romajiFind_cons, hy, hn]
  exact ⟨⟨rfl, rfl⟩, ⟨rfl, rfl⟩, ⟨rfl, rfl⟩, rfl, rfl⟩

/-- What it knows of `i`. -/
theorem longestMatch_i (d : UInt8) :
    longestMatch romajiFind [0x69] 1 = some (utf8 "い", 1)
      ∧ longestMatch romajiFind [0x69, d] 2 = some (utf8 "い", 1)
      ∧ longestMatch romajiFind [0x6e, 0x79, 0x69] 3 = some (utf8 "にぃ", 3) := by
  obtain ⟨-, hn, hi, -⟩ := romajiRow_eq
  simp only [longestMatch_one, longestMatch_two, longestMatch_three, romajiFind_cons, hn, hi]
  exact ⟨rfl, rfl, rfl⟩

/-- What it does not know: `y` before other letters, and what begins with `ny`,
`yy` and `yi`. -/
theorem longestMatch_none : ∀ d ∈ letters,
    (d ∉ glides.map Prod.fst → longestMatch romajiFind [0x79, d] 2 = none)
    ∧ (d ∉ glides.map Prod.fst → d ≠ 0x69 → longestMatch romajiFind [0x6e, 0x79, d] 3 = none
      ∧ isBuiltinRomajiPrefix [0x6e, 0x79, d] = false)
    ∧ (longestMatch romajiFind [0x79, 0x79, d] 3 = none
      ∧ isBuiltinRomajiPrefix [0x79, 0x79, d] = false)
    ∧ (longestMatch romajiFind [0x79, 0x69, d] 3 = none
      ∧ isBuiltinRomajiPrefix [0x79, 0x69, d] = false) := by
  obtain ⟨hy, hn, -⟩ := romajiRow_eq
  simp only [longestMatch_two, longestMatch_three, romajiFind_cons, isBuiltinRomajiPrefix_cons,
    hy, hn]
  decide +kernel

/-- What it does not know at the end of a text. -/
theorem longestMatch_none_short :
    longestMatch romajiFind [0x79] 1 = none ∧ longestMatch romajiFind [0x6e, 0x79] 2 = none
      ∧ longestMatch romajiFind [0x79, 0x79] 2 = none
      ∧ longestMatch romajiFind [0x79, 0x69] 2 = none := by
  obtain ⟨hy, hn, -⟩ := romajiRow_eq
  simp only [longestMatch_one, longestMatch_two, romajiFind_cons, hy, hn]
  exact ⟨rfl, rfl, rfl, rfl⟩

/-! ## Converting what is pending -/

/-- The texts `n` and `nn`. -/
theorem utf8_n : utf8 "n" = [0x6e] ∧ utf8 "nn" = [0x6e, 0x6e] := by decide

section Pending

variable {force : Bool} {front : UInt8} {tail : Bytes}

/-- A match is printed. -/
theorem convertBuiltinPending_match {kana : Bytes} {length : ℕ}
    (h : longestMatch romajiFind (front :: tail) (min maxRomajiKeyLength (tail.length + 1))
      = some (kana, length)) :
    convertBuiltinPending force (front :: tail)
      = (kana ++ (convertBuiltinPending force ((front :: tail).drop length)).1,
        (convertBuiltinPending force ((front :: tail).drop length)).2) := by
  conv_lhs => rw [convertBuiltinPending]
  split
  · rename_i kana' length' hmatch
    obtain ⟨rfl, rfl⟩ := Prod.mk.inj (Option.some.inj (h.symm.trans hmatch))
    rfl
  · rename_i hmatch
    exact absurd (h.symm.trans hmatch) (by simp)

/-- Without a match the first letter is printed, at the end of the text or when
no key can begin with what is pending. -/
theorem convertBuiltinPending_drop
    (h : longestMatch romajiFind (front :: tail) (min maxRomajiKeyLength (tail.length + 1)) = none)
    (hn : front :: tail ≠ utf8 "n") (hnn : front :: tail ≠ utf8 "nn")
    (hdrop : force = true
      ∨ 3 ≤ tail.length + 1 ∧ isBuiltinRomajiPrefix (front :: tail) = false) :
    convertBuiltinPending force (front :: tail)
      = (front :: (convertBuiltinPending force tail).1, (convertBuiltinPending force tail).2) := by
  conv_lhs => rw [convertBuiltinPending]
  split
  · rename_i hmatch
    exact absurd (h.symm.trans hmatch) (by simp)
  · rw [if_neg (by simp [hnn]), if_neg (by simp [hn]), if_pos]
    obtain hforce | ⟨hlength, hbegin⟩ := hdrop
    · rw [hforce, Bool.true_or]
    · rw [hbegin, List.length_cons, decide_eq_true hlength]
      simp

/-- Otherwise it stays pending. -/
theorem convertBuiltinPending_wait
    (h : longestMatch romajiFind (front :: tail) (min maxRomajiKeyLength (tail.length + 1)) = none)
    (hshort : tail.length + 1 < 3) :
    convertBuiltinPending false (front :: tail) = ([], front :: tail) := by
  rw [convertBuiltinPending]
  split
  · rename_i hmatch
    exact absurd (h.symm.trans hmatch) (by simp)
  · rw [if_neg (by simp), if_neg (by simp), if_neg]
    simp only [Bool.false_or, List.length_cons, Bool.and_eq_true, decide_eq_true_eq, not_and]
    exact fun hlong => absurd hshort (Nat.not_lt.mpr hlong)

end Pending

@[simp] theorem convertBuiltinPending_nil (force : Bool) :
    convertBuiltinPending force [] = ([], []) := by
  rw [convertBuiltinPending]

/-- What is pending around a `y` at the end of a text. -/
theorem convertBuiltinPending_force :
    convertBuiltinPending true [0x79] = ([0x79], [])
      ∧ convertBuiltinPending true [0x6e, 0x79] = ([0x6e, 0x79], [])
      ∧ convertBuiltinPending true [0x79, 0x79] = ([0x79, 0x79], [])
      ∧ convertBuiltinPending true [0x79, 0x69] = (0x79 :: utf8 "い", []) := by
  obtain ⟨hy, hny, hyy, hyi⟩ := longestMatch_none_short
  have hone : convertBuiltinPending true [0x79] = ([0x79], []) := by
    rw [convertBuiltinPending_drop hy (by decide) (by decide) (Or.inl rfl),
      convertBuiltinPending_nil]
  have hi : convertBuiltinPending true [0x69] = (utf8 "い", []) := by
    rw [convertBuiltinPending_match (longestMatch_i 0).1, List.drop_one, List.tail_cons,
      convertBuiltinPending_nil, List.append_nil]
  refine ⟨hone, ?_, ?_, ?_⟩
  · rw [convertBuiltinPending_drop hny (by decide) (by decide) (Or.inl rfl), hone]
  · rw [convertBuiltinPending_drop hyy (by decide) (by decide) (Or.inl rfl), hone]
  · rw [convertBuiltinPending_drop hyi (by decide) (by decide) (Or.inl rfl), hi]

/-- A vowel is printed, also after `n`. -/
theorem convertBuiltinPending_vowel : ∀ v ∈ vowels,
    convertBuiltinPending false [v.1] = (v.2.1, [])
      ∧ convertBuiltinPending false [0x6e, v.1] = (v.2.2, []) := by
  intro v hv
  obtain ⟨hone, htwo⟩ := longestMatch_vowels v hv
  rw [convertBuiltinPending_match hone, convertBuiltinPending_match htwo]
  simp

/-- So are four vowels after `y`, also after `ny`. -/
theorem convertBuiltinPending_glide : ∀ g ∈ glides,
    convertBuiltinPending false [0x79, g.1] = (g.2.1, [])
      ∧ convertBuiltinPending false [0x6e, 0x79, g.1] = (g.2.2, []) := by
  intro g hg
  obtain ⟨htwo, hthree⟩ := longestMatch_glides g hg
  rw [convertBuiltinPending_match htwo, convertBuiltinPending_match hthree]
  simp

/-- `y` and `ny` wait. -/
theorem convertBuiltinPending_y :
    convertBuiltinPending false [0x79] = ([], [0x79])
      ∧ convertBuiltinPending false [0x6e, 0x79] = ([], [0x6e, 0x79]) :=
  ⟨convertBuiltinPending_wait longestMatch_none_short.1 (by decide),
    convertBuiltinPending_wait longestMatch_none_short.2.1 (by decide)⟩

/-- `nyi` is printed. -/
theorem convertBuiltinPending_nyi :
    convertBuiltinPending false [0x6e, 0x79, 0x69] = (utf8 "にぃ", []) := by
  rw [convertBuiltinPending_match (longestMatch_i 0).2.2]
  simp

/-- `y` and another letter wait; with a letter before them, that letter is
printed. After `yi` also the `i` is. -/
theorem convertBuiltinPending_other {d : UInt8} (hd : d ∈ letters) :
    (d ∉ glides.map Prod.fst → convertBuiltinPending false [0x79, d] = ([], [0x79, d]))
    ∧ (d ∉ glides.map Prod.fst → d ≠ 0x69 →
      convertBuiltinPending false [0x6e, 0x79, d] = ([0x6e], [0x79, d]))
    ∧ convertBuiltinPending false [0x79, 0x79, d]
      = (0x79 :: (convertBuiltinPending false [0x79, d]).1,
        (convertBuiltinPending false [0x79, d]).2)
    ∧ convertBuiltinPending false [0x79, 0x69, d]
      = (0x79 :: utf8 "い" ++ (convertBuiltinPending false [d]).1,
        (convertBuiltinPending false [d]).2) := by
  obtain ⟨hy, hny, ⟨hyy, hyyBegins⟩, hyi, hyiBegins⟩ := longestMatch_none d hd
  have hwait : d ∉ glides.map Prod.fst →
      convertBuiltinPending false [0x79, d] = ([], [0x79, d]) :=
    fun hglide => convertBuiltinPending_wait (hy hglide) (by simp)
  have hi : convertBuiltinPending false [0x69, d]
      = (utf8 "い" ++ (convertBuiltinPending false [d]).1,
        (convertBuiltinPending false [d]).2) :=
    convertBuiltinPending_match (longestMatch_i d).2.1
  refine ⟨hwait, fun hglide hne => ?_, ?_, ?_⟩
  · rw [convertBuiltinPending_drop (hny hglide hne).1 (by simp [utf8_n]) (by simp [utf8_n])
      (Or.inr ⟨by simp, (hny hglide hne).2⟩), hwait hglide]
  · rw [convertBuiltinPending_drop hyy (by simp [utf8_n]) (by simp [utf8_n])
      (Or.inr ⟨by simp, hyyBegins⟩)]
  · rw [convertBuiltinPending_drop hyi (by simp [utf8_n]) (by simp [utf8_n])
      (Or.inr ⟨by simp, hyiBegins⟩), hi]
    rfl

/-! ## One key -/

/-- The converter with a mask, after `seen` positions. -/
def converterAt (mask seen : ℕ) (pending : Bytes) : RomajiKanaConverter :=
  { pending := pending, consumeDoubleNMask := mask, ambiguousDoubleNSeen := seen }

/-- Whether the mask turns a position. -/
def consumes (mask position : ℕ) : Bool :=
  position < 32 && (mask >>> position) &&& 1 != 0

/-- What the key at a position leaves to convert. -/
def afterDoubleN (mask position : ℕ) (lower : UInt8) : Bytes :=
  (if consumes mask position then [] else [0x6e]) ++ [lower]

/-- What a key that is no letter prints itself. -/
def closing (raw : UInt8) : Bytes := if raw = 0x2d then utf8 "ー" else [raw]

/-- A key at a position. -/
theorem feed_position {mask seen : ℕ} {raw : UInt8} (h : isVowelOrY (toLower raw) = true) :
    (converterAt mask seen (utf8 "nn")).feed raw
      = (converterAt mask (seen + 1)
          (convertBuiltinPending false (afterDoubleN mask seen (toLower raw))).2,
        utf8 "ん" ++ (convertBuiltinPending false (afterDoubleN mask seen (toLower raw))).1) := by
  have halpha : isAlpha (toLower raw) = true := ((key_facts raw).2.1 h).1
  obtain ⟨-, hdash, hquote⟩ := (key_facts raw).1 halpha
  have hpending : (converterAt mask seen (utf8 "nn")).pending = utf8 "nn" := rfl
  show feedBuiltin _ raw = _
  unfold feedBuiltin
  rw [if_neg hdash, if_neg (by simp [hquote]), if_neg (by simp [halpha]), if_pos hpending]
  simp only [if_pos h]
  rfl

/-- **Any other key does what it does without a mask.** -/
theorem feed_other {pending : Bytes} {raw : UInt8}
    (h : ¬ (pending = utf8 "nn" ∧ isVowelOrY (toLower raw) = true)) (mask seen : ℕ) :
    (converterAt mask seen pending).feed raw
      = (converterAt mask seen ((converterAt 0 0 pending).feed raw).1.pending,
        ((converterAt 0 0 pending).feed raw).2) := by
  have hpending : ∀ m s, (converterAt m s pending).pending = pending := fun _ _ => rfl
  have hquotes : ∀ m s, (converterAt m s pending).separatesNWithApostrophe
      = (converterAt 0 0 pending).separatesNWithApostrophe := fun _ _ => rfl
  show feedBuiltin _ raw = (converterAt mask seen (feedBuiltin _ raw).1.pending,
    (feedBuiltin _ raw).2)
  unfold feedBuiltin
  simp only [hpending, hquotes mask seen]
  by_cases hnn : pending = utf8 "nn"
  · have hkey : isVowelOrY (toLower raw) ≠ true := fun hkey => h ⟨hnn, hkey⟩
    simp only [if_pos hnn, if_neg hkey]
    split_ifs <;> rfl
  · simp only [if_neg hnn]
    split_ifs <;> rfl

section Keys

variable {mask seen : ℕ} {pending : Bytes} {raw : UInt8}

/-- A key that is no letter ends what is pending. -/
theorem feed_closing (hn : pending ≠ utf8 "n") (hnn : pending ≠ utf8 "nn")
    (hraw : isAlpha (toLower raw) = false) :
    (converterAt mask seen pending).feed raw
      = (converterAt mask seen [], (convertBuiltinPending true pending).1 ++ closing raw) := by
  have hquote : (converterAt mask seen pending).separatesNWithApostrophe = false := by
    simp [separatesNWithApostrophe, converterAt, hn, hnn]
  have hconvert : (converterAt mask seen pending).convertPending true
      = (converterAt mask seen [], (convertBuiltinPending true pending).1) := by
    have hnone := (convertBuiltinPending_true pending).1
    refine Prod.ext ?_ rfl
    show converterAt mask seen (convertBuiltinPending true pending).2 = converterAt mask seen []
    rw [hnone]
  show feedBuiltin _ raw = _
  unfold feedBuiltin closing
  rw [hconvert]
  by_cases hdash : raw = 0x2d
  · rw [if_pos hdash, if_pos hdash]
  · rw [if_neg hdash, if_neg hdash, if_neg (by simp [hquote]), if_pos (by simp [hraw])]

/-- A letter that doubles nothing is added to what is pending. -/
theorem feed_letter (hn : pending ≠ utf8 "n") (hnn : pending ≠ utf8 "nn")
    (hraw : isAlpha (toLower raw) = true) (hdouble : pending ≠ [toLower raw]) :
    (converterAt mask seen pending).feed raw
      = (converterAt mask seen (convertBuiltinPending false (pending ++ [toLower raw])).2,
        (convertBuiltinPending false (pending ++ [toLower raw])).1) := by
  obtain ⟨-, hdash, hquote⟩ := (key_facts raw).1 hraw
  have hpending : (converterAt mask seen pending).pending = pending := rfl
  show feedBuiltin _ raw = _
  unfold feedBuiltin
  simp only [hpending]
  rw [if_neg hdash, if_neg (by simp [hquote]), if_neg (by simp [hraw]), if_neg hnn,
    if_neg (by simp [hn]), if_neg (by simp [hdouble])]
  rfl

/-- A second `y`. -/
theorem feed_double (hraw : toLower raw = 0x79) :
    (converterAt mask seen [0x79]).feed raw = (converterAt mask seen [0x79], utf8 "っ") := by
  have halpha : isAlpha (toLower raw) = true := by
    rw [hraw]
    rfl
  obtain ⟨-, hdash, hquote⟩ := (key_facts raw).1 halpha
  have hpending : (converterAt mask seen [0x79]).pending = [0x79] := rfl
  show feedBuiltin _ raw = _
  unfold feedBuiltin
  simp only [hpending, hraw]
  rw [if_neg hdash, if_neg (by simp [hquote]), if_neg (by decide), if_neg (by decide),
    if_neg (by decide), if_pos (by decide)]

end Keys

/-! ## The rest of a text -/

/-- What is printed of the rest of a text. -/
def rest (mask seen : ℕ) (pending ascii : Bytes) : Bytes :=
  let r := (converterAt mask seen pending).feedAll ascii
  r.2 ++ r.1.flush.2

/-- How many positions there are at the end of the text. -/
def seenAfter (mask seen : ℕ) (pending ascii : Bytes) : ℕ :=
  ((converterAt mask seen pending).feedAll ascii).1.ambiguousDoubleNSeen

/-- A conversion with a mask, from the start. -/
theorem convertWithMask_eq (ascii : Bytes) (mask : ℕ) :
    convertWithMask ascii none mask = (rest mask 0 [] ascii, seenAfter mask 0 [] ascii) := rfl

section Rest

variable {mask seen : ℕ} {pending ascii : Bytes} {raw : UInt8}

theorem rest_nil : rest mask seen pending [] = (convertBuiltinPending true pending).1 := rfl

/-- A key, then the rest. -/
theorem rest_cons {seen' : ℕ} {pending' out : Bytes}
    (h : (converterAt mask seen pending).feed raw = (converterAt mask seen' pending', out)) :
    rest mask seen pending (raw :: ascii) = out ++ rest mask seen' pending' ascii
      ∧ seenAfter mask seen pending (raw :: ascii) = seenAfter mask seen' pending' ascii := by
  unfold rest seenAfter
  simp only [feedAll, h, List.append_assoc]
  exact ⟨trivial, trivial⟩

/-- How many letters stay unconverted in the rest of a text. -/
def lettersLeft (mask seen : ℕ) (pending ascii : Bytes) : ℕ :=
  asciiLetters (rest mask seen pending ascii)

@[simp] theorem asciiLetters_append (x y : Bytes) :
    asciiLetters (x ++ y) = asciiLetters x + asciiLetters y := List.countP_append

/-- A key that is no letter, in the rest. -/
theorem lettersLeft_closing (hn : pending ≠ utf8 "n") (hnn : pending ≠ utf8 "nn")
    (hraw : isAlpha (toLower raw) = false) :
    lettersLeft mask seen pending (raw :: ascii)
      = asciiLetters (convertBuiltinPending true pending).1 + asciiLetters (closing raw)
        + lettersLeft mask seen [] ascii := by
  unfold lettersLeft
  rw [(rest_cons (feed_closing hn hnn hraw)).1, asciiLetters_append, asciiLetters_append]

/-- A letter, in the rest. -/
theorem lettersLeft_letter (hn : pending ≠ utf8 "n") (hnn : pending ≠ utf8 "nn")
    (hraw : isAlpha (toLower raw) = true) (hdouble : pending ≠ [toLower raw]) :
    lettersLeft mask seen pending (raw :: ascii)
      = asciiLetters (convertBuiltinPending false (pending ++ [toLower raw])).1
        + lettersLeft mask seen (convertBuiltinPending false (pending ++ [toLower raw])).2 ascii := by
  unfold lettersLeft
  rw [(rest_cons (feed_letter hn hnn hraw hdouble)).1, asciiLetters_append]

/-- What `yi` leaves is `y` and what nothing leaves. -/
theorem lettersLeft_yi :
    lettersLeft mask seen [0x79, 0x69] ascii = lettersLeft mask seen [] ascii + 1 := by
  obtain ⟨-, -, -, hforce⟩ := convertBuiltinPending_force
  have hone : asciiLetters (0x79 :: utf8 "い") = 1 := by decide
  cases ascii with
  | nil =>
    unfold lettersLeft
    rw [rest_nil, rest_nil, hforce, convertBuiltinPending_nil, hone]
    rfl
  | cons raw ascii =>
    by_cases hraw : isAlpha (toLower raw) = true
    · obtain ⟨-, -, -, hyi⟩ := convertBuiltinPending_other (mem_letters raw hraw)
      rw [lettersLeft_letter (by simp [utf8_n]) (by simp [utf8_n]) hraw (by simp),
        lettersLeft_letter (by simp [utf8_n]) (by simp [utf8_n]) hraw (by simp)]
      simp only [List.cons_append, List.nil_append, hyi]
      rw [← List.cons_append, asciiLetters_append, hone]
      omega
    · have hraw : isAlpha (toLower raw) = false := by simpa using hraw
      rw [lettersLeft_closing (by simp [utf8_n]) (by simp [utf8_n]) hraw,
        lettersLeft_closing (by simp [utf8_n]) (by simp [utf8_n]) hraw, hforce, hone,
        convertBuiltinPending_nil]
      show 1 + _ + _ = 0 + _ + _ + 1
      omega

/-- A second `y` leaves what one `y` does. -/
theorem lettersLeft_double (hraw : toLower raw = 0x79) :
    lettersLeft mask seen [0x79] (raw :: ascii) = lettersLeft mask seen [0x79] ascii := by
  unfold lettersLeft
  rw [(rest_cons (feed_double hraw)).1, asciiLetters_append,
    show asciiLetters (utf8 "っ") = 0 by decide, zero_add]

/-- `yy` leaves a letter more than `y`. -/
theorem lettersLeft_yy :
    lettersLeft mask seen [0x79] ascii + 1 ≤ lettersLeft mask seen [0x79, 0x79] ascii := by
  obtain ⟨hy, -, hyy, -⟩ := convertBuiltinPending_force
  have hone : asciiLetters [0x79] = 1 := by decide
  have htwo : asciiLetters [0x79, 0x79] = 2 := by decide
  induction ascii with
  | nil =>
    unfold lettersLeft
    rw [rest_nil, rest_nil, hy, hyy, hone, htwo]
  | cons raw ascii ih =>
    by_cases hraw : isAlpha (toLower raw) = true
    · obtain ⟨hyd, -, hyyd, -⟩ := convertBuiltinPending_other (mem_letters raw hraw)
      have hleft : lettersLeft mask seen [0x79, 0x79] (raw :: ascii)
          = 1 + asciiLetters (convertBuiltinPending false [0x79, toLower raw]).1
            + lettersLeft mask seen (convertBuiltinPending false [0x79, toLower raw]).2 ascii := by
        rw [lettersLeft_letter (by simp [utf8_n]) (by simp [utf8_n]) hraw (by simp)]
        simp only [List.cons_append, List.nil_append, hyyd]
        rw [← List.singleton_append, asciiLetters_append, hone]
      rw [hleft]
      by_cases hdouble : toLower raw = 0x79
      · -- The second `y` of `yy` prints a small kana, that of `yyy` a letter.
        have hwait : convertBuiltinPending false [0x79, 0x79] = ([], [0x79, 0x79]) := by
          rw [hdouble] at hyd
          exact hyd (by decide)
        rw [hdouble, hwait, lettersLeft_double hdouble]
        show _ ≤ 1 + 0 + lettersLeft mask seen [0x79, 0x79] ascii
        omega
      · rw [lettersLeft_letter (by simp [utf8_n]) (by simp [utf8_n]) hraw
          (by simpa using fun h => hdouble h.symm)]
        show asciiLetters (convertBuiltinPending false [0x79, toLower raw]).1
          + lettersLeft mask seen (convertBuiltinPending false [0x79, toLower raw]).2 ascii + 1 ≤ _
        omega
    · have hraw : isAlpha (toLower raw) = false := by simpa using hraw
      rw [lettersLeft_closing (by simp [utf8_n]) (by simp [utf8_n]) hraw,
        lettersLeft_closing (by simp [utf8_n]) (by simp [utf8_n]) hraw, hy, hyy, hone, htwo]
      omega

/-- Whether a text begins with a vowel that `y` takes. -/
def startsGlide (ascii : Bytes) : Bool :=
  ascii.head?.any (fun raw => (glides.map Prod.fst).contains (toLower raw))

/-- **Without such a vowel, `y` and `ny` leave different numbers of letters.** -/
theorem lettersLeft_ny (h : startsGlide ascii = false) :
    lettersLeft mask seen [0x79] ascii ≠ lettersLeft mask seen [0x6e, 0x79] ascii := by
  obtain ⟨hy, hny, -, -⟩ := convertBuiltinPending_force
  have hone : asciiLetters [0x79] = 1 := by decide
  have htwo : asciiLetters [0x6e, 0x79] = 2 := by decide
  cases ascii with
  | nil =>
    unfold lettersLeft
    rw [rest_nil, rest_nil, hy, hny, hone, htwo]
    decide
  | cons raw ascii =>
    have hglide : toLower raw ∉ glides.map Prod.fst := by simpa [startsGlide] using h
    by_cases hraw : isAlpha (toLower raw) = true
    · obtain ⟨hyd, hnyd, -, -⟩ := convertBuiltinPending_other (mem_letters raw hraw)
      have hleft : lettersLeft mask seen [0x6e, 0x79] (raw :: ascii)
          = asciiLetters (convertBuiltinPending false [0x6e, 0x79, toLower raw]).1 + lettersLeft
            mask seen (convertBuiltinPending false [0x6e, 0x79, toLower raw]).2 ascii :=
        lettersLeft_letter (by simp [utf8_n]) (by simp [utf8_n]) hraw (by simp)
      have hwait : toLower raw ≠ 0x79 → lettersLeft mask seen [0x79] (raw :: ascii)
          = lettersLeft mask seen [0x79, toLower raw] ascii := by
        intro hdouble
        rw [lettersLeft_letter (by simp [utf8_n]) (by simp [utf8_n]) hraw
          (by simpa using fun h => hdouble h.symm)]
        show asciiLetters (convertBuiltinPending false [0x79, toLower raw]).1
          + lettersLeft mask seen (convertBuiltinPending false [0x79, toLower raw]).2 ascii = _
        rw [hyd hglide]
        exact Nat.zero_add _
      by_cases hi : toLower raw = 0x69
      · -- `nyi` is a syllable, `yi` is not.
        rw [hleft, hwait (by rw [hi]; decide), hi, convertBuiltinPending_nyi, lettersLeft_yi,
          show asciiLetters (utf8 "にぃ") = 0 by decide]
        show lettersLeft mask seen [] ascii + 1 ≠ 0 + lettersLeft mask seen [] ascii
        omega
      · rw [hleft, hnyd hglide hi, show asciiLetters [0x6e] = 1 by decide]
        by_cases hdouble : toLower raw = 0x79
        · have hyy : lettersLeft mask seen [0x79] ascii + 1
              ≤ lettersLeft mask seen [0x79, 0x79] ascii := lettersLeft_yy
          rw [lettersLeft_double hdouble, hdouble]
          show _ ≠ 1 + lettersLeft mask seen [0x79, 0x79] ascii
          omega
        · rw [hwait hdouble]
          show _ ≠ 1 + lettersLeft mask seen [0x79, toLower raw] ascii
          omega
    · have hraw : isAlpha (toLower raw) = false := by simpa using hraw
      rw [lettersLeft_closing (by simp [utf8_n]) (by simp [utf8_n]) hraw,
        lettersLeft_closing (by simp [utf8_n]) (by simp [utf8_n]) hraw, hy, hny, hone, htwo]
      omega

end Rest

/-! ## The positions of a text -/

/-- Whether each position can be turned, in a text read with something pending. -/
def turns (pending : Bytes) : Bytes → List Bool
  | [] => []
  | raw :: ascii =>
    let next := turns ((converterAt 0 0 pending).feed raw).1.pending ascii
    if pending = utf8 "nn" ∧ isVowelOrY (toLower raw) then
      (toLower raw != 0x79 || startsGlide ascii) :: next
    else next

/-- The mask turns only what can be turned, from a position on. -/
def Turnable (mask seen : ℕ) (l : List Bool) : Prop :=
  ∀ i, l[i]? = some false → consumes mask (seen + i) = false

/-- **Two runs in step**: the same is pending, or the masked run has read `y`
where the default has `ny`, and a vowel follows that `y` takes. -/
def InStep (pending default ascii : Bytes) : Prop :=
  pending = default ∨ pending = [0x79] ∧ default = [0x6e, 0x79] ∧ startsGlide ascii = true

section Positions

variable {mask seen : ℕ} {ascii : Bytes} {raw : UInt8}

theorem Turnable.head {b : Bool} {l : List Bool} (h : Turnable mask seen (b :: l))
    (hmask : consumes mask seen = true) : b = true := by
  by_contra hb
  have hfalse := h 0 (by simp [Bool.eq_false_of_not_eq_true hb])
  rw [Nat.add_zero, hmask] at hfalse
  exact absurd hfalse (by simp)

theorem Turnable.tail {b : Bool} {l : List Bool} (h : Turnable mask seen (b :: l)) :
    Turnable mask (seen + 1) l := by
  intro i hi
  rw [Nat.add_assoc, Nat.add_comm 1 i]
  exact h (i + 1) hi

/-- After a `y` that may be turned the runs are in step. -/
theorem Turnable.inStep {l : List Bool} (h : Turnable mask seen (startsGlide ascii :: l)) :
    InStep (if consumes mask seen then [0x79] else [0x6e, 0x79]) [0x6e, 0x79] ascii := by
  by_cases hturn : consumes mask seen = true
  · rw [if_pos hturn]
    exact Or.inr ⟨rfl, rfl, h.head hturn⟩
  · rw [if_neg hturn]
    exact Or.inl rfl

/-- The keys at a position: `y` and the vowels. -/
theorem key_at_position (h : isVowelOrY (toLower raw) = true) :
    toLower raw = 0x79 ∨ ∃ v ∈ vowels, toLower raw = v.1 := by
  exact (key_facts _).2.2 h

/-- A vowel at a position. -/
theorem feed_vowel {v : UInt8 × Bytes × Bytes} (hv : v ∈ vowels) (hraw : toLower raw = v.1) :
    (converterAt mask seen (utf8 "nn")).feed raw
      = (converterAt mask (seen + 1) [],
        utf8 "ん" ++ if consumes mask seen then v.2.1 else v.2.2) := by
  have hvowel : ∀ v ∈ vowels, isVowelOrY v.1 = true := by decide
  obtain ⟨hone, htwo⟩ := convertBuiltinPending_vowel v hv
  rw [feed_position (by rw [hraw]; exact hvowel v hv), hraw]
  unfold afterDoubleN
  by_cases hmask : consumes mask seen = true
  · rw [if_pos hmask, if_pos hmask, List.nil_append, hone]
  · rw [if_neg hmask, if_neg hmask, List.singleton_append, htwo]

/-- `y` at a position. -/
theorem feed_y (hraw : toLower raw = 0x79) :
    (converterAt mask seen (utf8 "nn")).feed raw
      = (converterAt mask (seen + 1) (if consumes mask seen then [0x79] else [0x6e, 0x79]),
        utf8 "ん") := by
  obtain ⟨hone, htwo⟩ := convertBuiltinPending_y
  rw [feed_position (by rw [hraw]; decide), hraw]
  unfold afterDoubleN
  by_cases hmask : consumes mask seen = true
  · rw [if_pos hmask, if_pos hmask, List.nil_append, hone, List.append_nil]
  · rw [if_neg hmask, if_neg hmask, List.singleton_append, htwo, List.append_nil]

/-- A vowel that `y` takes. -/
theorem feed_glide (h : startsGlide (raw :: ascii) = true) : ∃ g ∈ glides, ∀ mask seen,
    (converterAt mask seen [0x79]).feed raw = (converterAt mask seen [], g.2.1)
      ∧ (converterAt mask seen [0x6e, 0x79]).feed raw = (converterAt mask seen [], g.2.2) := by
  have hglide : toLower raw ∈ glides.map Prod.fst := by simpa [startsGlide] using h
  obtain ⟨g, hg, hraw⟩ := List.mem_map.mp hglide
  have hletter : ∀ g ∈ glides, isAlpha g.1 = true ∧ g.1 ≠ 0x79 := by decide
  obtain ⟨halpha, hne⟩ := hletter g hg
  obtain ⟨hone, htwo⟩ := convertBuiltinPending_glide g hg
  refine ⟨g, hg, fun mask seen => ⟨?_, ?_⟩⟩
  · rw [feed_letter (by simp [utf8_n]) (by simp [utf8_n]) (by rw [← hraw]; exact halpha)
      (by simpa [← hraw] using fun h => hne h.symm), ← hraw]
    show (converterAt mask seen (convertBuiltinPending false [0x79, g.1]).2,
      (convertBuiltinPending false [0x79, g.1]).1) = _
    rw [hone]
  · rw [feed_letter (by simp [utf8_n]) (by simp [utf8_n]) (by rw [← hraw]; exact halpha)
      (by simp), ← hraw]
    show (converterAt mask seen (convertBuiltinPending false [0x6e, 0x79, g.1]).2,
      (convertBuiltinPending false [0x6e, 0x79, g.1]).1) = _
    rw [htwo]

/-- **The rest depends on the bits from its first position on.** -/
theorem rest_congr {mask' : ℕ} {pending : Bytes}
    (h : ∀ i, seen ≤ i → consumes mask i = consumes mask' i) :
    rest mask seen pending ascii = rest mask' seen pending ascii := by
  induction ascii generalizing seen pending with
  | nil => rfl
  | cons raw ascii ih =>
    by_cases hposition : pending = utf8 "nn" ∧ isVowelOrY (toLower raw) = true
    · obtain ⟨rfl, hraw⟩ := hposition
      have hafter : afterDoubleN mask seen (toLower raw) = afterDoubleN mask' seen (toLower raw) := by
        unfold afterDoubleN
        rw [h seen le_rfl]
      rw [(rest_cons (feed_position hraw)).1, (rest_cons (feed_position hraw)).1, hafter,
        ih (fun i hi => h i (Nat.le_of_succ_le hi))]
    · rw [(rest_cons (feed_other hposition mask seen)).1,
        (rest_cons (feed_other hposition mask' seen)).1, ih h]

/-- No mask turns nothing. -/
theorem consumes_zero (position : ℕ) : consumes 0 position = false := by
  simp [consumes]

/-- A vowel at a position can be turned. -/
theorem turns_vowel {v : UInt8 × Bytes × Bytes} (hv : v ∈ vowels) (hraw : toLower raw = v.1) :
    turns (utf8 "nn") (raw :: ascii) = true :: turns [] ascii := by
  have hvowel : ∀ v ∈ vowels, isVowelOrY v.1 = true ∧ v.1 ≠ 0x79 := by decide
  obtain ⟨hkey, hne⟩ := hvowel v hv
  rw [turns, feed_vowel hv hraw, if_pos ⟨rfl, by rw [hraw]; exact hkey⟩, hraw]
  simp [hne, converterAt]

/-- `y` can if a vowel follows that it takes. -/
theorem turns_y (hraw : toLower raw = 0x79) :
    turns (utf8 "nn") (raw :: ascii) = startsGlide ascii :: turns [0x6e, 0x79] ascii := by
  rw [turns, feed_y hraw, if_pos ⟨rfl, by rw [hraw]; decide⟩, hraw, consumes_zero]
  simp [converterAt]

/-- Any other key is at no position. -/
theorem turns_other {pending : Bytes}
    (h : ¬ (pending = utf8 "nn" ∧ isVowelOrY (toLower raw) = true)) :
    turns pending (raw :: ascii) = turns ((converterAt 0 0 pending).feed raw).1.pending ascii := by
  rw [turns, if_neg h]

/-- **A mask that turns only what can be turned leaves as many letters, and
meets the same positions.** The induction keeps the two runs in step. -/
theorem lettersLeft_of_turnable {pending default : Bytes} (hstep : InStep pending default ascii)
    (hmask : Turnable mask seen (turns default ascii)) :
    lettersLeft mask seen pending ascii = lettersLeft 0 seen default ascii
      ∧ seenAfter mask seen pending ascii = seen + (turns default ascii).length := by
  induction ascii generalizing seen pending default with
  | nil =>
    obtain rfl | ⟨-, -, hglide⟩ := hstep
    · exact ⟨rfl, rfl⟩
    · exact absurd hglide (by decide)
  | cons raw ascii ih =>
    obtain rfl | ⟨rfl, rfl, hglide⟩ := hstep
    · by_cases hposition : pending = utf8 "nn" ∧ isVowelOrY (toLower raw) = true
      · obtain ⟨rfl, hraw⟩ := hposition
        obtain hy | ⟨v, hv, hvowel⟩ := key_at_position hraw
        · rw [turns_y hy] at hmask ⊢
          obtain ⟨hletters, hseen⟩ := ih hmask.inStep hmask.tail
          unfold lettersLeft at hletters ⊢
          rw [(rest_cons (feed_y hy)).1, (rest_cons (feed_y hy)).1, (rest_cons (feed_y hy)).2,
            consumes_zero, asciiLetters_append, asciiLetters_append, hletters, hseen,
            List.length_cons]
          exact ⟨rfl, by omega⟩
        · have hkana : ∀ v ∈ vowels, asciiLetters (utf8 "ん" ++ v.2.1) = 0
              ∧ asciiLetters (utf8 "ん" ++ v.2.2) = 0 := by decide
          rw [turns_vowel hv hvowel] at hmask ⊢
          obtain ⟨hletters, hseen⟩ := ih (Or.inl rfl) hmask.tail
          have hout : asciiLetters (utf8 "ん" ++ if consumes mask seen then v.2.1 else v.2.2) = 0 := by
            by_cases hturn : consumes mask seen = true
            · rw [if_pos hturn]
              exact (hkana v hv).1
            · rw [if_neg hturn]
              exact (hkana v hv).2
          have hdefault : asciiLetters (utf8 "ん" ++ if consumes 0 seen then v.2.1 else v.2.2) = 0 := by
            rw [consumes_zero]
            exact (hkana v hv).2
          unfold lettersLeft at hletters ⊢
          rw [(rest_cons (feed_vowel hv hvowel)).1, (rest_cons (feed_vowel hv hvowel)).1,
            (rest_cons (feed_vowel hv hvowel)).2, asciiLetters_append _ (rest mask _ _ _),
            asciiLetters_append _ (rest 0 _ _ _), hout, hdefault, hletters, hseen, List.length_cons]
          exact ⟨rfl, by omega⟩
      · rw [turns_other hposition] at hmask ⊢
        unfold lettersLeft at ih ⊢
        rw [(rest_cons (feed_other hposition mask seen)).1,
          (rest_cons (feed_other hposition 0 seen)).1,
          (rest_cons (feed_other hposition mask seen)).2, asciiLetters_append, asciiLetters_append,
          (ih (Or.inl rfl) hmask).1, (ih (Or.inl rfl) hmask).2]
        exact ⟨rfl, rfl⟩
    · obtain ⟨g, hg, hfeed⟩ := feed_glide hglide
      have hkana : ∀ g ∈ glides, asciiLetters g.2.1 = 0 ∧ asciiLetters g.2.2 = 0 := by decide
      have hother : ¬ (([0x6e, 0x79] : Bytes) = utf8 "nn" ∧ isVowelOrY (toLower raw) = true) :=
        fun h => absurd h.1 (by decide)
      rw [turns_other hother, (hfeed 0 0).2] at hmask ⊢
      obtain ⟨hletters, hseen⟩ := ih (Or.inl rfl) hmask
      unfold lettersLeft at hletters ⊢
      rw [(rest_cons (hfeed mask seen).1).1, (rest_cons (hfeed 0 seen).2).1,
        (rest_cons (hfeed mask seen).1).2, asciiLetters_append, asciiLetters_append,
        (hkana g hg).1, (hkana g hg).2]
      exact ⟨congrArg (0 + ·) hletters, hseen⟩

/-- **Turning one position that cannot be turned changes the number of
letters.** -/
theorem lettersLeft_ne {pending : Bytes} {j : ℕ} (hj : (turns pending ascii)[j]? = some false)
    (hmask : ∀ i, seen ≤ i → consumes mask i = decide (i = seen + j)) :
    lettersLeft mask seen pending ascii ≠ lettersLeft 0 seen pending ascii := by
  induction ascii generalizing seen pending j with
  | nil => exact absurd hj (by simp [turns])
  | cons raw ascii ih =>
    by_cases hposition : pending = utf8 "nn" ∧ isVowelOrY (toLower raw) = true
    · obtain ⟨rfl, hraw⟩ := hposition
      obtain hy | ⟨v, hv, hvowel⟩ := key_at_position hraw
      · rw [turns_y hy] at hj
        unfold lettersLeft at ih ⊢
        rw [(rest_cons (feed_y hy)).1, (rest_cons (feed_y hy)).1, consumes_zero,
          asciiLetters_append, asciiLetters_append]
        cases j with
        | zero =>
          have hglide : startsGlide ascii = false := by simpa using hj
          have hturn : consumes mask seen = true := by simp [hmask seen le_rfl]
          have hsame : rest mask (seen + 1) [0x79] ascii = rest 0 (seen + 1) [0x79] ascii := by
            refine rest_congr (fun i hi => ?_)
            rw [hmask i (Nat.le_of_succ_le hi), consumes_zero]
            exact decide_eq_false (by omega)
          rw [if_pos hturn, hsame]
          intro heq
          exact lettersLeft_ny hglide (Nat.add_left_cancel heq)
        | succ j =>
          have hturn : consumes mask seen = false := by
            rw [hmask seen le_rfl]
            exact decide_eq_false (by omega)
          have hnext : (turns [0x6e, 0x79] ascii)[j]? = some false := by simpa using hj
          rw [hturn]
          intro heq
          refine ih hnext (fun i hi => ?_) (Nat.add_left_cancel heq)
          rw [hmask i (Nat.le_of_succ_le hi)]
          exact decide_eq_decide.mpr (by omega)
      · rw [turns_vowel hv hvowel] at hj
        unfold lettersLeft at ih ⊢
        cases j with
        | zero => exact absurd hj (by simp)
        | succ j =>
          have hturn : consumes mask seen = false := by
            rw [hmask seen le_rfl]
            exact decide_eq_false (by omega)
          have hnext : (turns [] ascii)[j]? = some false := by simpa using hj
          rw [(rest_cons (feed_vowel hv hvowel)).1, (rest_cons (feed_vowel hv hvowel)).1,
            consumes_zero, hturn, asciiLetters_append _ (rest mask _ _ _),
            asciiLetters_append _ (rest 0 _ _ _)]
          intro heq
          refine ih hnext (fun i hi => ?_) (Nat.add_left_cancel heq)
          rw [hmask i (Nat.le_of_succ_le hi)]
          exact decide_eq_decide.mpr (by omega)
    · rw [turns_other hposition] at hj
      unfold lettersLeft at ih ⊢
      rw [(rest_cons (feed_other hposition mask seen)).1,
        (rest_cons (feed_other hposition 0 seen)).1, asciiLetters_append, asciiLetters_append]
      intro heq
      exact ih hj hmask (Nat.add_left_cancel heq)

/-- Texts with different first kana differ. -/
theorem append_ne_of_take {x y : Bytes} (h : 3 ≤ x.length ∧ 3 ≤ y.length ∧ x.take 3 ≠ y.take 3)
    (s t : Bytes) : x ++ s ≠ y ++ t := by
  obtain ⟨hx, hy, hne⟩ := h
  intro heq
  have htake := congrArg (List.take 3) heq
  rw [List.take_append_of_le_length hx, List.take_append_of_le_length hy] at htake
  exact hne htake

/-- **A turned position shows** in what is printed from there on. -/
theorem rest_ne_at_position {mask' : ℕ} (hraw : isVowelOrY (toLower raw) = true)
    (hmask : Turnable mask seen (turns (utf8 "nn") (raw :: ascii)))
    (hturn : consumes mask seen = true) (hkeep : consumes mask' seen = false) :
    rest mask seen (utf8 "nn") (raw :: ascii) ≠ rest mask' seen (utf8 "nn") (raw :: ascii) := by
  have hkana : ∀ k ∈ vowels ++ glides,
      3 ≤ k.2.1.length ∧ 3 ≤ k.2.2.length ∧ k.2.1.take 3 ≠ k.2.2.take 3 := by decide
  obtain hy | ⟨v, hv, hvowel⟩ := key_at_position hraw
  · rw [turns_y hy] at hmask
    have hglide : startsGlide ascii = true := hmask.head hturn
    cases ascii with
    | nil => exact absurd hglide (by decide)
    | cons next ascii =>
      obtain ⟨g, hg, hfeed⟩ := feed_glide hglide
      rw [(rest_cons (feed_y hy)).1, (rest_cons (feed_y hy)).1, if_pos hturn, hkeep,
        (rest_cons (hfeed mask (seen + 1)).1).1]
      intro heq
      have hnext := List.append_cancel_left heq
      rw [if_neg (by simp), (rest_cons (hfeed mask' (seen + 1)).2).1] at hnext
      exact append_ne_of_take (hkana g (List.mem_append_right _ hg)) _ _ hnext
  · rw [(rest_cons (feed_vowel hv hvowel)).1, (rest_cons (feed_vowel hv hvowel)).1, if_pos hturn,
      hkeep, List.append_assoc, List.append_assoc]
    intro heq
    exact append_ne_of_take (hkana v (List.mem_append_left _ hv)) _ _ (List.append_cancel_left heq)

/-- **Masks that turn different positions print different texts.** -/
theorem rest_ne {mask' : ℕ} {pending default : Bytes} (hstep : InStep pending default ascii)
    (hmask : Turnable mask seen (turns default ascii))
    (hmask' : Turnable mask' seen (turns default ascii)) {i : ℕ} (hi : i < (turns default ascii).length)
    (hne : consumes mask (seen + i) ≠ consumes mask' (seen + i)) :
    rest mask seen pending ascii ≠ rest mask' seen pending ascii := by
  induction ascii generalizing seen pending default i with
  | nil => exact absurd hi (by simp [turns])
  | cons raw ascii ih =>
    obtain rfl | ⟨rfl, rfl, hglide⟩ := hstep
    · by_cases hposition : pending = utf8 "nn" ∧ isVowelOrY (toLower raw) = true
      · obtain ⟨rfl, hraw⟩ := hposition
        by_cases hsame : consumes mask seen = consumes mask' seen
        · cases i with
          | zero => exact absurd hsame hne
          | succ i =>
            have hnext : consumes mask (seen + 1 + i) ≠ consumes mask' (seen + 1 + i) := by
              rw [Nat.add_assoc, Nat.add_comm 1 i]
              exact hne
            obtain hy | ⟨v, hv, hvowel⟩ := key_at_position hraw
            · rw [turns_y hy] at hmask hmask' hi
              rw [(rest_cons (feed_y hy)).1, (rest_cons (feed_y hy)).1, hsame]
              intro heq
              exact ih hmask'.inStep hmask.tail hmask'.tail (Nat.lt_of_succ_lt_succ hi) hnext
                (List.append_cancel_left heq)
            · rw [turns_vowel hv hvowel] at hmask hmask' hi
              rw [(rest_cons (feed_vowel hv hvowel)).1, (rest_cons (feed_vowel hv hvowel)).1, hsame]
              intro heq
              exact ih (Or.inl rfl) hmask.tail hmask'.tail (Nat.lt_of_succ_lt_succ hi) hnext
                (List.append_cancel_left heq)
        · by_cases hturn : consumes mask seen = true
          · have hkeep : consumes mask' seen = false := by
              by_contra hkeep
              exact hsame (hturn.trans (Bool.eq_true_of_not_eq_false hkeep).symm)
            exact rest_ne_at_position hraw hmask hturn hkeep
          · have hkeep : consumes mask seen = false := Bool.eq_false_of_not_eq_true hturn
            have hturn' : consumes mask' seen = true := by
              by_contra hturn'
              exact hsame (hkeep.trans (Bool.eq_false_of_not_eq_true hturn').symm)
            exact (rest_ne_at_position hraw hmask' hturn' hkeep).symm
      · rw [turns_other hposition] at hmask hmask' hi
        rw [(rest_cons (feed_other hposition mask seen)).1,
          (rest_cons (feed_other hposition mask' seen)).1]
        intro heq
        exact ih (Or.inl rfl) hmask hmask' hi hne (List.append_cancel_left heq)
    · obtain ⟨g, hg, hfeed⟩ := feed_glide hglide
      have hother : ¬ (([0x6e, 0x79] : Bytes) = utf8 "nn" ∧ isVowelOrY (toLower raw) = true) :=
        fun h => absurd h.1 (by decide)
      rw [turns_other hother, (hfeed 0 0).2] at hmask hmask' hi
      rw [(rest_cons (hfeed mask seen).1).1, (rest_cons (hfeed mask' seen).1).1]
      intro heq
      exact ih (Or.inl rfl) hmask hmask' hi hne (List.append_cancel_left heq)

end Positions

/-! ## The masks -/

/-- The bit of a position. -/
theorem consumes_eq_testBit (mask position : ℕ) :
    consumes mask position = (decide (position < 32) && mask.testBit position) := by
  unfold consumes Nat.testBit
  rw [Nat.and_comm]

/-- A mask of one bit. -/
theorem consumes_bit {j : ℕ} (hj : j < 32) (i : ℕ) : consumes (1 <<< j) i = decide (i = j) := by
  rw [consumes_eq_testBit, Nat.one_shiftLeft, Nat.testBit_two_pow]
  by_cases h : i = j
  · simp [h, hj]
  · rw [decide_eq_false h, decide_eq_false (fun h' : j = i => h h'.symm), Bool.and_false]

/-- The bits of the positions that vary. -/
theorem testBit_validMask (ascii : Bytes) (table : Option CustomRomajiTable) (varied i : ℕ) :
    (validMask ascii table varied).testBit i = true ↔ i < varied
      ∧ asciiLetters (convertWithMask ascii table (1 <<< i)).1
        = asciiLetters (convertWithMask ascii table 0).1 := by
  induction varied with
  | zero => simp [validMask]
  | succ n ih =>
    have hsucc : validMask ascii table (n + 1)
        = if asciiLetters (convertWithMask ascii table (1 <<< n)).1
            = asciiLetters (convertWithMask ascii table 0).1
          then validMask ascii table n ||| 1 <<< n else validMask ascii table n := by
      unfold validMask
      rw [List.range_succ, List.foldl_append]
      rfl
    rw [hsucc]
    by_cases hn : asciiLetters (convertWithMask ascii table (1 <<< n)).1
        = asciiLetters (convertWithMask ascii table 0).1
    · have hbit : (1 <<< n).testBit i = decide (n = i) := by
        rw [Nat.one_shiftLeft, Nat.testBit_two_pow]
      rw [if_pos hn, Nat.testBit_or, Bool.or_eq_true, ih, hbit, decide_eq_true_eq,
        Nat.lt_succ_iff_lt_or_eq]
      constructor
      · rintro (⟨hi, hletters⟩ | rfl)
        · exact ⟨Or.inl hi, hletters⟩
        · exact ⟨Or.inr rfl, hn⟩
      · rintro ⟨hi | rfl, hletters⟩
        · exact Or.inl ⟨hi, hletters⟩
        · exact Or.inr rfl
    · rw [if_neg hn, ih, Nat.lt_succ_iff_lt_or_eq]
      constructor
      · rintro ⟨hi, hletters⟩
        exact ⟨Or.inl hi, hletters⟩
      · rintro ⟨hi | rfl, hletters⟩
        · exact ⟨hi, hletters⟩
        · exact absurd hletters hn

/-- The positions that vary. -/
def variedPositions (ascii : Bytes) (maxAmbiguous : ℕ) : ℕ :=
  min (min (convertWithMask ascii none 0).2 maxAmbiguous) maxAmbiguousDoubleN

/-- The masks of the readings. -/
def readingMasks (ascii : Bytes) (maxAmbiguous : ℕ) : List ℕ :=
  0 :: (List.range' 1 ((1 <<< variedPositions ascii maxAmbiguous) - 1)).filter (fun mask =>
    mask &&& (0xffffffff ^^^ validMask ascii none (variedPositions ascii maxAmbiguous)) = 0)

/-- Every reading is the conversion with its mask. -/
theorem ambiguousReadings_eq (ascii : Bytes) (maxAmbiguous : ℕ) :
    ambiguousReadings ascii none maxAmbiguous
      = (readingMasks ascii maxAmbiguous).map (fun mask => rest mask 0 [] ascii) := rfl

section Masks

variable {ascii : Bytes} {maxAmbiguous mask : ℕ}

/-- There are as many positions as the text has. -/
theorem seenAfter_default : (convertWithMask ascii none 0).2 = (turns [] ascii).length := by
  have hmask : Turnable 0 0 (turns [] ascii) := fun i _ => consumes_zero _
  rw [convertWithMask_eq, (lettersLeft_of_turnable (Or.inl rfl) hmask).2, Nat.zero_add]

/-- A mask is no larger than its positions allow. -/
theorem lt_of_mem_readingMasks (h : mask ∈ readingMasks ascii maxAmbiguous) :
    mask < 2 ^ variedPositions ascii maxAmbiguous := by
  have hpos : 0 < 2 ^ variedPositions ascii maxAmbiguous := Nat.two_pow_pos _
  unfold readingMasks at h
  rw [List.mem_cons, List.mem_filter, List.mem_range'_1, Nat.one_shiftLeft] at h
  obtain rfl | ⟨⟨-, hlt⟩, -⟩ := h
  · exact hpos
  · omega

/-- **The masks turn only what can be turned**: what was tried alone. -/
theorem turnable_of_mem_readingMasks (h : mask ∈ readingMasks ascii maxAmbiguous) :
    Turnable mask 0 (turns [] ascii) := by
  intro i hfalse
  rw [Nat.zero_add]
  by_contra hturn
  have hturn : consumes mask i = true := Bool.eq_true_of_not_eq_false hturn
  rw [consumes_eq_testBit, Bool.and_eq_true, decide_eq_true_eq] at hturn
  obtain ⟨hi, hbit⟩ := hturn
  -- The bit is set in the mask of the positions that vary.
  have hvalid : (validMask ascii none (variedPositions ascii maxAmbiguous)).testBit i = true := by
    unfold readingMasks at h
    rw [List.mem_cons, List.mem_filter] at h
    obtain rfl | ⟨-, hand⟩ := h
    · exact absurd hbit (by simp)
    · by_contra hvalid
      have hzero := congrArg (Nat.testBit · i) (of_decide_eq_true hand)
      have hones : Nat.testBit 0xffffffff i = true := by
        rw [show 0xffffffff = 2 ^ 32 - 1 by rfl, Nat.testBit_two_pow_sub_one]
        exact decide_eq_true hi
      simp [hbit, hones, hvalid] at hzero
  -- Alone it would change the number of letters.
  obtain ⟨-, hletters⟩ := (testBit_validMask ascii none _ i).mp hvalid
  have hne : lettersLeft (1 <<< i) 0 [] ascii ≠ lettersLeft 0 0 [] ascii := by
    refine lettersLeft_ne hfalse (fun j _ => ?_)
    rw [consumes_bit hi, Nat.zero_add]
  exact hne hletters

/-- Two masks that turn the same positions are equal. -/
theorem eq_of_consumes {mask' : ℕ} (h : mask ∈ readingMasks ascii maxAmbiguous)
    (h' : mask' ∈ readingMasks ascii maxAmbiguous)
    (hsame : ∀ i < (turns [] ascii).length, consumes mask i = consumes mask' i) : mask = mask' := by
  have hthree : variedPositions ascii maxAmbiguous ≤ 3 := min_le_right _ _
  have hpositions : variedPositions ascii maxAmbiguous ≤ (turns [] ascii).length := by
    rw [← seenAfter_default]
    exact (min_le_left _ _).trans (min_le_left _ _)
  refine Nat.eq_of_testBit_eq (fun i => ?_)
  by_cases hi : i < variedPositions ascii maxAmbiguous
  · have hbit := hsame i (hi.trans_le hpositions)
    rw [consumes_eq_testBit, consumes_eq_testBit, decide_eq_true (by omega), Bool.true_and,
      Bool.true_and] at hbit
    exact hbit
  · have hpow : 2 ^ variedPositions ascii maxAmbiguous ≤ 2 ^ i :=
      Nat.pow_le_pow_right Nat.two_pos (Nat.not_lt.mp hi)
    rw [Nat.testBit_lt_two_pow ((lt_of_mem_readingMasks h).trans_le hpow),
      Nat.testBit_lt_two_pow ((lt_of_mem_readingMasks h').trans_le hpow)]

/-- The masks differ. -/
theorem nodup_readingMasks : (readingMasks ascii maxAmbiguous).Nodup := by
  unfold readingMasks
  refine List.nodup_cons.mpr ⟨fun h => ?_, (List.nodup_range' _).filter _⟩
  have hone := (List.mem_range'_1.mp (List.mem_filter.mp h).1).1
  omega

/-- There are at most eight. -/
theorem length_readingMasks : (readingMasks ascii maxAmbiguous).length ≤ 8 := by
  have hthree : variedPositions ascii maxAmbiguous ≤ 3 := min_le_right _ _
  have hpow : 2 ^ variedPositions ascii maxAmbiguous ≤ 2 ^ 3 :=
    Nat.pow_le_pow_right Nat.two_pos hthree
  have hpos : 0 < 2 ^ variedPositions ascii maxAmbiguous := Nat.two_pow_pos _
  unfold readingMasks
  have hfilter := List.length_filter_le (fun mask => decide (mask &&& (0xffffffff
    ^^^ validMask ascii none (variedPositions ascii maxAmbiguous)) = 0))
    (List.range' 1 ((1 <<< variedPositions ascii maxAmbiguous) - 1))
  rw [List.length_range', Nat.one_shiftLeft] at hfilter
  rw [List.length_cons, Nat.one_shiftLeft]
  omega

end Masks

/-- **The readings of a text with doubled n.** The first is the one that is
committed, no two are equal, there are at most eight, and all of them leave the
same number of letters, also those that turn several positions at once. -/
theorem ambiguousReadings_spec (ascii : Bytes) (maxAmbiguous : ℕ) :
    (ambiguousReadings ascii none maxAmbiguous).head? = some (convertForCommit ascii none)
      ∧ (ambiguousReadings ascii none maxAmbiguous).Nodup
      ∧ (ambiguousReadings ascii none maxAmbiguous).length ≤ 8
      ∧ ∀ reading ∈ ambiguousReadings ascii none maxAmbiguous,
        asciiLetters reading = asciiLetters (convertForCommit ascii none) := by
  rw [ambiguousReadings_eq]
  refine ⟨rfl, ?_, ?_, ?_⟩
  · refine List.Nodup.map_on (fun mask h mask' h' heq => ?_) nodup_readingMasks
    refine eq_of_consumes h h' (fun i hi => ?_)
    by_contra hne
    refine rest_ne (Or.inl rfl) (turnable_of_mem_readingMasks h) (turnable_of_mem_readingMasks h') hi
      ?_ heq
    rw [Nat.zero_add]
    exact hne
  · rw [List.length_map]
    exact length_readingMasks
  · intro reading hreading
    obtain ⟨mask, hmask, rfl⟩ := List.mem_map.mp hreading
    exact (lettersLeft_of_turnable (Or.inl rfl) (turnable_of_mem_readingMasks hmask)).1

/-- Both readings of `onna`, and the one of `onny`. -/
example : ambiguousReadings (utf8 "onna") none 3 = [utf8 "おんな", utf8 "おんあ"]
    ∧ ambiguousReadings (utf8 "onny") none 3 = [utf8 "おんny"] := by decide +kernel

end AzooKey.Core.RomajiKanaConverter

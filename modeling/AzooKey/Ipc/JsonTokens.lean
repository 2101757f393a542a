import AzooKey.Ipc.Json
import AzooKey.Lib.Utf8

/-!
# The strings and numbers of the JSON reader

What the readers of the tokens accept, stated on texts. `UnitText` is one
character of a string, raw or escaped, with the bytes it denotes, and
`StringText` the characters between the quotes; the numbers are the numerals
of `from_chars`. Each reader is shown to accept exactly its tokens, and what
`EscapeString` writes to be one that denotes the text it was given.
-/

namespace AzooKey.Ipc.Json

/-! ## Strings -/

/-- **A character of a string**: its text, and the bytes it denotes. -/
inductive UnitText : Bytes → Bytes → Prop
  /-- A raw scalar that is no control character, quote or backslash. -/
  | raw {c : UInt8} {tail : Bytes} : isScalar (c :: tail) = true → 0x20 ≤ c → c ≠ 0x22 →
      c ≠ 0x5c → UnitText (c :: tail) (c :: tail)
  /-- An escape of one letter. -/
  | letter {esc c : UInt8} : letterEscape esc = some c → UnitText [0x5c, esc] [c]
  /-- The escape of a scalar by four digits. -/
  | unicode {digits : Bytes} {codepoint : ℕ} {bytes : Bytes} :
      readHexCodepoint digits = some (codepoint, []) → appendUtf8 codepoint = some bytes →
      UnitText (0x5c :: 0x75 :: digits) bytes
  /-- The escape of a scalar by a surrogate pair. -/
  | pair {digits digits' : Bytes} {high low : ℕ} {bytes : Bytes} :
      readHexCodepoint digits = some (high, []) → 0xD800 ≤ high → high ≤ 0xDBFF →
      readHexCodepoint digits' = some (low, []) → 0xDC00 ≤ low → low ≤ 0xDFFF →
      appendUtf8 (0x10000 + (((high - 0xD800) <<< 10) ||| (low - 0xDC00))) = some bytes →
      UnitText (0x5c :: 0x75 :: (digits ++ 0x5c :: 0x75 :: digits')) bytes

/-- **The characters of a string**: their text, and the bytes they denote. -/
inductive StringText : Bytes → Bytes → Prop
  | nil : StringText [] []
  | cons {unit character text denoted : Bytes} : UnitText unit character →
      StringText text denoted → StringText (unit ++ text) (character ++ denoted)

set_option maxRecDepth 10000 in
/-- A trailing byte has the bits the reader tests. -/
theorem isTrailing_iff : ∀ c : UInt8, isTrailing c = true ↔ c &&& 0xC0 = 0x80 := by
  decide

/-- The bytes after the lead of a sequence are trailing. -/
theorem isTrailing_of_isScalar {c : UInt8} {tail : Bytes} (h : isScalar (c :: tail) = true) :
    ∀ b ∈ tail, isTrailing b = true := by
  rcases isScalar_cases h with ⟨a, heq, -⟩ | ⟨a, b, heq, -, -, hb⟩ |
    ⟨a, b, b', heq, -, -, hb, hb', -⟩ | ⟨a, b, b', b'', heq, -, -, hb, hb', hb'', -⟩
  all_goals
    obtain ⟨-, rfl⟩ := List.cons.inj heq
    simp [*]

/-- The reader finds the length of a sequence. -/
theorem utf8SequenceLength_of_isScalar {c : UInt8} {tail : Bytes}
    (h : isScalar (c :: tail) = true) : utf8SequenceLength c = some (tail.length + 1) := by
  unfold utf8SequenceLength
  simp only [UInt8.lt_iff_toNat_lt, Bool.and_eq_true, decide_eq_true_eq, UInt8.le_iff_toNat_le]
  rcases isScalar_cases h with ⟨a, heq, h₁⟩ | ⟨a, b, heq, h₁, h₂, -⟩ |
    ⟨a, b, b', heq, h₁, h₂, -⟩ | ⟨a, b, b', b'', heq, h₁, h₂, -⟩
  all_goals
    obtain ⟨rfl, rfl⟩ := List.cons.inj heq
    simp only [UInt8.lt_iff_toNat_lt, UInt8.le_iff_toNat_le, UInt8.reduceToNat] at *
    repeat rw [if_neg (by omega)]
    rw [if_pos (by omega)]
    rfl

/-- **A raw character is read.** -/
theorem readCharacter_append {c : UInt8} {tail : Bytes} (h : isScalar (c :: tail) = true)
    (hc : 0x20 ≤ c) (rest : Bytes) : readCharacter c (tail ++ rest) = some (c :: tail, rest) := by
  have hany : tail.any (fun next => next &&& 0xC0 ≠ 0x80) = false := by
    rw [List.any_eq_false]
    intro b hb
    simpa using (isTrailing_iff b).mp (isTrailing_of_isScalar h b hb)
  have hsecond : (tail ++ rest).head?.any (secondOutside c (tail.length + 1)) = false := by
    unfold secondOutside
    rcases isScalar_cases h with ⟨a, heq, -⟩ | ⟨a, b, heq, -⟩ |
      ⟨a, b, b', heq, -, -, -, -, h₁, h₂⟩ | ⟨a, b, b', b'', heq, -, -, -, -, -, h₁, h₂⟩
    · obtain ⟨rfl, rfl⟩ := List.cons.inj heq
      cases rest <;> simp
    · obtain ⟨rfl, rfl⟩ := List.cons.inj heq
      simp
    · obtain ⟨rfl, rfl⟩ := List.cons.inj heq
      simp only [UInt8.lt_iff_toNat_lt, UInt8.le_iff_toNat_le, UInt8.reduceToNat] at h₁ h₂
      simp [UInt8.lt_iff_toNat_lt, UInt8.le_iff_toNat_le]
      exact ⟨h₁, h₂⟩
    · obtain ⟨rfl, rfl⟩ := List.cons.inj heq
      simp only [UInt8.lt_iff_toNat_lt, UInt8.le_iff_toNat_le, UInt8.reduceToNat] at h₁ h₂
      simp [UInt8.lt_iff_toNat_lt, UInt8.le_iff_toNat_le]
      exact ⟨h₁, fun hc => Nat.lt_succ_iff.mp (h₂ hc)⟩
  unfold readCharacter
  rw [if_neg (not_lt.mpr hc), utf8SequenceLength_of_isScalar h]
  simp only [Nat.add_sub_cancel, List.take_left, List.drop_left, List.length_append]
  rw [if_neg (by omega), if_neg (by rw [hany]; exact Bool.false_ne_true),
    if_neg (by rw [hsecond]; exact Bool.false_ne_true)]

/-- The shapes of a lead byte and its length. -/
theorem utf8SequenceLength_cases {c : UInt8} {length : ℕ} (h : utf8SequenceLength c = some length) :
    length = 1 ∧ c < 0x80 ∨ length = 2 ∧ 0xC2 ≤ c ∧ c ≤ 0xDF
      ∨ length = 3 ∧ 0xE0 ≤ c ∧ c ≤ 0xEF ∨ length = 4 ∧ 0xF0 ≤ c ∧ c ≤ 0xF4 := by
  unfold utf8SequenceLength at h
  split_ifs at h with h₁ h₂ h₃ h₄
  all_goals
    cases h
    simp_all

/-- **What is read as a raw character is a scalar.** -/
theorem readCharacter_eq_some {c : UInt8} {rest : Bytes} {r : Bytes × Bytes}
    (h : readCharacter c rest = some r) :
    ∃ tail, r.1 = c :: tail ∧ isScalar (c :: tail) = true ∧ 0x20 ≤ c ∧ rest = tail ++ r.2 := by
  unfold readCharacter at h
  split at h
  · cases h
  · rename_i hc
    split at h
    · cases h
    · rename_i length hlength
      split_ifs at h with hshort hany hsecond
      cases h
      refine ⟨rest.take (length - 1), rfl, ?_, not_lt.mp hc, (List.take_append_drop _ _).symm⟩
      have htrailing : ∀ b ∈ rest.take (length - 1), isTrailing b = true := by
        intro b hb
        rw [Bool.not_eq_true, List.any_eq_false] at hany
        exact (isTrailing_iff b).mpr (by simpa using hany b hb)
      -- as many bytes follow as the lead byte says
      rcases utf8SequenceLength_cases hlength with ⟨rfl, h₁⟩ | ⟨rfl, h₁, h₂⟩ | ⟨rfl, h₁, h₂⟩ |
        ⟨rfl, h₁, h₂⟩
      · simpa [isScalar] using h₁
      · obtain ⟨b, rest, rfl⟩ := List.exists_cons_of_length_pos (by omega : 0 < rest.length)
        have hb := htrailing b (by simp)
        simp [isScalar, h₁, h₂, hb]
      · obtain ⟨b, rest, rfl⟩ := List.exists_cons_of_length_pos (by omega : 0 < rest.length)
        rw [List.length_cons] at hshort
        obtain ⟨b', rest, rfl⟩ := List.exists_cons_of_length_pos (by omega : 0 < rest.length)
        have hb := htrailing b (by simp)
        have hb' := htrailing b' (by simp)
        simp only [secondOutside, List.head?_cons, Option.any_some, Nat.reduceBEq,
          Bool.true_and, Bool.false_and, Bool.or_false, Bool.or_eq_true, Bool.and_eq_true,
          decide_eq_true_eq, not_or, not_and, not_lt, not_le] at hsecond
        simp only [isScalar, List.take_succ_cons, List.take_zero, Bool.and_eq_true,
          Bool.or_eq_true, bne_iff_ne, decide_eq_true_eq]
        exact ⟨⟨⟨⟨⟨h₁, h₂⟩, hb⟩, hb'⟩, Classical.or_iff_not_imp_left.mpr
          (fun he => hsecond.1 (not_not.mp he))⟩, Classical.or_iff_not_imp_left.mpr
          (fun he => hsecond.2 (not_not.mp he))⟩
      · obtain ⟨b, rest, rfl⟩ := List.exists_cons_of_length_pos (by omega : 0 < rest.length)
        rw [List.length_cons] at hshort
        obtain ⟨b', rest, rfl⟩ := List.exists_cons_of_length_pos (by omega : 0 < rest.length)
        rw [List.length_cons] at hshort
        obtain ⟨b'', rest, rfl⟩ := List.exists_cons_of_length_pos (by omega : 0 < rest.length)
        have hb := htrailing b (by simp)
        have hb' := htrailing b' (by simp)
        have hb'' := htrailing b'' (by simp)
        simp only [secondOutside, List.head?_cons, Option.any_some, Nat.reduceBEq,
          Bool.true_and, Bool.false_and, Bool.false_or, Bool.or_eq_true, Bool.and_eq_true,
          decide_eq_true_eq, not_or, not_and, not_lt] at hsecond
        simp only [isScalar, List.take_succ_cons, List.take_zero, Bool.and_eq_true,
          Bool.or_eq_true, bne_iff_ne, decide_eq_true_eq]
        refine ⟨⟨⟨⟨⟨⟨h₁, h₂⟩, hb⟩, hb'⟩, hb''⟩, Classical.or_iff_not_imp_left.mpr
          (fun he => hsecond.1 (not_not.mp he))⟩, Classical.or_iff_not_imp_left.mpr
          (fun he => ?_)⟩
        have := hsecond.2 (not_not.mp he)
        simp only [UInt8.lt_iff_toNat_lt, UInt8.le_iff_toNat_le, UInt8.reduceToNat] at this ⊢
        omega

/-- Four digits are read, whatever follows. -/
theorem readHexCodepoint_append {digits : Bytes} {codepoint : ℕ}
    (h : readHexCodepoint digits = some (codepoint, [])) (rest : Bytes) :
    readHexCodepoint (digits ++ rest) = some (codepoint, rest) := by
  unfold readHexCodepoint at h
  split at h
  · split at h
    · rename_i ha hb hc hd
      cases h
      simp [readHexCodepoint, ha, hb, hc, hd]
    · cases h
  · cases h

/-- What was read as four digits are four digits. -/
theorem readHexCodepoint_eq_some {text rest : Bytes} {codepoint : ℕ}
    (h : readHexCodepoint text = some (codepoint, rest)) :
    ∃ digits, readHexCodepoint digits = some (codepoint, []) ∧ text = digits ++ rest := by
  unfold readHexCodepoint at h
  split at h
  · split at h
    · rename_i ha hb hc hd
      cases h
      exact ⟨[_, _, _, _], by simp only [readHexCodepoint, ha, hb, hc, hd], rfl⟩
    · cases h
  · cases h

/-- Surrogates have no bytes. -/
theorem appendUtf8_eq_none {codepoint : ℕ} (h : 0xD800 ≤ codepoint) (h' : codepoint ≤ 0xDFFF) :
    appendUtf8 codepoint = none := by
  unfold appendUtf8
  rw [if_pos (by simp [h, h'])]

/-- **A character is read, whatever follows.** -/
theorem readUnit_of_unitText {unit character : Bytes} (h : UnitText unit character) (rest : Bytes) :
    ∃ c tail, unit = c :: tail ∧ c ≠ 0x22
      ∧ readUnit c (tail ++ rest) = some (character, rest) := by
  cases h with
  | raw hscalar hc hquote hslash =>
    refine ⟨_, _, rfl, hquote, ?_⟩
    unfold readUnit
    rw [if_neg hslash]
    exact readCharacter_append hscalar hc rest
  | @letter esc c hletter =>
    refine ⟨_, _, rfl, by decide, ?_⟩
    have hesc : esc ≠ 0x75 := by
      rintro rfl
      rw [(by decide : letterEscape 0x75 = none)] at hletter
      cases hletter
    simp only [readUnit, if_true, List.cons_append, List.nil_append, readEscape, if_neg hesc,
      hletter, Option.map_some]
  | @unicode digits codepoint bytes hdigits hbytes =>
    refine ⟨_, _, rfl, by decide, ?_⟩
    have hhigh : ¬ (0xD800 ≤ codepoint ∧ codepoint ≤ 0xDBFF) := by
      rintro ⟨h₁, h₂⟩
      rw [appendUtf8_eq_none h₁ (by omega)] at hbytes
      cases hbytes
    have hlow : ¬ (0xDC00 ≤ codepoint ∧ codepoint ≤ 0xDFFF) := by
      rintro ⟨h₁, h₂⟩
      rw [appendUtf8_eq_none (by omega) h₂] at hbytes
      cases hbytes
    simp only [readUnit, if_true, List.cons_append, readEscape, readUnicodeEscape,
      readHexCodepoint_append hdigits, Bool.and_eq_true, decide_eq_true_eq, if_neg hhigh,
      if_neg hlow, hbytes, Option.map_some]
  | @pair digits digits' high low bytes hdigits h₁ h₂ hdigits' h₃ h₄ hbytes =>
    refine ⟨_, _, rfl, by decide, ?_⟩
    have hlow : (decide (low < 0xDC00) || decide (0xDFFF < low)) = false := by
      simp only [Bool.or_eq_false_iff, decide_eq_false_iff_not]
      omega
    simp only [readUnit, if_true, List.cons_append, List.append_assoc, readEscape,
      readUnicodeEscape, readHexCodepoint_append hdigits, Bool.and_eq_true, decide_eq_true_eq,
      h₁, h₂, and_self, readLowSurrogate, readHexCodepoint_append hdigits', hlow,
      Bool.false_eq_true, if_false, hbytes, Option.map_some]

/-- **What is read as a character is one.** -/
theorem unitText_of_readUnit {c : UInt8} {rest : Bytes} {r : Bytes × Bytes} (hquote : c ≠ 0x22)
    (h : readUnit c rest = some r) : ∃ unit, UnitText unit r.1 ∧ c :: rest = unit ++ r.2 := by
  unfold readUnit at h
  split at h
  · rename_i hslash
    subst hslash
    cases rest with
    | nil => cases h
    | cons esc rest =>
      simp only [readEscape] at h
      split at h
      · rename_i hu
        subst hu
        unfold readUnicodeEscape at h
        split at h
        · cases h
        · rename_i codepoint rest' hread
          obtain ⟨digits, hdigits, rfl⟩ := readHexCodepoint_eq_some hread
          split at h
          · rename_i hhigh
            simp only [Bool.and_eq_true, decide_eq_true_eq] at hhigh
            split at h
            · cases h
            · rename_i low rest'' hlow
              obtain ⟨bytes, hbytes, rfl⟩ := Option.map_eq_some_iff.mp h
              unfold readLowSurrogate at hlow
              split at hlow
              · split at hlow
                · rename_i hescape
                  simp only [Bool.and_eq_true, decide_eq_true_eq] at hescape
                  obtain ⟨rfl, rfl⟩ := hescape
                  split at hlow
                  · cases hlow
                  · rename_i hread'
                    obtain ⟨digits', hdigits', rfl⟩ := readHexCodepoint_eq_some hread'
                    split at hlow
                    · cases hlow
                    · rename_i hrange
                      cases hlow
                      simp only [Bool.or_eq_true, decide_eq_true_eq, not_or, not_lt] at hrange
                      exact ⟨_, UnitText.pair hdigits hhigh.1 hhigh.2 hdigits' hrange.1 hrange.2
                        hbytes, by simp⟩
                · cases hlow
              · cases hlow
          · split at h
            · cases h
            · obtain ⟨bytes, hbytes, rfl⟩ := Option.map_eq_some_iff.mp h
              exact ⟨_, UnitText.unicode hdigits hbytes, by simp⟩
      · obtain ⟨d, hd, rfl⟩ := Option.map_eq_some_iff.mp h
        exact ⟨_, UnitText.letter hd, rfl⟩
  · rename_i hslash
    obtain ⟨tail, hfst, hscalar, hc, rfl⟩ := readCharacter_eq_some h
    rw [hfst]
    exact ⟨_, UnitText.raw hscalar hc hquote hslash, rfl⟩

/-- **The reader of a string accepts its grammar.** -/
theorem readStringBody_eq_some_iff {text denoted rest : Bytes} :
    readStringBody text = some (denoted, rest)
      ↔ ∃ body, StringText body denoted ∧ text = body ++ 0x22 :: rest := by
  constructor
  · intro h
    induction text using readStringBody.induct generalizing denoted with
    | case1 => rw [readStringBody] at h; cases h
    | case2 tail =>
      rw [readStringBody, if_pos rfl] at h
      cases h
      exact ⟨[], .nil, rfl⟩
    | case3 c tail hc hnone => rw [readStringBody, if_neg hc, hnone] at h; cases h
    | case4 c tail hc character tail' hsome ih =>
      rw [readStringBody, if_neg hc, hsome] at h
      obtain ⟨s, hs, heq⟩ := Option.map_eq_some_iff.mp h
      cases heq
      obtain ⟨body, hbody, htail⟩ := ih hs
      obtain ⟨unit, hunit, hfirst⟩ := unitText_of_readUnit hc hsome
      refine ⟨unit ++ body, .cons hunit hbody, ?_⟩
      rw [hfirst, List.append_assoc, ← htail]
  · rintro ⟨body, hbody, rfl⟩
    induction hbody with
    | nil => rw [List.nil_append, readStringBody, if_pos rfl]
    | @cons unit character body denoted hunit _ ih =>
      obtain ⟨c, tail, rfl, hc, hread⟩ := readUnit_of_unitText hunit (body ++ 0x22 :: rest)
      rw [List.append_assoc, List.cons_append, readStringBody, if_neg hc]
      split
      · rename_i hnone
        rw [hread] at hnone
        cases hnone
      · rename_i hsome
        rw [hread] at hsome
        cases hsome
        rw [ih]
        rfl

/-- A string between quotes is read. -/
theorem parseString_eq_some_iff {text denoted rest : Bytes} :
    parseString text = some (denoted, rest)
      ↔ ∃ body, StringText body denoted ∧ text = 0x22 :: (body ++ 0x22 :: rest) := by
  cases text with
  | nil => simp [parseString]
  | cons c text =>
    simp only [parseString, List.cons.injEq]
    split
    · rename_i hc
      rw [readStringBody_eq_some_iff]
      simp [hc]
    · rename_i hc
      simp [hc]

/-! ## What strings denote -/

/-- A lead byte with its high bits set. -/
theorem toNat_lead (high width : ℕ) {value : ℕ} (hvalue : value < 2 ^ width)
    (hhigh : 2 ^ width * high + value < 256) :
    (UInt8.ofNat ((high <<< width) ||| value)).toNat = 2 ^ width * high + value := by
  rw [← Nat.shiftLeft_add_eq_or_of_lt hvalue, Nat.shiftLeft_eq, UInt8.toNat_ofNat', mul_comm]
  exact Nat.mod_eq_of_lt hhigh

/-- A trailing byte made from six bits. -/
theorem isTrailing_ofNat (value : ℕ) :
    isTrailing (UInt8.ofNat (0x80 ||| (value &&& 0x3F))) = true
      ∧ (UInt8.ofNat (0x80 ||| (value &&& 0x3F))).toNat = 0x80 + value % 64 := by
  have hand : value &&& 0x3F = value % 64 := Nat.and_two_pow_sub_one_eq_mod value 6
  have htoNat : (UInt8.ofNat (0x80 ||| (value &&& 0x3F))).toNat = 0x80 + value % 64 := by
    have hlt : value % 64 < 2 ^ 6 := Nat.mod_lt _ (by norm_num)
    rw [hand]
    exact toNat_lead 2 6 hlt (by omega)
  refine ⟨?_, htoNat⟩
  simp only [isTrailing, Bool.and_eq_true, decide_eq_true_eq, UInt8.le_iff_toNat_le, htoNat,
    UInt8.reduceToNat]
  omega

/-- **`AppendUtf8` writes well-formed sequences.** -/
theorem isScalar_of_appendUtf8 {codepoint : ℕ} {bytes : Bytes}
    (h : appendUtf8 codepoint = some bytes) : isScalar bytes = true := by
  unfold appendUtf8 at h
  split_ifs at h with hbad h₁ h₂ h₃
  all_goals cases h
  · simp only [isScalar, decide_eq_true_eq, UInt8.lt_iff_toNat_lt, UInt8.toNat_ofNat',
      UInt8.reduceToNat]
    omega
  all_goals
    simp only [Bool.or_eq_true, decide_eq_true_eq, Bool.and_eq_true, not_or, not_and, not_lt,
      not_le] at hbad
  · have hlead : (UInt8.ofNat (0xC0 ||| (codepoint >>> 6))).toNat = 0xC0 + codepoint / 64 := by
      rw [Nat.shiftRight_eq_div_pow]
      exact toNat_lead 6 5 (by omega) (by omega)
    simp only [isScalar, Bool.and_eq_true, decide_eq_true_eq, UInt8.le_iff_toNat_le, hlead,
      UInt8.reduceToNat, (isTrailing_ofNat codepoint).1, and_true]
    omega
  · have hlead : (UInt8.ofNat (0xE0 ||| (codepoint >>> 12))).toNat = 0xE0 + codepoint / 4096 := by
      rw [Nat.shiftRight_eq_div_pow]
      exact toNat_lead 14 4 (by omega) (by omega)
    have hsecond := (isTrailing_ofNat (codepoint >>> 6)).2
    have hshift : codepoint >>> 6 = codepoint / 64 := Nat.shiftRight_eq_div_pow _ _
    simp only [isScalar, Bool.and_eq_true, Bool.or_eq_true, bne_iff_ne, ne_eq,
      decide_eq_true_eq, UInt8.le_iff_toNat_le, UInt8.lt_iff_toNat_lt, ← UInt8.toNat_inj, hlead,
      UInt8.reduceToNat, (isTrailing_ofNat _).1, hsecond, and_true]
    rw [hshift]
    omega
  · have hlead : (UInt8.ofNat (0xF0 ||| (codepoint >>> 18))).toNat
        = 0xF0 + codepoint / 262144 := by
      rw [Nat.shiftRight_eq_div_pow]
      exact toNat_lead 30 3 (by omega) (by omega)
    have hsecond := (isTrailing_ofNat (codepoint >>> 12)).2
    have hshift : codepoint >>> 12 = codepoint / 4096 := Nat.shiftRight_eq_div_pow _ _
    simp only [isScalar, Bool.and_eq_true, Bool.or_eq_true, bne_iff_ne, ne_eq,
      decide_eq_true_eq, UInt8.le_iff_toNat_le, UInt8.lt_iff_toNat_lt, ← UInt8.toNat_inj, hlead,
      UInt8.reduceToNat, (isTrailing_ofNat _).1, hsecond, and_true]
    rw [hshift]
    omega

/-- The escapes of one letter denote octets below `0x80`. -/
theorem letterEscape_lt : ∀ esc c : UInt8, letterEscape esc = some c → c < 0x80 := by
  intro esc c h
  unfold letterEscape at h
  split_ifs at h <;> cases h <;> decide

/-- **What a string denotes is valid UTF-8.** -/
theorem StringText.valid {text denoted : Bytes} (h : StringText text denoted) :
    ValidUtf8 denoted := by
  induction h with
  | nil => exact .nil
  | cons hunit _ ih =>
    cases hunit with
    | raw hscalar => exact .cons hscalar ih
    | letter hletter => exact (ValidUtf8.of_ascii (letterEscape_lt _ _ hletter)).append ih
    | unicode _ hbytes => exact .cons (isScalar_of_appendUtf8 hbytes) ih
    | pair _ _ _ _ _ _ hbytes => exact .cons (isScalar_of_appendUtf8 hbytes) ih

set_option maxRecDepth 10000 in
/-- An escaped control character is one of four digits. -/
theorem unitText_escapeByte_control : ∀ c : UInt8, c < 0x20 →
    readHexCodepoint (hexDigits c) = some (c.toNat, []) ∧ appendUtf8 c.toNat = some [c] := by
  decide

/-- An escaped octet below `0x80` is a character that denotes it. -/
theorem unitText_escapeByte {c : UInt8} (h : c < 0x80) : UnitText (escapeByte c) [c] := by
  unfold escapeByte
  split_ifs with h₁ h₂ h₃ h₄ h₅ h₆ h₇ h₈
  · subst h₁; exact .letter (by decide)
  · subst h₂; exact .letter (by decide)
  · subst h₃; exact .letter (by decide)
  · subst h₄; exact .letter (by decide)
  · subst h₅; exact .letter (by decide)
  · subst h₆; exact .letter (by decide)
  · subst h₇; exact .letter (by decide)
  · obtain ⟨hdigits, hbytes⟩ := unitText_escapeByte_control c h₈
    exact .unicode hdigits hbytes
  · exact .raw (by simpa [isScalar] using h) (not_lt.mp h₈) h₁ h₂

/-- An octet from `0x80` on is not escaped. -/
theorem escapeByte_of_le {c : UInt8} (h : 0x80 ≤ c) : escapeByte c = [c] := by
  have hne : ∀ d : UInt8, d < 0x80 → c ≠ d := fun d hd hcd => absurd h (by rw [hcd]; exact not_le.mpr hd)
  unfold escapeByte
  rw [if_neg (hne _ (by decide)), if_neg (hne _ (by decide)), if_neg (hne _ (by decide)),
    if_neg (hne _ (by decide)), if_neg (hne _ (by decide)), if_neg (hne _ (by decide)),
    if_neg (hne _ (by decide)), if_neg (not_lt.mpr (le_trans (by decide) h))]

/-- **An escaped text denotes the text.** -/
theorem stringText_escapeString {text : Bytes} (h : ValidUtf8 text) :
    StringText (escapeString text) text := by
  induction h with
  | nil => exact .nil
  | @cons scalar text hscalar _ ih =>
    have hsplit : escapeString (scalar ++ text) = escapeString scalar ++ escapeString text :=
      List.flatMap_append
    rw [hsplit]
    refine .cons ?_ ih
    obtain ⟨c, tail, rfl⟩ := List.exists_cons_of_ne_nil (ne_nil_of_isScalar hscalar)
    by_cases hc : c < 0x80
    · have htail : tail = [] := by
        have hlen := length_of_isScalar hscalar
        rw [scalarLength, if_pos hc, List.length_cons] at hlen
        exact List.length_eq_zero_iff.mp (by omega)
      subst htail
      simpa [escapeString] using unitText_escapeByte hc
    · have hbig : ∀ b ∈ c :: tail, escapeByte b = [b] := by
        intro b hb
        rcases List.mem_cons.mp hb with rfl | hb
        · exact escapeByte_of_le (not_lt.mp hc)
        · have := isTrailing_of_isScalar hscalar b hb
          simp only [isTrailing, Bool.and_eq_true, decide_eq_true_eq] at this
          exact escapeByte_of_le this.1
      have hid : escapeString (c :: tail) = c :: tail := by
        unfold escapeString
        rw [List.flatMap_congr hbig, List.flatMap_singleton']
      rw [hid]
      have hle := not_lt.mp hc
      exact .raw hscalar (le_trans (by decide) hle) (by rintro rfl; exact absurd hle (by decide))
        (by rintro rfl; exact absurd hle (by decide))

/-! ## Numbers -/

/-- A text that does not continue a number. -/
def Stops (text : Bytes) : Prop :=
  NoDigit text ∧ ∀ c ∈ text.head?, c ≠ 0x2e ∧ c ≠ 0x65 ∧ c ≠ 0x45

/-- A run of digits is skipped. -/
theorem skipDigits_append {digits rest : Bytes} (hne : digits ≠ [])
    (h : ∀ c ∈ digits, isDigitByte c = true) (hrest : NoDigit rest) :
    skipDigits (digits ++ rest) = some rest := by
  obtain ⟨c, tail, rfl⟩ := List.exists_cons_of_ne_nil hne
  have hspan := congrArg Prod.snd (spanDigits_append h hrest)
  unfold skipDigits
  rw [if_pos (by simpa using h c (by simp))]
  exact congrArg some hspan

/-- The whole part of a numeral is skipped. -/
theorem skipWhole_append (n : Numeral) {rest : Bytes} (hrest : NoDigit rest) :
    skipWhole (n.whole ++ rest) = some rest := by
  rcases n.whole_form with h | ⟨c, tail, h, hc⟩
  · rw [h, List.singleton_append, skipWhole, if_pos rfl, if_neg]
    cases rest with
    | nil => simp
    | cons d rest => simpa using hrest d rfl
  · have hdigit := n.whole_isDigit
    have hspan := congrArg Prod.snd (spanDigits_append hdigit hrest)
    rw [h] at hspan hdigit ⊢
    rw [List.cons_append, skipWhole, if_neg hc, if_pos]
    · exact congrArg some hspan
    · have hd := hdigit c (by simp)
      simp only [isDigitByte, Bool.and_eq_true, decide_eq_true_eq, UInt8.le_iff_toNat_le,
        UInt8.reduceToNat] at hd ⊢
      have hne : c.toNat ≠ 0x30 := fun h => hc (UInt8.toNat_inj.mp h)
      omega

/-- **A numeral is skipped whole**, when what follows does not continue it. -/
theorem skipNumber_append (n : Numeral) {rest : Bytes} (hrest : Stops rest) :
    skipNumber (n.text ++ rest) = some rest := by
  have hexpHead : NoDigit (n.exponentText ++ rest)
      ∧ ∀ c ∈ (n.exponentText ++ rest).head?, c ≠ 0x2e := by
    cases hexp : n.exponentText with
    | nil => exact ⟨hrest.1, fun c hc => (hrest.2 c hc).1⟩
    | cons c tail =>
      have := n.exponentText_head
      rw [hexp] at this
      exact this
  have hfracHead : NoDigit (n.fractionText ++ (n.exponentText ++ rest)) := by
    unfold Numeral.fractionText
    split
    · exact hexpHead.1
    · simp only [NoDigit, List.cons_append, List.head?_cons, Option.mem_def, Option.some.injEq,
        forall_eq']
      decide
  have hminus : skipMinus (n.text ++ rest)
      = n.whole ++ (n.fractionText ++ (n.exponentText ++ rest)) := by
    unfold skipMinus Numeral.text Numeral.signText
    cases n.negative with
    | true => simp
    | false =>
      simp only [Bool.false_eq_true, if_false, List.nil_append, List.append_assoc]
      rw [if_neg (n.whole_head _)]
  have hfraction : skipFraction (n.fractionText ++ (n.exponentText ++ rest))
      = some (n.exponentText ++ rest) := by
    unfold skipFraction Numeral.fractionText
    by_cases hnil : n.fraction = []
    · rw [if_pos hnil, List.nil_append, if_neg]
      exact fun h => hexpHead.2 _ h rfl
    · rw [if_neg hnil, List.cons_append, List.head?_cons, if_pos rfl, List.tail_cons]
      exact skipDigits_append hnil n.fraction_isDigit hexpHead.1
  have hexponent : skipExponent (n.exponentText ++ rest) = some rest := by
    unfold skipExponent Numeral.exponentText
    cases n.exponent with
    | none =>
      simp only [Option.map_none, Option.getD_none, List.nil_append]
      rw [if_neg]
      simp only [Bool.or_eq_true, decide_eq_true_eq, not_or]
      exact ⟨fun h => (hrest.2 _ h).2.1 rfl, fun h => (hrest.2 _ h).2.2 rfl⟩
    | some e =>
      simp only [Option.map_some, Option.getD_some, Numeral.Exponent.text, List.cons_append,
        List.head?_cons, List.tail_cons, List.append_assoc]
      rw [if_pos (by simpa using e.letter_form)]
      have hsign : skipSign (e.sign ++ (e.digits ++ rest)) = e.digits ++ rest := by
        obtain ⟨c, tail, hdigits⟩ := List.exists_cons_of_ne_nil e.digits_ne
        have hc := e.isDigit c (by simp [hdigits])
        unfold skipSign
        rcases e.sign_form with h | h | h
        · rw [h, List.nil_append, hdigits, List.cons_append, List.head?_cons, if_neg]
          simp only [Option.some.injEq, Bool.or_eq_true, decide_eq_true_eq, not_or]
          exact ⟨by rintro rfl; exact absurd hc (by decide),
            by rintro rfl; exact absurd hc (by decide)⟩
        · rw [h]; rfl
        · rw [h]; rfl
      rw [hsign]
      exact skipDigits_append e.digits_ne e.isDigit hrest.1
  unfold skipNumber
  simp only [hminus, skipWhole_append n hfracHead, hfraction, hexponent]

/-- **A number is read**, when what follows does not continue it. -/
theorem parseNumber_append (n : Numeral) {value : Binary64}
    (hvalue : parseFiniteDouble n.text = some value) {rest : Bytes} (hrest : Stops rest) :
    parseNumber (n.text ++ rest) = some (⟨.finite value, n.text⟩, rest) := by
  unfold parseNumber
  rw [skipNumber_append n hrest]
  simp [hvalue]

/-- **What is read as a number is a numeral.** -/
theorem parseNumber_eq_some {text rest : Bytes} {number : Number}
    (h : parseNumber text = some (number, rest)) :
    ∃ (n : Numeral) (value : Binary64), parseFiniteDouble n.text = some value
      ∧ number = ⟨.finite value, n.text⟩ ∧ text = n.text ++ rest := by
  unfold parseNumber at h
  split at h
  · cases h
  · rename_i rest' hskip
    obtain ⟨n, rfl⟩ := skipNumber_eq_some hskip
    obtain ⟨value, hvalue, heq⟩ := Option.map_eq_some_iff.mp h
    cases heq
    have htoken : (n.text ++ rest).take ((n.text ++ rest).length - rest.length) = n.text := by
      simp
    rw [htoken] at hvalue ⊢
    exact ⟨n, value, hvalue, rfl, rfl⟩

end AzooKey.Ipc.Json

import AzooKey.Ipc.JsonGrammar
import AzooKey.Ipc.JsonScanner

/-!
# The texts of JSON

The strings of the grammar once more, over characters and as RFC 8259 has
them: `CharText` is one character between the quotes, unescaped, by a letter,
by four digits or by a surrogate pair. `stringText_iff` shows that these are
the strings of the grammar, and that a string denotes the encoding of its
characters.

With the scanner, which reads nothing outside of the text, this is what `Parse`
accepts: `scanDocument_eq_some_iff`.
-/

namespace AzooKey.Ipc.Json

/-- The letters of the escapes, and the characters they stand for. -/
def escapes : List (UInt8 × Char) :=
  [(0x22, '"'), (0x5c, '\\'), (0x2f, '/'), (0x62, '\x08'), (0x66, '\x0c'), (0x6e, '\n'),
    (0x72, '\r'), (0x74, '\t')]

/-- **Four hexadecimal digits** and the number they name. -/
def HexText (digits : Bytes) (n : ℕ) : Prop :=
  ∃ a b c d, ∃ va ∈ hexValue a, ∃ vb ∈ hexValue b, ∃ vc ∈ hexValue c, ∃ vd ∈ hexValue d,
    digits = [a, b, c, d] ∧ n = Nat.ofDigits 16 [vd, vc, vb, va]

/-- **A character of a string.** -/
inductive CharText : Bytes → Char → Prop
  | unescaped {c : Char} : 0x20 ≤ c.toNat → c ≠ '"' → c ≠ '\\' →
      CharText (String.utf8EncodeChar c) c
  | letter {letter : UInt8} {c : Char} : (letter, c) ∈ escapes → CharText [0x5c, letter] c
  | unicode {digits : Bytes} {c : Char} : HexText digits c.toNat → CharText (0x5c :: 0x75 :: digits) c
  | pair {digits digits' : Bytes} {high low : ℕ} {c : Char} : HexText digits high →
      0xD800 ≤ high → high < 0xDC00 → HexText digits' low → 0xDC00 ≤ low → low < 0xE000 →
      c.toNat = 0x10000 + (high - 0xD800) * 0x400 + (low - 0xDC00) →
      CharText (0x5c :: 0x75 :: (digits ++ 0x5c :: 0x75 :: digits')) c

/-- **The characters of a string.** -/
inductive CharsText : Bytes → List Char → Prop
  | nil : CharsText [] []
  | cons {unit text : Bytes} {c : Char} {cs : List Char} : CharText unit c → CharsText text cs →
      CharsText (unit ++ text) (c :: cs)

/-- A byte with its high bits set, as a sum. -/
theorem lead_or (high width : ℕ) {value : ℕ} (hvalue : value < 2 ^ width) :
    (high <<< width) ||| value = 2 ^ width * high + value := by
  rw [← Nat.shiftLeft_add_eq_or_of_lt hvalue, Nat.shiftLeft_eq, mul_comm]

/-- **`AppendUtf8` writes the encoding of a character**, and nothing else. -/
theorem appendUtf8_eq (n : ℕ) :
    appendUtf8 n = if n.isValidChar then some (encodeScalar n) else none := by
  have hand : ∀ value : ℕ, 0x80 ||| (value &&& 0x3F) = 0x80 + value % 64 := by
    intro value
    have hmod : value &&& 0x3F = value % 64 := Nat.and_two_pow_sub_one_eq_mod value 6
    rw [hmod]
    exact lead_or 2 6 (Nat.mod_lt _ (by norm_num))
  unfold appendUtf8 encodeScalar Nat.isValidChar
  simp only [hand, Nat.shiftRight_eq_div_pow, Bool.or_eq_true, decide_eq_true_eq, Bool.and_eq_true]
  by_cases hvalid : n < 0xd800 ∨ 0xdfff < n ∧ n < 0x110000
  · rw [if_pos hvalid, if_neg (by omega)]
    split_ifs with h₁ h₂ h₃
    · rfl
    · have h : 0xC0 ||| n / 2 ^ 6 = 0xC0 + n / 64 := lead_or 6 5 (by omega)
      rw [h]
    · have h : 0xE0 ||| n / 2 ^ 12 = 0xE0 + n / 4096 := lead_or 14 4 (by omega)
      rw [h]
    · have h : 0xF0 ||| n / 2 ^ 18 = 0xF0 + n / 262144 := lead_or 30 3 (by omega)
      rw [h]
  · rw [if_neg hvalid, if_pos (by omega)]

/-- The encoding of a character is well formed. -/
theorem isScalar_utf8EncodeChar (c : Char) : isScalar (String.utf8EncodeChar c) = true := by
  have hvalid : c.toNat.isValidChar := c.valid
  have hbytes : appendUtf8 c.toNat = some (String.utf8EncodeChar c) := by
    rw [appendUtf8_eq, if_pos hvalid, utf8EncodeChar_eq]
  exact isScalar_of_appendUtf8 hbytes

/-- The bytes of a scalar value are the encoding of its character. -/
theorem appendUtf8_eq_some_iff {n : ℕ} {bytes : Bytes} :
    appendUtf8 n = some bytes ↔ ∃ c : Char, c.toNat = n ∧ bytes = String.utf8EncodeChar c := by
  rw [appendUtf8_eq]
  constructor
  · intro h
    split at h
    · rename_i hvalid
      obtain ⟨c, hc, hbytes⟩ := exists_char_of_isValidChar hvalid
      exact ⟨c, hc, by rw [hbytes, ← Option.some.inj h]⟩
    · cases h
  · rintro ⟨c, rfl, rfl⟩
    have hvalid : c.toNat.isValidChar := c.valid
    rw [if_pos hvalid, utf8EncodeChar_eq]

/-- The first octet of a character tells the characters below `0x80` from each
other, and from the others. -/
theorem utf8EncodeChar_head (c : Char) : ∃ b tail, String.utf8EncodeChar c = b :: tail
    ∧ (c.toNat < 0x80 ∧ b.toNat = c.toNat ∨ 0x80 ≤ c.toNat ∧ 0x80 ≤ b.toNat) := by
  have hlt : c.toNat < 0x110000 := c.valid.elim (fun h => lt_of_lt_of_le h (by norm_num)) (·.2)
  rw [utf8EncodeChar_eq]
  unfold encodeScalar
  split_ifs with h₁ h₂ h₃
  · refine ⟨_, _, rfl, Or.inl ⟨h₁, ?_⟩⟩
    rw [UInt8.toNat_ofNat']
    omega
  all_goals
    refine ⟨_, _, rfl, Or.inr ⟨by omega, ?_⟩⟩
    rw [UInt8.toNat_ofNat']
    omega

/-- Four digits are read as the number they name. -/
theorem hexText_iff {digits : Bytes} {n : ℕ} :
    HexText digits n ↔ readHexCodepoint digits = some (n, []) := by
  constructor
  · rintro ⟨a, b, c, d, va, ha, vb, hb, vc, hc, vd, hd, rfl, rfl⟩
    simp only [readHexCodepoint, Option.mem_def.mp ha, Option.mem_def.mp hb, Option.mem_def.mp hc,
      Option.mem_def.mp hd, Nat.ofDigits_cons, Nat.ofDigits_nil, Option.some.injEq, Prod.mk.injEq,
      and_true]
    ring
  · intro h
    unfold readHexCodepoint at h
    split at h
    · rename_i a b c d rest
      split at h
      · rename_i va vb vc vd ha hb hc hd
        obtain ⟨rfl, rfl⟩ := Prod.mk.inj (Option.some.inj h)
        refine ⟨a, b, c, d, va, ha, vb, hb, vc, hc, vd, hd, rfl, ?_⟩
        simp only [Nat.ofDigits_cons, Nat.ofDigits_nil]
        ring
      · cases h
    · cases h

/-- The letters of the escapes are those of the reader. -/
theorem mem_escapes_iff {letter : UInt8} {bytes : Bytes} :
    (∃ c, (letter, c) ∈ escapes ∧ bytes = String.utf8EncodeChar c)
      ↔ ∃ b, letterEscape letter = some b ∧ bytes = [b] := by
  constructor
  · rintro ⟨c, hc, rfl⟩
    simp only [escapes, List.mem_cons, Prod.mk.injEq, List.not_mem_nil, or_false] at hc
    rcases hc with ⟨rfl, rfl⟩ | ⟨rfl, rfl⟩ | ⟨rfl, rfl⟩ | ⟨rfl, rfl⟩ | ⟨rfl, rfl⟩ | ⟨rfl, rfl⟩ |
      ⟨rfl, rfl⟩ | ⟨rfl, rfl⟩
    all_goals exact ⟨_, rfl, rfl⟩
  · rintro ⟨b, hb, rfl⟩
    unfold letterEscape at hb
    split_ifs at hb with h₁ h₂ h₃ h₄ h₅ h₆ h₇ h₈
    all_goals
      obtain rfl := Option.some.inj hb
      subst_vars
    · exact ⟨'"', by simp [escapes], rfl⟩
    · exact ⟨'\\', by simp [escapes], rfl⟩
    · exact ⟨'/', by simp [escapes], rfl⟩
    · exact ⟨'\x08', by simp [escapes], rfl⟩
    · exact ⟨'\x0c', by simp [escapes], rfl⟩
    · exact ⟨'\n', by simp [escapes], rfl⟩
    · exact ⟨'\r', by simp [escapes], rfl⟩
    · exact ⟨'\t', by simp [escapes], rfl⟩

/-- The scalar value of a surrogate pair. -/
theorem pair_value {high low : ℕ} (hlow : 0xDC00 ≤ low) (hlow' : low < 0xE000) :
    0x10000 + (((high - 0xD800) <<< 10) ||| (low - 0xDC00))
      = 0x10000 + (high - 0xD800) * 0x400 + (low - 0xDC00) := by
  have hlt : low - 0xDC00 < 2 ^ 10 := by omega
  rw [← Nat.shiftLeft_add_eq_or_of_lt hlt, Nat.shiftLeft_eq, Nat.add_assoc]

/-- **The characters of the grammar are those of the RFC.** -/
theorem unitText_iff {unit bytes : Bytes} :
    UnitText unit bytes ↔ ∃ c, CharText unit c ∧ bytes = String.utf8EncodeChar c := by
  constructor
  · intro h
    cases h with
    | @raw b tail hscalar hb hquote hslash =>
      obtain ⟨c, hc⟩ := exists_char_of_isScalar hscalar
      obtain ⟨b', tail', heq, hcases⟩ := utf8EncodeChar_head c
      obtain ⟨rfl, rfl⟩ := List.cons.inj (hc.trans heq)
      rw [UInt8.le_iff_toNat_le] at hb
      rw [hc]
      refine ⟨c, .unescaped ?_ ?_ ?_, rfl⟩
      · have : (0x20 : UInt8).toNat = 0x20 := rfl
        omega
      · rintro rfl
        exact hquote (List.cons.inj hc).1
      · rintro rfl
        exact hslash (List.cons.inj hc).1
    | @letter esc b hletter =>
      obtain ⟨c, hc, hbytes⟩ := mem_escapes_iff.mpr ⟨b, hletter, rfl⟩
      exact ⟨c, .letter hc, hbytes⟩
    | unicode hdigits hbytes =>
      obtain ⟨c, rfl, rfl⟩ := appendUtf8_eq_some_iff.mp hbytes
      exact ⟨c, .unicode (hexText_iff.mpr hdigits), rfl⟩
    | pair hdigits h₁ h₂ hdigits' h₃ h₄ hbytes =>
      obtain ⟨c, hc, rfl⟩ := appendUtf8_eq_some_iff.mp hbytes
      rw [pair_value h₃ (by omega)] at hc
      exact ⟨c, .pair (hexText_iff.mpr hdigits) h₁ (by omega) (hexText_iff.mpr hdigits') h₃
        (by omega) hc, rfl⟩
  · rintro ⟨c, h, rfl⟩
    cases h with
    | unescaped hcontrol hquote hslash =>
      have hscalar := isScalar_utf8EncodeChar c
      obtain ⟨b, tail, heq, hcases⟩ := utf8EncodeChar_head c
      rw [heq] at hscalar ⊢
      have hne : ∀ d : Char, c ≠ d → d.toNat < 0x80 → b.toNat ≠ d.toNat := by
        intro d hcd hd hb
        refine hcd (Char.toNat_inj.mp ?_)
        omega
      refine .raw hscalar ?_ ?_ ?_
      · rw [UInt8.le_iff_toNat_le]
        have : (0x20 : UInt8).toNat = 0x20 := rfl
        omega
      · rintro rfl
        exact hne '"' hquote (by decide) rfl
      · rintro rfl
        exact hne '\\' hslash (by decide) rfl
    | letter hc =>
      obtain ⟨b, hletter, hbytes⟩ := mem_escapes_iff.mp ⟨c, hc, rfl⟩
      rw [hbytes]
      exact .letter hletter
    | unicode hdigits =>
      exact .unicode (hexText_iff.mp hdigits) (appendUtf8_eq_some_iff.mpr ⟨c, rfl, rfl⟩)
    | @pair digits digits' high low _ hdigits h₁ h₂ hdigits' h₃ h₄ hc =>
      refine .pair (hexText_iff.mp hdigits) h₁ (by omega) (hexText_iff.mp hdigits') h₃ (by omega) ?_
      rw [pair_value h₃ h₄]
      exact appendUtf8_eq_some_iff.mpr ⟨c, hc, rfl⟩

/-- **The strings of the grammar are those of the RFC**, and denote the encoding
of their characters. -/
theorem stringText_iff {body bytes : Bytes} :
    StringText body bytes ↔ ∃ cs, CharsText body cs ∧ bytes = cs.flatMap String.utf8EncodeChar := by
  constructor
  · intro h
    induction h with
    | nil => exact ⟨[], .nil, rfl⟩
    | cons hunit _ ih =>
      obtain ⟨c, hc, rfl⟩ := unitText_iff.mp hunit
      obtain ⟨cs, hcs, rfl⟩ := ih
      exact ⟨c :: cs, .cons hc hcs, List.flatMap_cons.symm⟩
  · rintro ⟨cs, h, rfl⟩
    induction h with
    | nil => exact .nil
    | @cons unit text c cs hc _ ih =>
      rw [List.flatMap_cons]
      exact .cons (unitText_iff.mpr ⟨c, hc, rfl⟩) ih

/-- **What `Parse` accepts.** It reads nothing outside of its text and comes to
an end; it accepts the texts within the limit that are, between whitespace, a
value nesting at most `kMaxJsonNestDepth` deep, and answers that value. The
strings of these texts are those of RFC 8259, and denote the encoding of
their characters. -/
theorem scanDocument_eq_some_iff (text : Bytes) :
    (∃ result pos, scanDocument text 0 = some (result, pos)
      ∧ ∀ v, result = some v ↔ text.length ≤ maxJsonInputBytes
        ∧ ∃ space t after, Space space ∧ Spells maxJsonNestDepth t v ∧ Space after
          ∧ text = space ++ (t ++ after))
      ∧ ∀ body bytes, StringText body bytes
        ↔ ∃ cs, CharsText body cs ∧ bytes = cs.flatMap String.utf8EncodeChar := by
  refine ⟨?_, fun body bytes => stringText_iff⟩
  obtain ⟨pos, hscan⟩ := exists_scanDocument text
  exact ⟨parse text, pos, hscan, fun v => parse_eq_some_iff⟩

end AzooKey.Ipc.Json

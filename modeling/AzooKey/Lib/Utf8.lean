import AzooKey.Lib.Bytes

/-!
# Well-formed UTF-8

The well-formed byte sequences of the Unicode Standard: a lead byte, the
range of the second byte that the lead byte allows, and trailing bytes.
`IsScalar` is one such sequence and `ValidUtf8` a text made of them. The
sequences are a prefix code (`isScalar_unique`), so that a valid text splits
in one way only. A sequence is well formed exactly when it encodes a character
(`exists_char_of_isScalar`).
-/

/-- A trailing byte. -/
def isTrailing (c : UInt8) : Bool := 0x80 ≤ c && c ≤ 0xbf

/-- **One well-formed sequence.** -/
def isScalar : Bytes → Bool
  | [a] => a < 0x80
  | [a, b] => 0xc2 ≤ a && a ≤ 0xdf && isTrailing b
  | [a, b, c] => 0xe0 ≤ a && a ≤ 0xef && isTrailing b && isTrailing c
      && (a != 0xe0 || 0xa0 ≤ b) && (a != 0xed || b < 0xa0)
  | [a, b, c, d] => 0xf0 ≤ a && a ≤ 0xf4 && isTrailing b && isTrailing c && isTrailing d
      && (a != 0xf0 || 0x90 ≤ b) && (a != 0xf4 || b < 0x90)
  | _ => false

/-- **A text made of well-formed sequences.** -/
inductive ValidUtf8 : Bytes → Prop
  | nil : ValidUtf8 []
  | cons {scalar text : Bytes} : isScalar scalar = true → ValidUtf8 text → ValidUtf8 (scalar ++ text)

/-- The length of the sequence that a lead byte opens. -/
def scalarLength (first : UInt8) : ℕ :=
  if first < 0x80 then 1 else if first < 0xe0 then 2 else if first < 0xf0 then 3 else 4

/-- The four shapes of a sequence. -/
theorem isScalar_cases {s : Bytes} (h : isScalar s = true) :
    (∃ a, s = [a] ∧ a < 0x80)
      ∨ (∃ a b, s = [a, b] ∧ 0xc2 ≤ a ∧ a ≤ 0xdf ∧ isTrailing b = true)
      ∨ (∃ a b c, s = [a, b, c] ∧ 0xe0 ≤ a ∧ a ≤ 0xef ∧ isTrailing b = true ∧ isTrailing c = true
        ∧ (a = 0xe0 → 0xa0 ≤ b) ∧ (a = 0xed → b < 0xa0))
      ∨ (∃ a b c d, s = [a, b, c, d] ∧ 0xf0 ≤ a ∧ a ≤ 0xf4 ∧ isTrailing b = true
        ∧ isTrailing c = true ∧ isTrailing d = true
        ∧ (a = 0xf0 → 0x90 ≤ b) ∧ (a = 0xf4 → b < 0x90)) := by
  unfold isScalar at h
  split at h
  · exact Or.inl ⟨_, rfl, by simpa using h⟩
  · simp only [Bool.and_eq_true, decide_eq_true_eq] at h
    exact Or.inr (Or.inl ⟨_, _, rfl, h.1.1, h.1.2, h.2⟩)
  · simp only [Bool.and_eq_true, Bool.or_eq_true, bne_iff_ne, decide_eq_true_eq] at h
    obtain ⟨⟨⟨⟨⟨h₁, h₂⟩, h₃⟩, h₄⟩, h₅⟩, h₆⟩ := h
    exact Or.inr (Or.inr (Or.inl ⟨_, _, _, rfl, h₁, h₂, h₃, h₄,
      fun ha => h₅.resolve_left (not_not.mpr ha), fun ha => h₆.resolve_left (not_not.mpr ha)⟩))
  · simp only [Bool.and_eq_true, Bool.or_eq_true, bne_iff_ne, decide_eq_true_eq] at h
    obtain ⟨⟨⟨⟨⟨⟨h₁, h₂⟩, h₃⟩, h₄⟩, h₅⟩, h₆⟩, h₇⟩ := h
    exact Or.inr (Or.inr (Or.inr ⟨_, _, _, _, rfl, h₁, h₂, h₃, h₄, h₅,
      fun ha => h₆.resolve_left (not_not.mpr ha), fun ha => h₇.resolve_left (not_not.mpr ha)⟩))
  · exact absurd h (by simp)

/-- A sequence has the length its lead byte says. -/
theorem length_of_isScalar {first : UInt8} {tail : Bytes} (h : isScalar (first :: tail) = true) :
    (first :: tail).length = scalarLength first := by
  have hle : ∀ {a b : UInt8}, a ≤ b → a.toNat ≤ b.toNat := UInt8.le_iff_toNat_le.mp
  unfold scalarLength
  simp only [UInt8.lt_iff_toNat_lt]
  rcases isScalar_cases h with ⟨a, heq, h₁⟩ | ⟨a, b, heq, h₁, h₂, -⟩ |
    ⟨a, b, c, heq, h₁, h₂, -⟩ | ⟨a, b, c, d, heq, h₁, h₂, -⟩
  · obtain ⟨rfl, rfl⟩ := List.cons.inj heq
    rw [if_pos (UInt8.lt_iff_toNat_lt.mp h₁)]
    rfl
  all_goals
    obtain ⟨rfl, rfl⟩ := List.cons.inj heq
    have hlow := hle h₁
    have hhigh := hle h₂
    simp only [UInt8.reduceToNat] at hlow hhigh ⊢
    repeat rw [if_neg (by omega)]
    try rw [if_pos (by omega)]
    rfl

/-- The only sequence with a NUL in it is the NUL. -/
theorem eq_nul_of_mem {s : Bytes} (h : isScalar s = true) (hmem : 0 ∈ s) : s = [0] := by
  have htrail : ∀ {b : UInt8}, isTrailing b = true → 0 ≠ b := by
    rintro b hb rfl
    exact absurd hb (by decide)
  have hlead : ∀ {a b : UInt8}, b ≤ a → 0 < b → 0 ≠ a := by
    rintro a b hle hlt rfl
    exact absurd hlt (not_lt.mpr hle)
  rcases isScalar_cases h with ⟨a, rfl, -⟩ | ⟨a, b, rfl, h₁, -, hb⟩ |
    ⟨a, b, c, rfl, h₁, -, hb, hc, -⟩ | ⟨a, b, c, d, rfl, h₁, -, hb, hc, hd, -⟩
  · rw [List.mem_singleton.mp hmem]
  all_goals
    have ha := hlead h₁ (by decide)
    simp only [List.mem_cons, List.not_mem_nil, or_false] at hmem
  · exact (hmem.elim ha (htrail hb)).elim
  · exact (hmem.elim ha (fun h => h.elim (htrail hb) (htrail hc))).elim
  · exact (hmem.elim ha (fun h => h.elim (htrail hb)
      (fun h => h.elim (htrail hc) (htrail hd)))).elim

/-- A sequence is not empty. -/
theorem ne_nil_of_isScalar {s : Bytes} (h : isScalar s = true) : s ≠ [] := by
  rintro rfl
  exact absurd h (by decide)

/-- **A text starts with one sequence at most.** -/
theorem isScalar_unique {s s' t t' : Bytes} (hs : isScalar s = true) (hs' : isScalar s' = true)
    (h : s ++ t = s' ++ t') : s = s' ∧ t = t' := by
  obtain ⟨a, u, rfl⟩ := List.exists_cons_of_ne_nil (ne_nil_of_isScalar hs)
  obtain ⟨a', u', rfl⟩ := List.exists_cons_of_ne_nil (ne_nil_of_isScalar hs')
  have ha : a = a' := (List.cons.inj h).1
  subst ha
  exact List.append_inj h ((length_of_isScalar hs).trans (length_of_isScalar hs').symm)

namespace ValidUtf8

/-- One sequence is a text. -/
theorem of_isScalar {s : Bytes} (h : isScalar s = true) : ValidUtf8 s := by
  simpa using ValidUtf8.cons h .nil

/-- An octet below `0x80` is a text. -/
theorem of_ascii {c : UInt8} (h : c < 0x80) : ValidUtf8 [c] :=
  of_isScalar (by simpa [isScalar] using h)

/-- A text of octets below `0x80` is a text. -/
theorem of_all_ascii {text : Bytes} (h : text.all (· < 0x80) = true) : ValidUtf8 text := by
  induction text with
  | nil => exact .nil
  | cons c text ih =>
    rw [List.all_cons, Bool.and_eq_true, decide_eq_true_eq] at h
    have hc : isScalar [c] = true := by simpa [isScalar] using h.1
    exact .cons hc (ih h.2)

/-- Texts are put after one another. -/
theorem append {s t : Bytes} (hs : ValidUtf8 s) (ht : ValidUtf8 t) : ValidUtf8 (s ++ t) := by
  induction hs with
  | nil => exact ht
  | cons hscalar _ ih =>
    rw [List.append_assoc]
    exact .cons hscalar ih

/-- A text that is not empty starts with a sequence. -/
theorem exists_scalar {text : Bytes} (h : ValidUtf8 text) (hne : text ≠ []) :
    ∃ scalar rest, text = scalar ++ rest ∧ isScalar scalar = true ∧ ValidUtf8 rest := by
  cases h with
  | nil => exact absurd rfl hne
  | cons hscalar hrest => exact ⟨_, _, rfl, hscalar, hrest⟩

/-- **What follows a text in a text is a text.** -/
theorem of_append_left {s t : Bytes} (hs : ValidUtf8 s) (h : ValidUtf8 (s ++ t)) : ValidUtf8 t := by
  induction hs with
  | nil => exact h
  | cons hscalar _ ih =>
    rw [List.append_assoc] at h
    obtain ⟨scalar, rest, heq, hscalar', hrest⟩ :=
      h.exists_scalar (List.append_ne_nil_of_left_ne_nil (ne_nil_of_isScalar hscalar) _)
    obtain ⟨-, rfl⟩ := isScalar_unique hscalar hscalar' heq
    exact ih hrest

/-- A text does not start with a trailing byte. -/
theorem not_isTrailing_head {c : UInt8} {text : Bytes} (h : ValidUtf8 (c :: text)) :
    isTrailing c = false := by
  obtain ⟨scalar, rest, heq, hscalar, -⟩ := h.exists_scalar (List.cons_ne_nil c text)
  have hlow : ∀ {a b : UInt8}, b ≤ a → 0xbf < b → isTrailing a = false := by
    intro a b hle hlt
    rw [isTrailing, Bool.and_eq_false_iff]
    exact Or.inr (decide_eq_false (not_le.mpr (lt_of_lt_of_le hlt hle)))
  rcases isScalar_cases hscalar with ⟨a, rfl, ha⟩ | ⟨a, b, rfl, ha, -⟩ | ⟨a, b, d, rfl, ha, -⟩ |
    ⟨a, b, d, e, rfl, ha, -⟩
  all_goals obtain ⟨rfl, -⟩ := List.cons.inj heq
  · rw [isTrailing, Bool.and_eq_false_iff]
    exact Or.inl (decide_eq_false (not_le.mpr ha))
  all_goals exact hlow ha (by decide)

end ValidUtf8

/-! ## Characters -/

/-- The octets of a scalar value. -/
def encodeScalar (n : ℕ) : Bytes :=
  if n < 0x80 then [UInt8.ofNat n]
  else if n < 0x800 then [UInt8.ofNat (0xC0 + n / 64), UInt8.ofNat (0x80 + n % 64)]
  else if n < 0x10000 then
    [UInt8.ofNat (0xE0 + n / 4096), UInt8.ofNat (0x80 + n / 64 % 64), UInt8.ofNat (0x80 + n % 64)]
  else [UInt8.ofNat (0xF0 + n / 262144), UInt8.ofNat (0x80 + n / 4096 % 64),
      UInt8.ofNat (0x80 + n / 64 % 64), UInt8.ofNat (0x80 + n % 64)]

/-- The octets of a character are those of its scalar value. -/
theorem utf8EncodeChar_eq (c : Char) : String.utf8EncodeChar c = encodeScalar c.toNat := by
  have hlt : c.toNat < 0x110000 := c.valid.elim (fun h => lt_of_lt_of_le h (by norm_num)) (·.2)
  have hval : c.val.toNat = c.toNat := rfl
  unfold String.utf8EncodeChar encodeScalar
  rw [hval]
  generalize c.toNat = n at hlt
  dsimp only
  split_ifs with h₁ h₂ h₃ h₄ h₅ h₆ <;> first | omega | skip
  · rfl
  · simp only [List.cons.injEq, and_true]
    exact ⟨congrArg UInt8.ofNat (by omega), congrArg UInt8.ofNat (by omega)⟩
  · simp only [List.cons.injEq, and_true]
    exact ⟨congrArg UInt8.ofNat (by omega), congrArg UInt8.ofNat (by omega),
      congrArg UInt8.ofNat (by omega)⟩
  · simp only [List.cons.injEq, and_true]
    exact ⟨congrArg UInt8.ofNat (by omega), congrArg UInt8.ofNat (by omega),
      congrArg UInt8.ofNat (by omega), congrArg UInt8.ofNat (by omega)⟩

/-- A scalar value is a character. -/
theorem exists_char_of_isValidChar {n : ℕ} (h : n.isValidChar) :
    ∃ c : Char, c.toNat = n ∧ String.utf8EncodeChar c = encodeScalar n := by
  have hn : (Char.ofNat n).toNat = n := by rw [Char.toNat_ofNat, if_pos h]
  refine ⟨Char.ofNat n, hn, ?_⟩
  rw [utf8EncodeChar_eq, hn]

/-- An octet is the one of its number. -/
theorem ofNat_eq_of_toNat {n : ℕ} {a : UInt8} (h : n = a.toNat) : UInt8.ofNat n = a := by
  rw [h, UInt8.ofNat_toNat]

/-- **A well-formed sequence is the encoding of a character.** -/
theorem exists_char_of_isScalar {s : Bytes} (h : isScalar s = true) :
    ∃ c : Char, s = String.utf8EncodeChar c := by
  suffices hn : ∃ n : ℕ, n.isValidChar ∧ encodeScalar n = s by
    obtain ⟨n, hvalid, rfl⟩ := hn
    obtain ⟨c, -, hc⟩ := exists_char_of_isValidChar hvalid
    exact ⟨c, hc.symm⟩
  unfold Nat.isValidChar encodeScalar
  rcases isScalar_cases h with ⟨a, rfl, h₁⟩ | ⟨a, b, rfl, h₁, h₂, hb⟩ |
    ⟨a, b, c, rfl, h₁, h₂, hb, hc, h₃, h₄⟩ | ⟨a, b, c, d, rfl, h₁, h₂, hb, hc, hd, h₃, h₄⟩
  all_goals simp only [isTrailing, Bool.and_eq_true, decide_eq_true_eq, UInt8.lt_iff_toNat_lt,
    UInt8.le_iff_toNat_le, UInt8.reduceToNat, ← UInt8.toNat_inj] at *
  · refine ⟨a.toNat, Or.inl (by omega), ?_⟩
    rw [if_pos h₁, UInt8.ofNat_toNat]
  · refine ⟨(a.toNat - 0xC0) * 64 + (b.toNat - 0x80), Or.inl (by omega), ?_⟩
    rw [if_neg (by omega), if_pos (by omega)]
    simp only [List.cons.injEq, and_true]
    exact ⟨ofNat_eq_of_toNat (by omega), ofNat_eq_of_toNat (by omega)⟩
  · refine ⟨((a.toNat - 0xE0) * 64 + (b.toNat - 0x80)) * 64 + (c.toNat - 0x80), by omega, ?_⟩
    rw [if_neg (by omega), if_neg (by omega), if_pos (by omega)]
    simp only [List.cons.injEq, and_true]
    exact ⟨ofNat_eq_of_toNat (by omega), ofNat_eq_of_toNat (by omega), ofNat_eq_of_toNat (by omega)⟩
  · refine ⟨(((a.toNat - 0xF0) * 64 + (b.toNat - 0x80)) * 64 + (c.toNat - 0x80)) * 64
      + (d.toNat - 0x80), Or.inr (by omega), ?_⟩
    rw [if_neg (by omega), if_neg (by omega), if_neg (by omega)]
    simp only [List.cons.injEq, and_true]
    exact ⟨ofNat_eq_of_toNat (by omega), ofNat_eq_of_toNat (by omega), ofNat_eq_of_toNat (by omega),
      ofNat_eq_of_toNat (by omega)⟩

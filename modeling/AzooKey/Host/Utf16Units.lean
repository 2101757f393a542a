import AzooKey.Host.MixedSegments

/-!
# UTF-16 units

What the positions of a segment or of a finding count. The code points of a text have one unit
or two (`utf16Units`); the host counts them with 32 bits (`utf16Length_eq`).
-/

namespace AzooKey.Host

open AzooKey.Core (decodeNextUtf8)

/-- The units of a code point. -/
def unitsOf (codepoint : ℕ) : List ℕ :=
  if codepoint ≤ 0xffff then [codepoint]
  else [0xd800 + (codepoint - 0x10000) / 0x400, 0xdc00 + (codepoint - 0x10000) % 0x400]

/-- **The UTF-16 units of a text.** -/
def utf16Units (text : Bytes) : List ℕ :=
  match _h : decodeNextUtf8 text with
  | none => []
  | some d => unitsOf d.codepoint ++ utf16Units d.rest
termination_by text.length
decreasing_by exact Core.decodeNextUtf8_rest_lt _h

/-- The units of a text that begins with a code point. -/
theorem utf16Units_scalar {scalar : Bytes} (h : isScalar scalar = true) (text : Bytes) :
    utf16Units (scalar ++ text) = unitsOf (Core.Dictionary.scalarValue scalar) ++ utf16Units text := by
  have hdecode := Core.decodeNextUtf8_append h text
  rw [utf16Units]
  split
  · next hnone =>
    rw [hdecode] at hnone
    cases hnone
  · next d hsome =>
    rw [hdecode] at hsome
    obtain rfl := Option.some.inj hsome
    rfl

/-- Nothing has no units. -/
theorem utf16Units_nil : utf16Units [] = [] := by
  rw [utf16Units]
  rfl

/-- **The units of a text and of what follows it.** -/
theorem utf16Units_append {text : Bytes} (h : ValidUtf8 text) (rest : Bytes) :
    utf16Units (text ++ rest) = utf16Units text ++ utf16Units rest := by
  induction h with
  | nil => rw [utf16Units_nil, List.nil_append, List.nil_append]
  | cons hscalar _ ih =>
    rw [List.append_assoc, utf16Units_scalar hscalar, utf16Units_scalar hscalar, ih,
      List.append_assoc]

/-- A code point has as many units as are counted, and no more than it has octets. -/
theorem length_unitsOf {scalar : Bytes} (h : isScalar scalar = true) :
    utf16Length scalar = UInt32.ofNat (unitsOf (Core.Dictionary.scalarValue scalar)).length
      ∧ (unitsOf (Core.Dictionary.scalarValue scalar)).length ≤ scalar.length := by
  have hdecode := Core.decodeNextUtf8_append h []
  rw [List.append_nil] at hdecode
  rw [utf16Length_of_decode hdecode, utf16Length_nil, UInt32.add_zero]
  unfold unitsOf
  dsimp only
  rw [if_pos rfl]
  by_cases hlow : Core.Dictionary.scalarValue scalar ≤ 0xffff
  · rw [if_pos hlow, if_neg (not_lt.mpr hlow)]
    exact ⟨rfl, List.length_pos_iff.mpr (ne_nil_of_isScalar h)⟩
  · rw [if_neg hlow, if_pos (not_le.mp hlow)]
    refine ⟨rfl, ?_⟩
    -- a code point of one octet is small
    by_contra hshort
    rcases isScalar_cases h with ⟨a, rfl, -⟩ | ⟨a, b, rfl, -⟩ | ⟨a, b, c, rfl, -⟩ | ⟨a, b, c, d, rfl, -⟩
    · exact hlow (a.toNat_lt.le.trans (by norm_num))
    all_goals exact hshort (by simp)

/-- **`Utf16Length` counts the units**, with 32 bits, of which there are no more than there
are octets. -/
theorem utf16Length_eq {text : Bytes} (h : ValidUtf8 text) :
    utf16Length text = UInt32.ofNat (utf16Units text).length
      ∧ (utf16Units text).length ≤ text.length := by
  induction h with
  | nil =>
    rw [utf16Units_nil, utf16Length_nil]
    exact ⟨rfl, le_refl _⟩
  | cons hscalar _ ih =>
    obtain ⟨hlength, hle⟩ := length_unitsOf hscalar
    rw [utf16Length_scalar hscalar, utf16Units_scalar hscalar, hlength, ih.1, List.length_append,
      List.length_append, UInt32.ofNat_add]
    exact ⟨rfl, Nat.add_le_add hle ih.2⟩

/-- The count is exact for a text below `2 ^ 32` octets. -/
theorem toNat_utf16Length {text : Bytes} (h : ValidUtf8 text) (hlt : text.length < 2 ^ 32) :
    (utf16Length text).toNat = (utf16Units text).length := by
  obtain ⟨heq, hle⟩ := utf16Length_eq h
  rw [heq, UInt32.toNat_ofNat']
  exact Nat.mod_eq_of_lt (lt_of_le_of_lt hle hlt)

end AzooKey.Host

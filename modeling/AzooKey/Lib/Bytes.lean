import Mathlib

/-!
# Byte strings

A byte string is a list of octets, compared as `memcmp` compares it: octet
by octet, a proper prefix first. The order is the one Mathlib puts on lists
over a linear order, so all that is needed here is the order on octets, and
the two facts about prefixes that every search in an ordered table of byte
strings rests on: a string lies below each of its extensions, and nothing
lies between the two that is not itself an extension
(`List.prefix_of_lt_of_prefix`).
-/

/-- A byte string. -/
abbrev Bytes := List UInt8

/-- Octets are ordered by the number they encode. -/
instance UInt8.linearOrder : LinearOrder UInt8 where
  le_refl a := UInt8.le_refl a
  le_trans _ _ _ := UInt8.le_trans
  le_antisymm _ _ := UInt8.le_antisymm
  le_total := UInt8.le_total
  lt_iff_le_not_ge a b := by
    rw [UInt8.lt_iff_toNat_lt, UInt8.le_iff_toNat_le, UInt8.le_iff_toNat_le]
    omega
  toDecidableLE := inferInstance
  toDecidableEq := inferInstance
  toDecidableLT := inferInstance

instance : LawfulBEq Bytes := inferInstance

/-- The octets of a text, as a string literal of the source holds them. -/
def utf8 (text : String) : Bytes := text.toByteArray.data.toList

namespace Bytes

/-- Cut a string at the first occurrence of an octet: what stands before it
and what stands after it. -/
def breakAt (c : UInt8) : Bytes → Option (Bytes × Bytes)
  | [] => none
  | b :: bs => if b = c then some ([], bs) else (breakAt c bs).map (fun p => (b :: p.1, p.2))

/-- The two sides of a cut, with the octet between them, are the string. -/
theorem eq_append_of_breakAt {c : UInt8} {s before after : Bytes}
    (h : breakAt c s = some (before, after)) : s = before ++ c :: after := by
  induction s generalizing before with
  | nil => exact absurd h (by simp [breakAt])
  | cons b s ih =>
    unfold breakAt at h
    split at h
    · rename_i hb
      obtain ⟨rfl, rfl⟩ := Prod.mk.inj (Option.some.inj h)
      rw [hb, List.nil_append]
    · obtain ⟨⟨x, y⟩, hxy, heq⟩ := Option.map_eq_some_iff.mp h
      obtain ⟨rfl, rfl⟩ := Prod.mk.inj heq
      rw [ih hxy, List.cons_append]

/-- What stands after a cut is shorter than the string. -/
theorem length_after_lt {c : UInt8} {s before after : Bytes}
    (h : breakAt c s = some (before, after)) : after.length < s.length := by
  rw [eq_append_of_breakAt h, List.length_append, List.length_cons]
  omega

/-- The pieces of a text between occurrences of an octet. There is none behind
the last occurrence if the text ends there. -/
def pieces (c : UInt8) : Bytes → List Bytes
  | [] => []
  | b :: text =>
    if b = c then [] :: pieces c text
    else
      match pieces c text with
      | [] => [[b]]
      | piece :: rest => (b :: piece) :: rest

end Bytes

namespace List

variable {α : Type*} [LinearOrder α]

/-- A list lies below each of its proper extensions. -/
theorem lt_of_prefix_of_ne {p k : List α} (h : p <+: k) (hne : p ≠ k) : p < k :=
  lt_of_le_of_ne (by obtain ⟨t, rfl⟩ := h; exact le_of_not_gt List.le_append_left) hne

/-- **Nothing lies between a list and its extensions but extensions.** If
`p < k` and `k` is at most some extension of `p`, then `k` extends `p`. -/
theorem prefix_of_lt_of_prefix {p k l : List α} (hpk : p < k) (hkl : k ≤ l)
    (hpl : p <+: l) : p <+: k := by
  induction p generalizing k l with
  | nil => exact nil_prefix
  | cons a p ih =>
    obtain ⟨t, rfl⟩ := hpl
    cases k with
    | nil => exact absurd hpk (not_lt_nil _)
    | cons b k =>
      rw [cons_append] at hkl
      have hab : a ≤ b := head_le_of_lt hpk
      have hba : b ≤ a := by
        rcases hkl.lt_or_eq with hlt | heq
        · exact head_le_of_lt hlt
        · exact (cons.inj heq).1.le
      obtain rfl := le_antisymm hab hba
      have hpk' : p < k := (cons_lt_cons_iff.mp hpk).resolve_left (lt_irrefl a) |>.2
      have hkl' : k ≤ p ++ t := by
        rcases hkl.lt_or_eq with hlt | heq
        · exact ((cons_lt_cons_iff.mp hlt).resolve_left (lt_irrefl a)).2.le
        · exact (cons.inj heq).2.le
      exact cons_prefix_cons.mpr ⟨rfl, ih hpk' hkl' ⟨t, rfl⟩⟩

end List

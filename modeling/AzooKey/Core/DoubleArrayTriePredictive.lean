import AzooKey.Core.DoubleArrayTrieKeys

/-!
# Predictive search in a verified dictionary

`PredictiveSearch` walks through all that lies below a prefix, level by level,
and watches the bytes on its way with an automaton of its own for UTF-8.
`Verify` has looked at the encoding of the keys only. The cells that lie below
the prefix and lead to no key have never been looked at, and where one of them
is reached by bytes that do not begin a text, the search gives the whole
dictionary up. That is the only way it can fail: `Clean` says that there is no
such cell, and with it the search answers the keys that start with the prefix,
the shorter first, and keeps the dictionary (`predictiveSearch_iff`).

The level of a search is the list of the strings of one length that lead from
the prefix to a node (`Impl.suffixes`), in their order.
-/

namespace AzooKey.Core.Dictionary

open Ipc Faulting Dictbuild

/-! ## The automaton -/

/-- The automaton at the beginning of a character. -/
def fresh : Visit := { node := 0 }

/-- **The automaton after some bytes.** -/
def scan (u : Bytes) : Option Visit := u.foldlM Visit.advance fresh

/-- **The beginning of a text** without NUL. -/
def Beginning (u : Bytes) : Prop := ∃ rest, ValidUtf8 (u ++ rest) ∧ 0 ∉ u ++ rest

/-- The automaton does not look at the node. -/
theorem advance_moveTo (v : Visit) (node : ℕ) (byte : UInt8) :
    (v.moveTo node).advance byte = (v.advance byte).map (fun w => w.moveTo node) := by
  unfold Visit.advance Visit.moveTo
  dsimp only
  split_ifs <;> rfl

/-- One more byte. -/
theorem scan_append_singleton (u : Bytes) (byte : UInt8) :
    scan (u ++ [byte]) = (scan u).bind (fun v => v.advance byte) := by
  unfold scan
  rw [List.foldlM_append]
  cases List.foldlM Visit.advance fresh u with
  | none => rfl
  | some v => simp

/-- **The bytes of a character that has begun**, and the automaton behind them. -/
inductive Started : Bytes → Visit → Prop
  | none : Started [] fresh
  | two {a : UInt8} : 0xc2 ≤ a → a ≤ 0xdf → Started [a] { node := 0, remaining := 1 }
  | three {a : UInt8} : 0xe0 ≤ a → a ≤ 0xef →
    Started [a] { node := 0, remaining := 2, low := if a = 0xe0 then 0xa0 else 0x80,
                  high := if a = 0xed then 0x9f else 0xbf }
  | threeTwo {a b : UInt8} : 0xe0 ≤ a → a ≤ 0xef → isTrailing b = true → (a = 0xe0 → 0xa0 ≤ b) →
    (a = 0xed → b < 0xa0) → Started [a, b] { node := 0, remaining := 1 }
  | four {a : UInt8} : 0xf0 ≤ a → a ≤ 0xf4 →
    Started [a] { node := 0, remaining := 3, low := if a = 0xf0 then 0x90 else 0x80,
                  high := if a = 0xf4 then 0x8f else 0xbf }
  | fourTwo {a b : UInt8} : 0xf0 ≤ a → a ≤ 0xf4 → isTrailing b = true → (a = 0xf0 → 0x90 ≤ b) →
    (a = 0xf4 → b < 0x90) → Started [a, b] { node := 0, remaining := 2 }
  | fourThree {a b c : UInt8} : 0xf0 ≤ a → a ≤ 0xf4 → isTrailing b = true → isTrailing c = true →
    (a = 0xf0 → 0x90 ≤ b) → (a = 0xf4 → b < 0x90) →
    Started [a, b, c] { node := 0, remaining := 1 }

/-- A byte behind the low bound and before the high bound of a lead byte. -/
theorem trailing_of_bounds {a b lead low high most : UInt8} (least : UInt8)
    (hlow : ¬ b < (if a = lead then low else 0x80)) (hhigh : ¬ (if a = most then high else 0xbf) < b)
    (hl : 0x80 ≤ low) (hh : high ≤ 0xbf) (hleast : high < least) :
    isTrailing b = true ∧ (a = lead → low ≤ b) ∧ (a = most → b < least) := by
  have h₁ : 0x80 ≤ b := by
    split at hlow
    · exact le_trans hl (not_lt.mp hlow)
    · exact not_lt.mp hlow
  have h₂ : b ≤ 0xbf := by
    split at hhigh
    · exact le_trans (not_lt.mp hhigh) hh
    · exact not_lt.mp hhigh
  refine ⟨by simp [isTrailing, h₁, h₂], fun ha => ?_, fun ha => ?_⟩
  · rw [if_pos ha] at hlow
    exact not_lt.mp hlow
  · rw [if_pos ha] at hhigh
    exact lt_of_le_of_lt (not_lt.mp hhigh) hleast

/-- A byte between the bounds of a trailing byte. -/
theorem isTrailing_of_bounds {b : UInt8} (hlow : ¬ b < 0x80) (hhigh : ¬ 0xbf < b) :
    isTrailing b = true := by
  simp [isTrailing, not_lt.mp hlow, not_lt.mp hhigh]

/-- A trailing byte is not NUL. -/
theorem ne_zero_of_isTrailing {b : UInt8} (h : isTrailing b = true) : b ≠ 0 := by
  rintro rfl
  exact absurd h (by decide)

/-- A byte inside of a character. -/
theorem advance_eq_some {v w : Visit} {byte : UInt8} (hv : v.remaining ≠ 0)
    (h : v.advance byte = some w) :
    ¬ byte < v.low ∧ ¬ v.high < byte
      ∧ w = { node := v.node, remaining := v.remaining - 1, low := 0x80, high := 0xbf } := by
  unfold Visit.advance at h
  rw [if_pos hv] at h
  split at h
  · cases h
  · rename_i hbounds
    cases h
    exact ⟨fun hlow => hbounds (Or.inl hlow), fun hhigh => hbounds (Or.inr hhigh), rfl⟩

/-- A byte at the beginning of a character. -/
theorem advance_fresh {w : Visit} {byte : UInt8} (h : fresh.advance byte = some w) :
    byte ≠ 0 ∧ (isScalar [byte] = true ∧ w = fresh ∨ Started [byte] w) := by
  have hne : ¬ byte < 0x80 → byte ≠ 0 := by
    rintro hbyte rfl
    exact hbyte (by decide)
  unfold Visit.advance at h
  rw [if_neg (show ¬ fresh.remaining ≠ 0 from fun hne => hne rfl)] at h
  split at h
  · rename_i hascii
    split at h
    · rename_i hbyte
      cases h
      exact ⟨hbyte, Or.inl ⟨by simpa [isScalar] using hascii, rfl⟩⟩
    · cases h
  · rename_i hascii
    refine ⟨hne hascii, Or.inr ?_⟩
    split at h
    · rename_i hlead
      cases h
      exact .two hlead.1 hlead.2
    · split at h
      · rename_i hlead
        cases h
        exact .three hlead.1 hlead.2
      · split at h
        · rename_i hlead
          cases h
          exact .four hlead.1 hlead.2
        · cases h

/-- **A byte that the automaton accepts** goes on with the character, ends it,
or starts the next one. -/
theorem Started.advance {part : Bytes} {v w : Visit} {byte : UInt8} (h : Started part v)
    (hw : v.advance byte = some w) :
    byte ≠ 0 ∧ (isScalar (part ++ [byte]) = true ∧ w = fresh ∨ Started (part ++ [byte]) w) := by
  cases h with
  | none => exact advance_fresh hw
  | two h₁ h₂ =>
    obtain ⟨hlow, hhigh, rfl⟩ := advance_eq_some (by simp) hw
    have hb := isTrailing_of_bounds hlow hhigh
    exact ⟨ne_zero_of_isTrailing hb, Or.inl ⟨by simp [isScalar, h₁, h₂, hb], rfl⟩⟩
  | three h₁ h₂ =>
    obtain ⟨hlow, hhigh, rfl⟩ := advance_eq_some (by simp) hw
    obtain ⟨hb, h₃, h₄⟩ := trailing_of_bounds 0xa0 hlow hhigh (by decide) (by decide)
      (by decide)
    exact ⟨ne_zero_of_isTrailing hb, Or.inr (.threeTwo h₁ h₂ hb h₃ h₄)⟩
  | @threeTwo a b h₁ h₂ hb h₃ h₄ =>
    obtain ⟨hlow, hhigh, rfl⟩ := advance_eq_some (by simp) hw
    have hc := isTrailing_of_bounds hlow hhigh
    have hscalar : isScalar [a, b, byte] = true := by
      simp only [isScalar, Bool.and_eq_true, Bool.or_eq_true, bne_iff_ne, decide_eq_true_eq]
      exact ⟨⟨⟨⟨⟨h₁, h₂⟩, hb⟩, hc⟩, Decidable.not_or_of_imp h₃⟩, Decidable.not_or_of_imp h₄⟩
    exact ⟨ne_zero_of_isTrailing hc, Or.inl ⟨hscalar, rfl⟩⟩
  | four h₁ h₂ =>
    obtain ⟨hlow, hhigh, rfl⟩ := advance_eq_some (by simp) hw
    obtain ⟨hb, h₃, h₄⟩ := trailing_of_bounds 0x90 hlow hhigh (by decide) (by decide)
      (by decide)
    exact ⟨ne_zero_of_isTrailing hb, Or.inr (.fourTwo h₁ h₂ hb h₃ h₄)⟩
  | fourTwo h₁ h₂ hb h₃ h₄ =>
    obtain ⟨hlow, hhigh, rfl⟩ := advance_eq_some (by simp) hw
    have hc := isTrailing_of_bounds hlow hhigh
    exact ⟨ne_zero_of_isTrailing hc, Or.inr (.fourThree h₁ h₂ hb hc h₃ h₄)⟩
  | @fourThree a b c h₁ h₂ hb hc h₃ h₄ =>
    obtain ⟨hlow, hhigh, rfl⟩ := advance_eq_some (by simp) hw
    have hd := isTrailing_of_bounds hlow hhigh
    have hscalar : isScalar [a, b, c, byte] = true := by
      simp only [isScalar, Bool.and_eq_true, Bool.or_eq_true, bne_iff_ne, decide_eq_true_eq]
      exact ⟨⟨⟨⟨⟨⟨h₁, h₂⟩, hb⟩, hc⟩, hd⟩, Decidable.not_or_of_imp h₃⟩, Decidable.not_or_of_imp h₄⟩
    exact ⟨ne_zero_of_isTrailing hd, Or.inl ⟨hscalar, rfl⟩⟩

/-- A character that has begun can be ended. -/
theorem Started.complete {part : Bytes} {v : Visit} (h : Started part v) :
    ∃ rest, ValidUtf8 (part ++ rest) ∧ 0 ∉ rest := by
  have hscalar : ∀ rest : Bytes, isScalar (part ++ rest) = true → 0 ∉ rest →
      ∃ rest, ValidUtf8 (part ++ rest) ∧ 0 ∉ rest :=
    fun rest hrest hnul => ⟨rest, .of_isScalar hrest, hnul⟩
  cases h with
  | none => exact ⟨[], .nil, by simp⟩
  | two h₁ h₂ => exact hscalar [0x80] (by simp [isScalar, isTrailing, h₁, h₂]) (by simp)
  | @three a h₁ h₂ =>
    refine hscalar [if a = 0xe0 then 0xa0 else 0x80, 0x80] ?_ ?_
    · split
      · rename_i ha
        simp [isScalar, isTrailing, ha]
      · rename_i ha
        simp [isScalar, isTrailing, h₁, h₂, ha]
    · split <;> simp
  | threeTwo h₁ h₂ hb h₃ h₄ =>
    refine hscalar [0x80] ?_ (by simp)
    simp only [isScalar, List.cons_append, List.nil_append, Bool.and_eq_true, Bool.or_eq_true,
      bne_iff_ne, decide_eq_true_eq]
    exact ⟨⟨⟨⟨⟨h₁, h₂⟩, hb⟩, by decide⟩, Decidable.not_or_of_imp h₃⟩, Decidable.not_or_of_imp h₄⟩
  | @four a h₁ h₂ =>
    refine hscalar [if a = 0xf0 then 0x90 else 0x80, 0x80, 0x80] ?_ ?_
    · split
      · rename_i ha
        simp [isScalar, isTrailing, ha]
      · rename_i ha
        simp [isScalar, isTrailing, h₁, h₂, ha]
    · split <;> simp
  | fourTwo h₁ h₂ hb h₃ h₄ =>
    refine hscalar [0x80, 0x80] ?_ (by simp)
    simp only [isScalar, List.cons_append, List.nil_append, Bool.and_eq_true, Bool.or_eq_true,
      bne_iff_ne, decide_eq_true_eq]
    exact ⟨⟨⟨⟨⟨⟨h₁, h₂⟩, hb⟩, by decide⟩, by decide⟩, Decidable.not_or_of_imp h₃⟩,
      Decidable.not_or_of_imp h₄⟩
  | fourThree h₁ h₂ hb hc h₃ h₄ =>
    refine hscalar [0x80] ?_ (by simp)
    simp only [isScalar, List.cons_append, List.nil_append, Bool.and_eq_true, Bool.or_eq_true,
      bne_iff_ne, decide_eq_true_eq]
    exact ⟨⟨⟨⟨⟨⟨h₁, h₂⟩, hb⟩, hc⟩, by decide⟩, Decidable.not_or_of_imp h₃⟩,
      Decidable.not_or_of_imp h₄⟩

/-- **What the automaton has read**: a text without NUL, and a character that has
begun. -/
theorem scan_eq_some {u : Bytes} {v : Visit} (h : scan u = some v) :
    ∃ text part, u = text ++ part ∧ ValidUtf8 text ∧ Started part v ∧ 0 ∉ u := by
  induction u using List.reverseRecOn generalizing v with
  | nil =>
    cases h
    exact ⟨[], [], rfl, .nil, .none, by simp⟩
  | append_singleton u byte ih =>
    rw [scan_append_singleton] at h
    obtain ⟨w, hw, hv⟩ := Option.bind_eq_some_iff.mp h
    obtain ⟨text, part, rfl, htext, hpart, hnul⟩ := ih hw
    obtain ⟨hbyte, ⟨hscalar, rfl⟩ | hstarted⟩ := hpart.advance hv
    · refine ⟨text ++ (part ++ [byte]), [], by simp, htext.append (.of_isScalar hscalar), .none, ?_⟩
      simp only [List.mem_append, List.mem_singleton, not_or] at hnul ⊢
      exact ⟨hnul, hbyte.symm⟩
    · refine ⟨text, part ++ [byte], by simp, htext, hstarted, ?_⟩
      simp only [List.mem_append, List.mem_singleton, not_or] at hnul ⊢
      exact ⟨hnul, hbyte.symm⟩

/-- A byte at the front of a character: one that is the character, or a lead byte
of two, of three or of four. -/
theorem advance_front : ∀ a : UInt8, (a < 0x80 → a ≠ 0 → fresh.advance a = some fresh)
    ∧ (0xc2 ≤ a → a ≤ 0xdf → fresh.advance a = some { node := 0, remaining := 1 })
    ∧ (0xe0 ≤ a → a ≤ 0xef → fresh.advance a
      = some { node := 0, remaining := 2, low := if a = 0xe0 then 0xa0 else 0x80,
               high := if a = 0xed then 0x9f else 0xbf })
    ∧ (0xf0 ≤ a → a ≤ 0xf4 → fresh.advance a
      = some { node := 0, remaining := 3, low := if a = 0xf0 then 0x90 else 0x80,
               high := if a = 0xf4 then 0x8f else 0xbf }) := by
  decide +kernel

/-- A byte between the bounds. -/
theorem advance_trailing {v : Visit} {byte : UInt8} (hv : v.remaining ≠ 0) (hlow : v.low ≤ byte)
    (hhigh : byte ≤ v.high) :
    v.advance byte = some { v with remaining := v.remaining - 1, low := 0x80, high := 0xbf } := by
  unfold Visit.advance
  rw [if_pos hv, if_neg]
  exact not_or.mpr ⟨not_lt.mpr hlow, not_lt.mpr hhigh⟩

/-- A trailing byte lies between its bounds. -/
theorem bounds_of_isTrailing {b : UInt8} (h : isTrailing b = true) : 0x80 ≤ b ∧ b ≤ 0xbf := by
  simpa [isTrailing] using h

/-- A trailing byte between the bounds of a lead byte. -/
theorem bounds_of_trailing {a b lead low high most : UInt8} (hb : isTrailing b = true)
    (hlow : a = lead → low ≤ b) (hhigh : a = most → b ≤ high) :
    (if a = lead then low else 0x80) ≤ b ∧ b ≤ (if a = most then high else 0xbf) := by
  obtain ⟨h₁, h₂⟩ := bounds_of_isTrailing hb
  constructor
  · split
    · rename_i ha
      exact hlow ha
    · exact h₁
  · split
    · rename_i ha
      exact hhigh ha
    · exact h₂

/-- **The automaton reads a character.** -/
theorem foldlM_advance_scalar {c : Bytes} (h : isScalar c = true) (hnul : c ≠ [0]) :
    c.foldlM Visit.advance fresh = some fresh := by
  have hbelow : ∀ {b : UInt8}, b < 0xa0 → b ≤ 0x9f := fun h => by
    simp only [UInt8.lt_iff_toNat_lt, UInt8.le_iff_toNat_le, UInt8.reduceToNat] at h ⊢
    omega
  have hbelow' : ∀ {b : UInt8}, b < 0x90 → b ≤ 0x8f := fun h => by
    simp only [UInt8.lt_iff_toNat_lt, UInt8.le_iff_toNat_le, UInt8.reduceToNat] at h ⊢
    omega
  rcases isScalar_cases h with ⟨a, rfl, ha⟩ | ⟨a, b, rfl, h₁, h₂, hb⟩ |
    ⟨a, b, c, rfl, h₁, h₂, hb, hc, h₃, h₄⟩ | ⟨a, b, c, d, rfl, h₁, h₂, hb, hc, hd, h₃, h₄⟩
  · rw [List.foldlM_cons, (advance_front a).1 ha (fun hzero => hnul (by rw [hzero]))]
    rfl
  · obtain ⟨hb₁, hb₂⟩ := bounds_of_isTrailing hb
    rw [List.foldlM_cons, (advance_front a).2.1 h₁ h₂]
    show List.foldlM Visit.advance _ [b] = _
    rw [List.foldlM_cons, advance_trailing (by simp) hb₁ hb₂]
    rfl
  · obtain ⟨hb₁, hb₂⟩ := bounds_of_trailing hb h₃ (fun ha => hbelow (h₄ ha))
    obtain ⟨hc₁, hc₂⟩ := bounds_of_isTrailing hc
    rw [List.foldlM_cons, (advance_front a).2.2.1 h₁ h₂]
    show List.foldlM Visit.advance _ [b, c] = _
    rw [List.foldlM_cons, advance_trailing (by simp) hb₁ hb₂]
    show List.foldlM Visit.advance _ [c] = _
    rw [List.foldlM_cons, advance_trailing (by simp) hc₁ hc₂]
    rfl
  · obtain ⟨hb₁, hb₂⟩ := bounds_of_trailing hb h₃ (fun ha => hbelow' (h₄ ha))
    obtain ⟨hc₁, hc₂⟩ := bounds_of_isTrailing hc
    obtain ⟨hd₁, hd₂⟩ := bounds_of_isTrailing hd
    rw [List.foldlM_cons, (advance_front a).2.2.2 h₁ h₂]
    show List.foldlM Visit.advance _ [b, c, d] = _
    rw [List.foldlM_cons, advance_trailing (by simp) hb₁ hb₂]
    show List.foldlM Visit.advance _ [c, d] = _
    rw [List.foldlM_cons, advance_trailing (by simp) hc₁ hc₂]
    show List.foldlM Visit.advance _ [d] = _
    rw [List.foldlM_cons, advance_trailing (by simp) hd₁ hd₂]
    rfl

/-- **The automaton reads a text** without NUL. -/
theorem scan_of_valid {text : Bytes} (h : ValidUtf8 text) (hnul : 0 ∉ text) :
    scan text = some fresh := by
  induction h with
  | nil => rfl
  | @cons scalar text hscalar _ ih =>
    rw [List.mem_append, not_or] at hnul
    unfold scan
    rw [List.foldlM_append, foldlM_advance_scalar hscalar (fun heq => hnul.1 (by simp [heq]))]
    exact ih hnul.2

/-- **The automaton reads the beginnings of texts**, and nothing else. -/
theorem scan_isSome_iff {u : Bytes} : (scan u).isSome = true ↔ Beginning u := by
  constructor
  · intro h
    obtain ⟨v, hv⟩ := Option.isSome_iff_exists.mp h
    obtain ⟨text, part, rfl, htext, hpart, hnul⟩ := scan_eq_some hv
    obtain ⟨rest, hrest, hnul'⟩ := hpart.complete
    refine ⟨rest, ?_, fun hmem => (List.mem_append.mp hmem).elim hnul hnul'⟩
    rw [List.append_assoc]
    exact htext.append hrest
  · rintro ⟨rest, hvalid, hnul⟩
    have hscan := scan_of_valid hvalid hnul
    unfold scan at hscan ⊢
    rw [List.foldlM_append] at hscan
    obtain ⟨v, hv, -⟩ := Option.bind_eq_some_iff.mp hscan
    rw [hv]
    rfl

/-! ## The levels below a prefix -/

/-- **The strings of one length that lead from a node to another**, in their
order. -/
def Impl.suffixes (d : Impl) (root : ℕ) : ℕ → List Bytes
  | 0 => [[]]
  | n + 1 => (d.suffixes root n).flatMap (fun u =>
      (childBytes.filter (fun b => (d.walk root (u ++ [b])).isSome)).map (fun b => u ++ [b]))

/-- The visit that a string leads to. -/
def Impl.visitAt (d : Impl) (root : ℕ) (u : Bytes) : Visit :=
  ((scan u).getD fresh).moveTo ((d.walk root u).getD 0)

/-- The level of a search. -/
def Impl.level (d : Impl) (root n : ℕ) : List Visit := (d.suffixes root n).map (d.visitAt root)

/-- The bytes that a child can have are those that are not NUL. -/
theorem mem_childBytes (b : UInt8) : b ∈ childBytes ↔ b ≠ 0 := by
  constructor
  · intro h hzero
    obtain ⟨n, hn, rfl⟩ := List.mem_map.mp h
    have hvalue := toNat_ofNat_childBytes hn
    rw [hzero] at hvalue
    rw [← hvalue] at hn
    exact absurd (List.mem_range'_1.mp hn).1 (by decide)
  · intro h
    have hne : b.toNat ≠ 0 := fun hzero => h (UInt8.toNat_inj.mp hzero)
    have hlt := b.toNat_lt
    exact List.mem_map.mpr ⟨b.toNat, List.mem_range'_1.mpr (by omega), UInt8.ofNat_toNat⟩

/-- The bytes that a child can have, in their order. -/
theorem childBytes_sorted : childBytes.Pairwise (· < ·) := by
  have hsorted : (List.range' 1 255).Pairwise (· < ·) := List.pairwise_lt_range'
  refine List.pairwise_map.mpr (hsorted.imp_of_mem (fun {m n} hm hn hlt => ?_))
  rw [UInt8.lt_iff_toNat_lt, toNat_ofNat_childBytes hm, toNat_ofNat_childBytes hn]
  exact hlt

/-- Strings of one length that differ stay in their order. -/
theorem append_lt_append {u v : Bytes} (a b : UInt8) (hlen : u.length = v.length) (h : u < v) :
    u ++ [a] < v ++ [b] := by
  induction u generalizing v with
  | nil =>
    cases v with
    | nil => exact absurd h (lt_irrefl _)
    | cons y v => cases hlen
  | cons x u ih =>
    cases v with
    | nil => cases hlen
    | cons y v =>
      rcases List.cons_lt_cons_iff.mp h with hlt | ⟨rfl, hlt⟩
      · exact List.cons_lt_cons_iff.mpr (Or.inl hlt)
      · exact List.cons_lt_cons_iff.mpr (Or.inr ⟨rfl, ih (Nat.succ.inj hlen) hlt⟩)

/-- A common beginning does not change the order. -/
theorem append_left_lt (p : Bytes) {u v : Bytes} (h : u < v) : p ++ u < p ++ v := by
  induction p with
  | nil => exact h
  | cons x p ih => exact List.cons_lt_cons_iff.mpr (Or.inr ⟨rfl, ih⟩)

/-- The strings of a level have one length. -/
theorem length_of_mem_suffixes {d : Impl} {root n : ℕ} {u : Bytes} (h : u ∈ d.suffixes root n) :
    u.length = n := by
  induction n generalizing u with
  | zero => rw [List.mem_singleton.mp h]; rfl
  | succ n ih =>
    obtain ⟨w, hw, hu⟩ := List.mem_flatMap.mp h
    obtain ⟨b, -, rfl⟩ := List.mem_map.mp hu
    rw [List.length_append, ih hw]
    rfl

/-- **The strings of a level come in their order.** -/
theorem suffixes_sorted (d : Impl) (root n : ℕ) : (d.suffixes root n).Pairwise (· < ·) := by
  induction n with
  | zero => exact List.pairwise_singleton _ _
  | succ n ih =>
    refine List.pairwise_flatMap.mpr ⟨fun u _ => ?_, ?_⟩
    · refine List.pairwise_map.mpr ((childBytes_sorted.filter _).imp (fun hlt => ?_))
      exact append_left_lt u (List.cons_lt_cons_iff.mpr (Or.inl hlt))
    · refine ih.imp_of_mem (fun {u v} hu hv hlt x hx y hy => ?_)
      obtain ⟨a, -, rfl⟩ := List.mem_map.mp hx
      obtain ⟨b, -, rfl⟩ := List.mem_map.mp hy
      exact append_lt_append a b
        ((length_of_mem_suffixes hu).trans (length_of_mem_suffixes hv).symm) hlt

/-- The automaton at the child of a string. -/
theorem advance_visitAt {d : Impl} {root child : ℕ} {u : Bytes} (hscan : (scan u).isSome = true) (b : UInt8) :
    ((d.visitAt root u).moveTo child).advance b = (scan (u ++ [b])).map (fun w => w.moveTo child) := by
  obtain ⟨v, hv⟩ := Option.isSome_iff_exists.mp hscan
  rw [scan_append_singleton, hv, Option.bind_some]
  unfold Impl.visitAt
  rw [hv, Option.getD_some]
  exact advance_moveTo v child b

/-- What there is of one element. -/
theorem filterMap_singleton {α β : Type} (f : α → Option β) (a : α) :
    [a].filterMap f = (f a).toList := by
  rw [List.filterMap_cons]
  cases f a <;> rfl

/-- A filter and a map in one. -/
theorem filterMap_eq_map_filter {α β : Type} {f : α → Option β} {p : α → Bool} {g : α → β}
    {l : List α} (h : ∀ a ∈ l, f a = if p a then some (g a) else none) :
    l.filterMap f = (l.filter p).map g := by
  induction l with
  | nil => rfl
  | cons a l ih =>
    have hrest := ih (fun b hb => h b (List.mem_cons_of_mem _ hb))
    rw [List.filterMap_cons, h a List.mem_cons_self, List.filter_cons]
    cases p a with
    | true =>
      rw [if_pos rfl, if_pos rfl, List.map_cons, ← hrest]
    | false =>
      rw [if_neg Bool.false_ne_true, if_neg Bool.false_ne_true, ← hrest]

namespace Impl.Verified

variable {d : Impl} {keys : List Bytes} (h : d.Verified keys)
include h

/-- No byte of a walk is NUL. -/
theorem byte_ne_zero {state child : ℕ} {byte : UInt8} (hstate : state < d.nodeCount)
    (hchild : d.childOf state byte = some child) : byte ≠ 0 := by
  obtain ⟨hpos, hused⟩ := used_of_childOf h.fits hstate hchild
  obtain ⟨hbase, hlt, hparent, -, -⟩ := childOf_eq_some.mp hchild
  obtain ⟨byte', hne, hchild'⟩ := (h.sound child hpos hlt hused).edge
  rw [hparent] at hchild'
  have hbase' := (childOf_eq_some.mp hchild').1
  have heq : byte = byte' := UInt8.toNat_inj.mp (by omega)
  rw [heq]
  exact hne

/-- **A level holds the strings of its length that lead to a node.** -/
theorem mem_suffixes {root : ℕ} (hroot : root < d.nodeCount) {n : ℕ} {u : Bytes} :
    u ∈ d.suffixes root n ↔ u.length = n ∧ (d.walk root u).isSome = true := by
  induction n generalizing u with
  | zero =>
    constructor
    · intro hu
      rw [List.mem_singleton.mp hu]
      exact ⟨rfl, rfl⟩
    · rintro ⟨hu, -⟩
      rw [List.eq_nil_of_length_eq_zero hu]
      exact List.mem_singleton_self _
  | succ n ih =>
    constructor
    · intro hu
      refine ⟨length_of_mem_suffixes hu, ?_⟩
      obtain ⟨w, hw, hu⟩ := List.mem_flatMap.mp hu
      obtain ⟨b, hb, rfl⟩ := List.mem_map.mp hu
      exact (List.mem_filter.mp hb).2
    · rintro ⟨hlen, hwalk⟩
      rcases List.eq_nil_or_concat u with rfl | ⟨w, b, rfl⟩
      · cases hlen
      · rw [List.concat_eq_append] at hlen hwalk ⊢
        rw [List.length_append] at hlen
        have hsome := hwalk
        rw [walk_append_singleton] at hsome
        cases hw : d.walk root w with
        | none =>
          rw [hw] at hsome
          cases hsome
        | some node =>
          rw [hw, Option.bind_some] at hsome
          obtain ⟨child, hchild⟩ := Option.isSome_iff_exists.mp hsome
          have hb := h.byte_ne_zero (walk_lt hroot hw) hchild
          refine List.mem_flatMap.mpr ⟨w, ih.mpr ⟨Nat.succ.inj hlen, by rw [hw]; rfl⟩, ?_⟩
          exact List.mem_map.mpr ⟨b, List.mem_filter.mpr ⟨(mem_childBytes b).mpr hb, hwalk⟩, rfl⟩

/-- Every string of a level leads to a node. -/
theorem exists_node {root : ℕ} (hroot : root < d.nodeCount) {n : ℕ} {u : Bytes}
    (hu : u ∈ d.suffixes root n) :
    ∃ node, d.walk root u = some node ∧ node < d.nodeCount ∧ (d.visitAt root u).node = node := by
  obtain ⟨node, hnode⟩ := Option.isSome_iff_exists.mp ((h.mem_suffixes hroot).mp hu).2
  refine ⟨node, hnode, walk_lt hroot hnode, ?_⟩
  unfold Impl.visitAt
  rw [hnode]
  rfl

/-- The nodes of a level are nodes of the trie. -/
theorem level_lt {root : ℕ} (hroot : root < d.nodeCount) {n : ℕ} :
    ∀ v ∈ d.level root n, v.node < d.nodeCount := by
  intro v hv
  obtain ⟨u, hu, rfl⟩ := List.mem_map.mp hv
  obtain ⟨node, -, hlt, hnode⟩ := h.exists_node hroot hu
  rw [hnode]
  exact hlt

/-- **The edges of a level are good** when the automaton reads the strings of the
next one. -/
theorem goodEdges_iff {root : ℕ} (hroot : root < d.nodeCount) {n : ℕ}
    (hscan : ∀ u ∈ d.suffixes root n, (scan u).isSome = true) :
    (∀ e ∈ edges (d.level root n), d.GoodEdge e)
      ↔ ∀ u ∈ d.suffixes root (n + 1), (scan u).isSome = true := by
  constructor
  · intro hgood u hu
    obtain ⟨w, hw, hu⟩ := List.mem_flatMap.mp hu
    obtain ⟨b, hb, rfl⟩ := List.mem_map.mp hu
    obtain ⟨hb, hwalk⟩ := List.mem_filter.mp hb
    obtain ⟨node, hnode, -, hvisit⟩ := h.exists_node hroot hw
    rw [walk_append_singleton, hnode, Option.bind_some] at hwalk
    obtain ⟨child, hchild⟩ := Option.isSome_iff_exists.mp hwalk
    have hedge : (d.visitAt root w, b) ∈ edges (d.level root n) :=
      List.mem_flatMap.mpr ⟨_, List.mem_map_of_mem hw, List.mem_map_of_mem hb⟩
    have hsome := (hgood _ hedge).2 child (by rw [hvisit]; exact hchild)
    rw [advance_visitAt (hscan w hw), Option.isSome_map] at hsome
    exact hsome
  · intro hnext e he
    obtain ⟨v, hv, he⟩ := List.mem_flatMap.mp he
    obtain ⟨w, hw, rfl⟩ := List.mem_map.mp hv
    obtain ⟨b, hb, rfl⟩ := List.mem_map.mp he
    obtain ⟨node, hnode, hlt, hvisit⟩ := h.exists_node hroot hw
    refine ⟨?_, fun child hchild => ?_⟩
    · rw [hvisit]
      exact h.goodDepth hlt ((mem_childBytes b).mp hb)
    · rw [hvisit] at hchild
      have hwalk : (d.walk root (w ++ [b])).isSome = true := by
        rw [walk_append_singleton, hnode, Option.bind_some, Option.mem_def.mp hchild]
        rfl
      have hmem : w ++ [b] ∈ d.suffixes root (n + 1) :=
        List.mem_flatMap.mpr ⟨w, hw, List.mem_map.mpr ⟨b, List.mem_filter.mpr ⟨hb, hwalk⟩, rfl⟩⟩
      rw [advance_visitAt (hscan w hw), Option.isSome_map]
      exact hnext _ hmem

/-- **The level below a level.** -/
theorem nextLevel_level {root : ℕ} (hroot : root < d.nodeCount) {n : ℕ}
    (hscan : ∀ u ∈ d.suffixes root n, (scan u).isSome = true)
    (hnext : ∀ u ∈ d.suffixes root (n + 1), (scan u).isSome = true) :
    d.nextLevel (d.level root n) = d.level root (n + 1) := by
  have hbyte : ∀ u ∈ d.suffixes root n, ∀ b ∈ childBytes, d.visitOf (d.visitAt root u, b)
      = if (d.walk root (u ++ [b])).isSome then some (d.visitAt root (u ++ [b])) else none := by
    intro u hu b hb
    obtain ⟨node, hnode, -, hvisit⟩ := h.exists_node hroot hu
    have hwalk : d.walk root (u ++ [b]) = d.childOf node b := by
      rw [walk_append_singleton, hnode, Option.bind_some]
    unfold Impl.visitOf
    rw [hvisit, hwalk]
    cases hchild : d.childOf node b with
    | none => rfl
    | some child =>
      have hmem : u ++ [b] ∈ d.suffixes root (n + 1) := by
        refine List.mem_flatMap.mpr ⟨u, hu, List.mem_map.mpr ⟨b, List.mem_filter.mpr ⟨hb, ?_⟩, rfl⟩⟩
        rw [hwalk, hchild]
        rfl
      obtain ⟨w, hw⟩ := Option.isSome_iff_exists.mp (hnext _ hmem)
      have hvisit' : d.visitAt root (u ++ [b]) = w.moveTo child := by
        unfold Impl.visitAt
        rw [hw, hwalk, hchild]
        rfl
      rw [Option.map_some, Option.isSome_some, if_pos rfl, childVisit,
        advance_visitAt (hscan u hu), hw, hvisit']
      rfl
  unfold Impl.nextLevel edges Impl.level
  rw [List.filterMap_flatMap, List.flatMap_map, Impl.suffixes, List.map_flatMap]
  refine List.flatMap_congr (fun u hu => ?_)
  rw [List.filterMap_map, List.map_map]
  exact filterMap_eq_map_filter (hbyte u hu)

/-- Keys in their order have numbers in their order. -/
theorem keyId_lt_of_lt {q q' : Bytes} {m m' : PrefixMatch} (hq : d.find keys q = some m)
    (hq' : d.find keys q' = some m') (hlt : q < q') : m.keyId < m'.keyId := by
  obtain ⟨id, hid, rfl⟩ := Option.map_eq_some_iff.mp hq
  obtain ⟨id', hid', rfl⟩ := Option.map_eq_some_iff.mp hq'
  obtain ⟨hbound, rfl⟩ := List.getElem?_eq_some_iff.mp (h.idxOf_eq_some.mp hid)
  obtain ⟨hbound', rfl⟩ := List.getElem?_eq_some_iff.mp (h.idxOf_eq_some.mp hid')
  by_contra hge
  rcases lt_or_eq_of_le (not_lt.mp hge) with hgt | heq
  · exact lt_asymm hlt (List.pairwise_iff_getElem.mp h.sorted _ _ hbound' hbound hgt)
  · have heq' : id' = id := heq
    subst heq'
    exact lt_irrefl _ hlt

/-- The automaton is at the end of a character behind a key. -/
theorem remaining_eq_zero {p u : Bytes} {m : PrefixMatch} (hp : ValidUtf8 p)
    (hfind : d.find keys (p ++ u) = some m) (root : ℕ) : (d.visitAt root u).remaining = 0 := by
  obtain ⟨hvalid, hnul⟩ := isValidUtf8_iff.mp (h.valid _ (h.mem_of_find hfind))
  have hu := hp.of_append_left hvalid
  unfold Impl.visitAt
  rw [scan_of_valid hu (fun hmem => hnul (List.mem_append_right p hmem))]
  rfl

/-- **The keys of a level** are found, in their order, and no alarm is raised. -/
theorem matchRounds_apply {p : Bytes} {root : ℕ} (hp : ValidUtf8 p)
    (hroot : d.walk 0 p = some root) (n : ℕ) (s : Status) :
    (d.level root n).foldlM d.matchRound [] s
      = some ((d.suffixes root n).filterMap (fun u => d.find keys (p ++ u)), s) := by
  have hlt := walk_lt (root_lt h.fits) hroot
  have hgo : ∀ (todo done : List Bytes), done ++ todo = d.suffixes root n →
      (todo.map (d.visitAt root)).foldlM d.matchRound
          (done.filterMap (fun u => d.find keys (p ++ u))) s
        = some ((d.suffixes root n).filterMap (fun u => d.find keys (p ++ u)), s) := by
    intro todo
    induction todo with
    | nil =>
      intro done hdone
      rw [List.append_nil] at hdone
      rw [hdone]
      rfl
    | cons u todo ih =>
      intro done hdone
      have hu : u ∈ d.suffixes root n := by
        rw [← hdone]
        exact List.mem_append_right done List.mem_cons_self
      obtain ⟨node, hnode, hnlt, hvisit⟩ := h.exists_node hlt hu
      have hwalk : d.walk 0 (p ++ u) = some node := by rw [walk_append, hroot]; exact hnode
      have hused : node = 0 ∨ d.field node 4 ≠ noNode := by
        by_cases hzero : node = 0
        · exact Or.inl hzero
        · exact Or.inr (used_of_walk h.fits hwalk hzero)
      have hkey : d.find keys (p ++ u) = d.keyOf node := by rw [h.find_eq, hwalk]; rfl
      have hround : d.matchRound (done.filterMap (fun u => d.find keys (p ++ u)))
          (d.visitAt root u) s
          = some ((done ++ [u]).filterMap (fun u => d.find keys (p ++ u)), s) := by
        unfold Impl.matchRound
        rw [hvisit, bind_of_eq_some (h.matchNode_apply hnlt hused s), List.filterMap_append,
          filterMap_singleton, hkey]
        cases hm : d.keyOf node with
        | none =>
          rw [Option.toList_none, List.append_nil]
          rfl
        | some m =>
          have hfind : d.find keys (p ++ u) = some m := hkey.trans hm
          have hlast : (done.filterMap (fun u => d.find keys (p ++ u))).getLast?.any
              (fun last => m.keyId ≤ last.keyId) = false := by
            rw [Option.any_eq_false]
            intro last hlast
            obtain ⟨u', hu', hfind'⟩ := List.mem_filterMap.mp (List.mem_of_getLast? hlast)
            have hsorted := suffixes_sorted d root n
            rw [← hdone] at hsorted
            have hlt' := (List.pairwise_append.mp hsorted).2.2 u' hu' u List.mem_cons_self
            have := h.keyId_lt_of_lt hfind' hfind (append_left_lt p hlt')
            simpa using this
          have hrem := h.remaining_eq_zero hp hfind root
          dsimp only
          rw [hlast, if_neg Bool.false_ne_true, hrem, if_neg (fun hne => hne rfl)]
          rfl
      rw [List.map_cons, List.foldlM_cons, bind_of_eq_some hround]
      exact ih (done ++ [u]) (by rw [List.append_assoc]; exact hdone)
  exact hgo (d.suffixes root n) [] rfl

end Impl.Verified

/-! ## The search -/

/-- The shorter string first, and those of one length in their order. -/
def Shorter (a b : Bytes) : Prop := a.length < b.length ∨ a.length = b.length ∧ a ≤ b

instance : DecidableRel Shorter := fun a b =>
  inferInstanceAs (Decidable (a.length < b.length ∨ a.length = b.length ∧ a ≤ b))

instance : Std.Total Shorter where
  total a b := by
    rcases lt_trichotomy a.length b.length with hlt | heq | hlt
    · exact Or.inl (Or.inl hlt)
    · exact (le_total a b).imp (fun hle => Or.inr ⟨heq, hle⟩) (fun hle => Or.inr ⟨heq.symm, hle⟩)
    · exact Or.inr (Or.inl hlt)

instance : IsTrans Bytes Shorter where
  trans a b c hab hbc := by
    rcases hab with hab | ⟨hab, hle⟩
    · rcases hbc with hbc | ⟨hbc, -⟩
      · exact Or.inl (hab.trans hbc)
      · exact Or.inl (hbc ▸ hab)
    · rcases hbc with hbc | ⟨hbc, hle'⟩
      · exact Or.inl (hab ▸ hbc)
      · exact Or.inr ⟨hab.trans hbc, hle.trans hle'⟩

instance : Std.Antisymm Shorter where
  antisymm a b hab hba := by
    rcases hab with hab | ⟨hab, hle⟩
    · rcases hba with hba | ⟨hba, -⟩
      · exact absurd hab (lt_asymm hba)
      · exact absurd hab (hba ▸ lt_irrefl _)
    · rcases hba with hba | ⟨-, hle'⟩
      · exact absurd hba (hab ▸ lt_irrefl _)
      · exact le_antisymm hle hle'

/-- **The keys that start with a prefix**, the shorter first, and those of one
length in their order. -/
def completions (keys : List Bytes) (p : Bytes) : List Bytes :=
  (keys.filter (fun key => p.isPrefixOf key)).insertionSort Shorter

/-- **No cell below a prefix is reached by bytes that do not begin a text.** -/
def Impl.Clean (d : Impl) (p : Bytes) : Prop :=
  ∀ u, (d.walk 0 (p ++ u)).isSome = true → Beginning u

/-- What appending up to the maximum does. -/
theorem pushMatches_eq {maximum : ℕ} {out ms : List PrefixMatch}
    (hout : maximum ≠ 0 → out.length < maximum) :
    pushMatches maximum out ms
      = (firstOf maximum (out ++ ms), decide (maximum ≠ 0 ∧ maximum ≤ out.length + ms.length)) := by
  induction ms generalizing out with
  | nil =>
    have hfalse : ¬ (maximum ≠ 0 ∧ maximum ≤ out.length + 0) := by
      rintro ⟨hne, hle⟩
      have := hout hne
      omega
    rw [pushMatches, List.append_nil, firstOf_of_lt hout, List.length_nil, decide_eq_false hfalse]
  | cons m ms ih =>
    rw [pushMatches]
    split
    · rename_i hmax
      have htrue : maximum ≠ 0 ∧ maximum ≤ out.length + (m :: ms).length := by
        rw [List.length_cons]
        exact ⟨hmax.1, by omega⟩
      have hcut : firstOf maximum (out ++ m :: ms) = out ++ [m] := by
        rw [List.append_cons]
        exact firstOf_append hmax.1 (by rw [List.length_append]; exact hmax.2)
      rw [decide_eq_true htrue, hcut]
    · rename_i hmax
      have hout' : maximum ≠ 0 → (out ++ [m]).length < maximum := by
        intro hne
        have hlt := hout hne
        have hnext : out.length + 1 ≠ maximum := fun heq => hmax ⟨hne, heq⟩
        rw [List.length_append, List.length_singleton]
        omega
      rw [ih hout', List.append_assoc, List.singleton_append, List.length_append,
        List.length_singleton, List.length_cons, Nat.add_assoc, Nat.add_comm 1]

/-- A level of the search that reaches the maximum. -/
theorem predictiveLoop_stop {d : Impl} {maximum : ℕ} {level : List Visit}
    {out found : List PrefixMatch} (visited : List ℕ) {s : Status} (hlevel : level ≠ [])
    (hs : s.available = true) (hfound : level.foldlM d.matchRound [] s = some (found, s))
    (hpush : (pushMatches maximum out found).2 = true) :
    d.predictiveLoop maximum level out visited s
      = some (((pushMatches maximum out found).1, visited ++ level.map Visit.node), s) := by
  have hgo : ¬ (level = [] ∨ s.available = false) := by
    rw [hs]
    exact fun hor => hor.elim hlevel Bool.noConfusion
  rw [Impl.predictiveLoop, dif_neg hgo, hfound]
  dsimp only
  rw [if_neg (by rw [hs]; exact Bool.noConfusion), if_pos hpush]

/-- A level of the search that does not. -/
theorem predictiveLoop_step {d : Impl} {maximum : ℕ} {level next : List Visit}
    {out found : List PrefixMatch} (visited : List ℕ) {s s' : Status} (hlevel : level ≠ [])
    (hs : s.available = true) (hfound : level.foldlM d.matchRound [] s = some (found, s))
    (hpush : (pushMatches maximum out found).2 = false)
    (hnext : d.children level s = some (next, s')) :
    d.predictiveLoop maximum level out visited s
      = d.predictiveLoop maximum next (pushMatches maximum out found).1
        (visited ++ level.map Visit.node) s' := by
  have hgo : ¬ (level = [] ∨ s.available = false) := by
    rw [hs]
    exact fun hor => hor.elim hlevel Bool.noConfusion
  rw [Impl.predictiveLoop, dif_neg hgo, hfound]
  dsimp only
  rw [if_neg (by rw [hs]; exact Bool.noConfusion), hpush, if_neg Bool.false_ne_true]
  split
  · rename_i hnone
    rw [hnext] at hnone
    cases hnone
  · rename_i next' s'' hsome
    rw [hnext] at hsome
    cases hsome
    rfl

/-- The matches of a level. -/
def Impl.matchesAt (d : Impl) (keys : List Bytes) (p : Bytes) (root n : ℕ) : List PrefixMatch :=
  (d.suffixes root n).filterMap (fun u => d.find keys (p ++ u))

/-- Below an empty level there is nothing. -/
theorem suffixes_eq_nil {d : Impl} {root n m : ℕ} (h : d.suffixes root n = []) (hle : n ≤ m) :
    d.suffixes root m = [] := by
  induction hle with
  | refl => exact h
  | step _ ih => rw [Impl.suffixes, ih]; rfl

namespace Impl.Verified

variable {d : Impl} {keys : List Bytes} (h : d.Verified keys) {p : Bytes} {root : ℕ}
  (hp : ValidUtf8 p) (hroot : d.walk 0 p = some root)
include h hp hroot

/-- **The search of a clean prefix**, from a level on. `last` levels are left. -/
theorem predictiveLoop_clean (hclean : d.Clean p) {maximum : ℕ} {s : Status}
    (hs : s.available = true) (last : ℕ) {n : ℕ} (hlast : d.suffixes root (n + last) = [])
    {out : List PrefixMatch} (hout : maximum ≠ 0 → out.length < maximum) (visited : List ℕ) :
    ∃ visited', d.predictiveLoop maximum (d.level root n) out visited s
      = some ((firstOf maximum (out ++ (List.range' n last).flatMap (d.matchesAt keys p root)),
        visited'), s) := by
  have hlt := walk_lt (root_lt h.fits) hroot
  have hscan : ∀ n, ∀ u ∈ d.suffixes root n, (scan u).isSome = true := by
    intro n u hu
    refine scan_isSome_iff.mpr (hclean u ?_)
    rw [walk_append, hroot, Option.bind_some]
    exact ((h.mem_suffixes hlt).mp hu).2
  induction last generalizing n out visited with
  | zero =>
    have hlevel : d.level root n = [] := by rw [Impl.level, show d.suffixes root n = [] from hlast]; rfl
    refine ⟨visited, ?_⟩
    rw [Impl.predictiveLoop, dif_pos (Or.inl hlevel), if_pos hs, List.range'_zero, List.flatMap_nil,
      List.append_nil, firstOf_of_lt hout]
  | succ last ih =>
    by_cases hempty : d.suffixes root n = []
    · have hlevel : d.level root n = [] := by rw [Impl.level, hempty]; rfl
      have hnone : (List.range' n (last + 1)).flatMap (d.matchesAt keys p root) = [] := by
        refine List.flatMap_eq_nil_iff.mpr (fun m hm => ?_)
        rw [Impl.matchesAt, suffixes_eq_nil hempty (List.mem_range'_1.mp hm).1]
        rfl
      refine ⟨visited, ?_⟩
      rw [Impl.predictiveLoop, dif_pos (Or.inl hlevel), if_pos hs, hnone, List.append_nil,
        firstOf_of_lt hout]
    · have hlevel : d.level root n ≠ [] := by
        rw [Impl.level, Ne, List.map_eq_nil_iff]
        exact hempty
      have hfound := h.matchRounds_apply hp hroot n s
      rw [← Impl.matchesAt] at hfound
      rw [List.range'_succ, List.flatMap_cons, ← List.append_assoc]
      have hpush : pushMatches maximum out (d.matchesAt keys p root n) = _ := pushMatches_eq hout
      by_cases hmax : maximum ≠ 0 ∧ maximum ≤ out.length + (d.matchesAt keys p root n).length
      · rw [decide_eq_true hmax] at hpush
        have hreach : maximum ≤ (out ++ d.matchesAt keys p root n).length := by
          rw [List.length_append]
          exact hmax.2
        refine ⟨visited ++ (d.level root n).map Visit.node, ?_⟩
        rw [predictiveLoop_stop visited hlevel hs hfound (by rw [hpush]), hpush,
          firstOf_append_left _ hmax.1 hreach]
      · rw [decide_eq_false hmax] at hpush
        obtain ⟨s', hchildren, hsame, -⟩ := answers_children h.fits (h.level_lt hlt) s
        rw [hsame ((h.goodEdges_iff hlt (hscan n)).mpr (hscan (n + 1))),
          h.nextLevel_level hlt (hscan n) (hscan (n + 1))] at hchildren
        have hout' : maximum ≠ 0 →
            (out ++ d.matchesAt keys p root n).length < maximum := by
          intro hne
          rw [List.length_append]
          exact not_le.mp (fun hle => hmax ⟨hne, hle⟩)
        rw [firstOf_of_lt hout'] at hpush
        obtain ⟨visited', hrest⟩ := ih (n := n + 1) (by rw [Nat.add_assoc, Nat.add_comm 1]; exact hlast)
          hout' (visited ++ (d.level root n).map Visit.node)
        refine ⟨visited', ?_⟩
        rw [predictiveLoop_step visited hlevel hs hfound (by rw [hpush]) hchildren, hpush]
        exact hrest

/-- **The search of a prefix that is not clean** gives the dictionary up: the
first level with a string that does not begin a text raises the alarm. -/
theorem predictiveLoop_unclean {k : ℕ} (hscan : ∀ n < k, ∀ u ∈ d.suffixes root n,
      (scan u).isSome = true) {bad : Bytes} (hbad : bad ∈ d.suffixes root k)
    (hno : (scan bad).isSome = false) {s : Status} (hs : s.available = true) (last : ℕ) {n : ℕ}
    (hlast : n + last + 1 = k) (out : List PrefixMatch) (visited : List ℕ) :
    ∃ r s', d.predictiveLoop 0 (d.level root n) out visited s = some (r, s')
      ∧ s'.available = false := by
  have hlt := walk_lt (root_lt h.fits) hroot
  -- every level up to the bad one holds a beginning of the bad string
  have hlevel : ∀ m ≤ k, d.level root m ≠ [] := by
    intro m hm
    obtain ⟨hlen, hwalk⟩ := (h.mem_suffixes hlt).mp hbad
    rw [← List.take_append_drop m bad, walk_append] at hwalk
    have htake : bad.take m ∈ d.suffixes root m := by
      refine (h.mem_suffixes hlt).mpr ⟨by rw [List.length_take, hlen, min_eq_left hm], ?_⟩
      cases htake : d.walk root (bad.take m) with
      | none =>
        rw [htake] at hwalk
        cases hwalk
      | some node => rfl
    rw [Impl.level, Ne, List.map_eq_nil_iff]
    exact List.ne_nil_of_mem htake
  have hstep : ∀ n < k, ∀ out visited, ∃ s' visited', d.predictiveLoop 0 (d.level root n) out visited s
      = d.predictiveLoop 0 (d.nextLevel (d.level root n)) (out ++ d.matchesAt keys p root n) visited' s'
      ∧ ((∀ u ∈ d.suffixes root (n + 1), (scan u).isSome = true) → s' = s)
      ∧ (¬ (∀ u ∈ d.suffixes root (n + 1), (scan u).isSome = true) → s'.available = false) := by
    intro n hn out visited
    obtain ⟨s', hchildren, hsame, hgone⟩ := answers_children h.fits (h.level_lt hlt) s
    have hpush : pushMatches 0 out (d.matchesAt keys p root n) = _ :=
      pushMatches_eq (fun hne => absurd rfl hne)
    rw [decide_eq_false (fun hmax => hmax.1 rfl), firstOf, if_pos rfl] at hpush
    have hgood := h.goodEdges_iff hlt (hscan n hn)
    refine ⟨s', visited ++ (d.level root n).map Visit.node, ?_, fun hall => hsame (hgood.mpr hall),
      fun hall => hgone (fun hedges => hall (hgood.mp hedges))⟩
    rw [predictiveLoop_step visited (hlevel n hn.le) hs (h.matchRounds_apply hp hroot n s)
      (by rw [← Impl.matchesAt, hpush]) hchildren, ← Impl.matchesAt, hpush]
  induction last generalizing n out visited with
  | zero =>
    obtain ⟨s', visited', hloop, -, hgone⟩ := hstep n (by omega) out visited
    have hgone := hgone (fun hall => by
      rw [hall bad (by rw [show n + 1 = k from hlast]; exact hbad)] at hno
      cases hno)
    refine ⟨([], visited'), s', ?_, hgone⟩
    rw [hloop, Impl.predictiveLoop, dif_pos (Or.inr hgone), hgone]
    rfl
  | succ last ih =>
    obtain ⟨s', visited', hloop, hsame, -⟩ := hstep n (by omega) out visited
    have hall := hscan (n + 1) (by omega)
    rw [hsame hall, h.nextLevel_level hlt (hscan n (by omega)) hall] at hloop
    rw [hloop]
    exact ih (by omega) _ _

omit hp in
/-- **The levels of a search hold the keys that start with the prefix**, in the
order of the answer. -/
theorem levels_eq_completions {last : ℕ} (hlast : d.suffixes root last = []) :
    (List.range' 0 last).flatMap (d.matchesAt keys p root)
      = (completions keys p).filterMap (d.find keys) := by
  have hlt := walk_lt (root_lt h.fits) hroot
  have hnodup : keys.Nodup := h.sorted.imp (fun hlt => ne_of_lt hlt)
  let levelKeys : ℕ → List Bytes := fun n =>
    ((d.suffixes root n).filter (fun u => (d.find keys (p ++ u)).isSome)).map (fun u => p ++ u)
  have hlength : ∀ {n q}, q ∈ levelKeys n → q.length = p.length + n := by
    intro n q hq
    obtain ⟨u, hu, rfl⟩ := List.mem_map.mp hq
    rw [List.length_append, length_of_mem_suffixes (List.mem_filter.mp hu).1]
  have hstrict : ((List.range' 0 last).flatMap levelKeys).Pairwise
      (fun a b => Shorter a b ∧ a ≠ b) := by
    refine List.pairwise_flatMap.mpr ⟨fun n _ => ?_, ?_⟩
    · refine List.pairwise_map.mpr (((suffixes_sorted d root n).filter _).imp_of_mem ?_)
      intro u v hu hv huv
      have hlen := (length_of_mem_suffixes (List.mem_filter.mp hu).1).trans
        (length_of_mem_suffixes (List.mem_filter.mp hv).1).symm
      have hpuv := append_left_lt p huv
      exact ⟨Or.inr ⟨by rw [List.length_append, List.length_append, hlen], hpuv.le⟩, hpuv.ne⟩
    · have horder : (List.range' 0 last).Pairwise (· < ·) := List.pairwise_lt_range' ..
      refine horder.imp (fun {n m} hnm a ha b hb => ?_)
      have hshort : a.length < b.length := by
        rw [hlength ha, hlength hb]
        omega
      exact ⟨Or.inl hshort, fun heq => absurd hshort (heq ▸ lt_irrefl _)⟩
  have hmem : ∀ q, q ∈ (List.range' 0 last).flatMap levelKeys
      ↔ q ∈ keys.filter (fun key => p.isPrefixOf key) := by
    intro q
    rw [List.mem_flatMap, List.mem_filter, List.isPrefixOf_iff_prefix]
    constructor
    · rintro ⟨n, -, hq⟩
      obtain ⟨u, hu, rfl⟩ := List.mem_map.mp hq
      obtain ⟨m, hm⟩ := Option.isSome_iff_exists.mp (List.mem_filter.mp hu).2
      exact ⟨h.mem_of_find hm, List.prefix_append p u⟩
    · rintro ⟨hq, u, rfl⟩
      obtain ⟨id, hid⟩ := List.mem_iff_getElem?.mp hq
      obtain ⟨node, m, hwalk, hm, -⟩ := h.node_of_key hid
      have hu : u ∈ d.suffixes root u.length := by
        refine (h.mem_suffixes hlt).mpr ⟨rfl, ?_⟩
        rw [walk_append, hroot, Option.bind_some] at hwalk
        rw [hwalk]
        rfl
      refine ⟨u.length, List.mem_range'_1.mpr ⟨Nat.zero_le _, ?_⟩, ?_⟩
      · by_contra hge
        rw [suffixes_eq_nil hlast (by omega)] at hu
        cases hu
      · refine List.mem_map.mpr ⟨u, List.mem_filter.mpr ⟨hu, ?_⟩, rfl⟩
        rw [h.find_eq, hwalk, Option.bind_some, hm]
        rfl
  have hkeys : (List.range' 0 last).flatMap levelKeys = completions keys p := by
    refine List.Perm.eq_of_pairwise' (r := Shorter) (hstrict.imp And.left)
      (List.pairwise_insertionSort _ _) ?_
    refine List.Perm.trans ?_ (List.perm_insertionSort _ _).symm
    exact (List.perm_ext_iff_of_nodup (hstrict.imp And.right) (hnodup.filter _)).mpr hmem
  rw [← hkeys, List.filterMap_flatMap]
  refine List.flatMap_congr (fun n _ => ?_)
  rw [List.filterMap_map, List.filterMap_filter, Impl.matchesAt]
  refine List.filterMap_congr (fun u _ => ?_)
  show d.find keys (p ++ u) = if (d.find keys (p ++ u)).isSome then d.find keys (p ++ u) else none
  cases d.find keys (p ++ u) <;> rfl

end Impl.Verified

/-- The levels run out: the depth of a node is a 32-bit number. -/
theorem Impl.Verified.suffixes_last {d : Impl} {keys : List Bytes} (h : d.Verified keys) {root : ℕ}
    (hroot : root < d.nodeCount) : ∃ last, d.suffixes root last = [] := by
  refine ⟨256 ^ 4, List.eq_nil_iff_forall_not_mem.mpr (fun u hu => ?_)⟩
  obtain ⟨hlen, hwalk⟩ := (h.mem_suffixes hroot).mp hu
  obtain ⟨node, hnode⟩ := Option.isSome_iff_exists.mp hwalk
  have hdepth := walk_depth hnode
  have hbound : d.field node 12 < 256 ^ 4 := value_lt _ _ _
  omega

namespace Impl.Verified

variable {d : Impl} {keys : List Bytes} (h : d.Verified keys)
include h

/-- No walk reads a NUL. -/
theorem zero_not_mem_of_walk {state node : ℕ} {p : Bytes} (hstate : state < d.nodeCount)
    (hwalk : d.walk state p = some node) : 0 ∉ p := by
  induction p generalizing state with
  | nil => exact List.not_mem_nil
  | cons byte p ih =>
    rw [walk_cons] at hwalk
    obtain ⟨child, hchild, hwalk⟩ := Option.bind_eq_some_iff.mp hwalk
    have hbyte := h.byte_ne_zero hstate hchild
    have hrest := ih (childOf_eq_some.mp hchild).2.1 hwalk
    exact fun hmem => (List.mem_cons.mp hmem).elim (fun heq => hbyte heq.symm) hrest

/-- A prefix that leads nowhere has no completions. -/
theorem completions_eq_nil {p : Bytes} (hwalk : d.walk 0 p = none) : completions keys p = [] := by
  have hnone : keys.filter (fun key => p.isPrefixOf key) = [] := by
    refine List.filter_eq_nil_iff.mpr (fun key hkey hprefix => ?_)
    obtain ⟨u, rfl⟩ := List.isPrefixOf_iff_prefix.mp hprefix
    obtain ⟨id, hid⟩ := List.mem_iff_getElem?.mp hkey
    obtain ⟨node, m, hnode, -⟩ := h.node_of_key hid
    rw [walk_append, hwalk] at hnode
    cases hnode
  rw [completions, hnone]
  rfl

variable {p : Bytes} (hp : ValidUtf8 p) (hne : p ≠ []) {s : Status} (hs : s.available = true)
include hs

/-- `PredictiveSearch` of a prefix that leads nowhere. -/
theorem predictiveSearch_none (hwalk : d.walk 0 p = none) (maximum : ℕ) :
    d.predictiveSearch p maximum s = some ([], s) := by
  unfold Impl.predictiveSearch Impl.predictiveVisits
  rw [bind_apply, bind_of_eq_some (isAvailable_apply s), hs]
  split
  · rfl
  · rename_i hguard
    simp only [Bool.not_true, Bool.false_or, Bool.or_eq_true, not_or, Bool.not_eq_true,
      Bool.not_eq_false'] at hguard
    rw [bind_of_eq_some (h.walk_apply (isValidUtf8_iff.mp hguard.2).2 (root_lt h.fits) s), hwalk]
    rfl

include hp hne

/-- `PredictiveSearch` of a prefix that leads to a node. -/
theorem predictiveSearch_some {root : ℕ} (hwalk : d.walk 0 p = some root) (maximum : ℕ) :
    d.predictiveSearch p maximum s
      = (d.predictiveLoop maximum (d.level root 0) [] [] s).map (fun r => (r.1.1, r.2)) := by
  have hnul := h.zero_not_mem_of_walk (root_lt h.fits) hwalk
  have hguard : ¬ (!true || p.isEmpty || !isValidUtf8 p) = true := by
    rw [isValidUtf8_iff.mpr ⟨hp, hnul⟩]
    simpa using hne
  unfold Impl.predictiveSearch Impl.predictiveVisits
  rw [bind_apply, bind_of_eq_some (isAvailable_apply s), hs, if_neg hguard,
    bind_of_eq_some (h.walk_apply hnul (root_lt h.fits) s), hwalk]
  show (d.predictiveLoop maximum (d.level root 0) [] [] s).bind _ = _
  cases d.predictiveLoop maximum (d.level root 0) [] [] s <;> rfl

/-- **A clean prefix is completed.** -/
theorem predictiveSearch_clean (hclean : d.Clean p) (maximum : ℕ) :
    d.predictiveSearch p maximum s
      = some (firstOf maximum ((completions keys p).filterMap (d.find keys)), s) := by
  cases hwalk : d.walk 0 p with
  | none =>
    rw [h.predictiveSearch_none hs hwalk, h.completions_eq_nil hwalk, List.filterMap_nil,
      firstOf_of_lt Nat.pos_of_ne_zero]
  | some root =>
    obtain ⟨last, hlast⟩ := h.suffixes_last (walk_lt (root_lt h.fits) hwalk)
    obtain ⟨visited, hloop⟩ : ∃ visited, d.predictiveLoop maximum (d.level root 0) [] [] s
        = some ((firstOf maximum ((List.range' 0 last).flatMap (d.matchesAt keys p root)),
          visited), s) :=
      h.predictiveLoop_clean hp hwalk hclean hs last (by rw [Nat.zero_add]; exact hlast)
        Nat.pos_of_ne_zero []
    rw [h.predictiveSearch_some hp hne hs hwalk, hloop, h.levels_eq_completions hwalk hlast]
    rfl

/-- **The search of a prefix that is not clean gives the dictionary up.** -/
theorem predictiveSearch_unclean (hclean : ¬ d.Clean p) :
    ∃ r s', d.predictiveSearch p 0 s = some (r, s') ∧ s'.available = false := by
  obtain ⟨u, hu⟩ := not_forall.mp hclean
  obtain ⟨hu, hno⟩ := Classical.not_imp.mp hu
  rw [walk_append] at hu
  cases hwalk : d.walk 0 p with
  | none =>
    rw [hwalk] at hu
    cases hu
  | some root =>
    rw [hwalk, Option.bind_some] at hu
    have hlt := walk_lt (root_lt h.fits) hwalk
    have hexists : ∃ k, ∃ u ∈ d.suffixes root k, (scan u).isSome = false := by
      refine ⟨u.length, u, (h.mem_suffixes hlt).mpr ⟨rfl, hu⟩, ?_⟩
      rw [Bool.eq_false_iff]
      exact fun hsome => hno (scan_isSome_iff.mp hsome)
    obtain ⟨bad, hbad, hscan⟩ := Nat.find_spec hexists
    have hbefore : ∀ n < Nat.find hexists, ∀ u ∈ d.suffixes root n, (scan u).isSome = true := by
      intro n hn u hu
      by_contra hno
      exact Nat.find_min hexists hn ⟨u, hu, Bool.eq_false_iff.mpr hno⟩
    have hpos : Nat.find hexists ≠ 0 := by
      intro hzero
      rw [hzero] at hbad
      rw [List.mem_singleton.mp hbad] at hscan
      cases hscan
    obtain ⟨r, s', hloop, hgone⟩ := h.predictiveLoop_unclean hp hwalk hbefore hbad hscan hs
      (Nat.find hexists - 1) (n := 0) (by omega) [] []
    exact ⟨r.1, s', by rw [h.predictiveSearch_some hp hne hs hwalk, hloop]; rfl, hgone⟩

end Impl.Verified

/-- **`PredictiveSearch` in a verified dictionary**: with the keys that
`ExactMatch` finds, a prefix is completed, and the dictionary kept, exactly
when no cell below it is reached by bytes that do not begin a text. -/
theorem predictiveSearch_iff {σ : SectionSort} {image : Image} {d : Impl} {s : Status}
    (h : load σ image true = some (some d, s)) :
    ∃ keys : List Bytes, keys.Pairwise (· < ·) ∧ (∀ key ∈ keys, ValidUtf8 key ∧ 0 ∉ key)
      ∧ (∀ q, d.exactMatch q s = some (d.find keys q, s))
      ∧ ∀ p : Bytes, p ≠ [] → ValidUtf8 p →
        ((∀ maximum, d.predictiveSearch p maximum s
            = some (firstOf maximum ((completions keys p).filterMap (d.find keys)), s))
          ↔ d.Clean p) := by
  obtain ⟨hs, keys, hkeys⟩ := load_eq_some h
  refine ⟨keys, hkeys.sorted, fun key hkey => isValidUtf8_iff.mp (hkeys.valid key hkey),
    fun q => hkeys.exactMatch_apply q hs, fun p hne hp => ⟨fun hall => ?_, fun hclean maximum => ?_⟩⟩
  · by_contra hclean
    obtain ⟨r, s', hsearch, hgone⟩ := hkeys.predictiveSearch_unclean hp hne hs hclean
    rw [hall 0] at hsearch
    cases hsearch
    rw [hs] at hgone
    cases hgone
  · exact hkeys.predictiveSearch_clean hp hne hs hclean maximum

/-- The law at the image with one key. -/
theorem predictiveSearch_iff_oneEntry : ∃ d s, load .insertion oneEntryImage true = some (some d, s)
    ∧ ∃ keys : List Bytes, keys.Pairwise (· < ·) ∧ (∀ key ∈ keys, ValidUtf8 key ∧ 0 ∉ key)
      ∧ (∀ q, d.exactMatch q s = some (d.find keys q, s))
      ∧ ∀ p : Bytes, p ≠ [] → ValidUtf8 p →
        ((∀ maximum, d.predictiveSearch p maximum s
            = some (firstOf maximum ((completions keys p).filterMap (d.find keys)), s))
          ↔ d.Clean p) := by
  obtain ⟨d, s, hload, -⟩ := load_oneEntryImage
  exact ⟨d, s, hload, predictiveSearch_iff hload⟩

/-! ## A dictionary with a dead cell -/

/-- A cell that is not in use. -/
def freeNode : Bytes := packNode 0 noNode noNode 0

/-- A root, the key U+0001 below it, and below the key a cell that leads to no
key, by the byte `0x80`. -/
def deadNodes : Bytes :=
  packNode 0 0 noNode 0 ++ packNode 0 0 0 1 ++ (List.replicate 126 freeNode).flatten
    ++ packNode 0 1 noNode 2

/-- An image with a dead cell. -/
def deadImage : Image := imageOf (pack (oneEntrySections deadNodes) 0 1 1)

/-- What `Structure` finds in it. -/
def deadImpl : Impl :=
  ⟨deadImage, 0, 1, 1, 1, ⟨288, 2064⟩, ⟨280, 8⟩, ⟨272, 8⟩, ⟨240, 32⟩, ⟨232, 1⟩, ⟨208, 18⟩, none⟩

/-- The numbers of a reader. -/
def Impl.numbers (d : Impl) : List ℕ :=
  [d.layer, d.entries, d.keys, d.posCount, d.trie.offset, d.trie.size, d.keySection.offset,
    d.keySection.size, d.refs.offset, d.refs.size, d.records.offset, d.records.size,
    d.strings.offset, d.strings.size, d.metadata.offset, d.metadata.size]

/-- A reader is its image, its numbers and its surface index. -/
theorem impl_eq {d e : Impl} (himage : d.image = e.image) (hnumbers : d.numbers = e.numbers)
    (hindex : d.surfaceIndex = e.surfaceIndex) : d = e := by
  obtain ⟨image, layer, entries, keys, posCount, ⟨_, _⟩, ⟨_, _⟩, ⟨_, _⟩, ⟨_, _⟩, ⟨_, _⟩, ⟨_, _⟩, index⟩ := d
  obtain ⟨image', layer', entries', keys', posCount', ⟨_, _⟩, ⟨_, _⟩, ⟨_, _⟩, ⟨_, _⟩, ⟨_, _⟩, ⟨_, _⟩,
    index'⟩ := e
  simp only [Impl.numbers, List.cons.injEq, and_true] at hnumbers
  obtain ⟨rfl, rfl, rfl, rfl, rfl, rfl, rfl, rfl, rfl, rfl, rfl, rfl, rfl, rfl, rfl, rfl⟩ := hnumbers
  cases himage
  cases hindex
  rfl

/-- The numbers that `Structure` finds. -/
theorem numbers_deadImage : ((structureOf .insertion deadImage ⟨false, "not loaded"⟩).any (fun r =>
    r.1.any (fun d => d.numbers == deadImpl.numbers && d.surfaceIndex.isNone))) = true := by
  decide +kernel

/-- `Structure` accepts the image. -/
theorem structureOf_deadImage :
    structureOf .insertion deadImage ⟨false, "not loaded"⟩ = some (some deadImpl, ⟨true, ""⟩) := by
  obtain ⟨⟨r, s⟩, hr, hany⟩ := (Option.any_eq_true _ _).mp numbers_deadImage
  obtain ⟨d, rfl, hd⟩ := (Option.any_eq_true _ _).mp hany
  obtain ⟨-, himage, rfl⟩ := fits_of_structureOf hr
  obtain ⟨hnumbers, hindex⟩ := Bool.and_eq_true_iff.mp hd
  rw [hr, impl_eq himage (eq_of_beq hnumbers) (Option.isNone_iff_eq_none.mp hindex)]

/-- The cells between the key and the dead cell are not in use. -/
theorem field_deadImpl {i : ℕ} (h₁ : 2 ≤ i) (h₂ : i < 128) : deadImpl.field i 4 = noNode := by
  obtain ⟨j, rfl⟩ := Nat.exists_eq_add_of_le h₁
  obtain ⟨k, hk⟩ := Nat.exists_eq_add_of_lt (show j < 126 by omega)
  obtain ⟨before, after, hpack, hbefore⟩ : ∃ before after, pack (oneEntrySections deadNodes) 0 1 1
      = before ++ deadNodes ++ after ∧ before.length = 288 :=
    pack_split (show ∀ s ∈ oneEntrySections deadNodes, s.1.length = 4 by decide)
      (show (oneEntrySections deadNodes)[5]? = some (utf8 "TRIE", deadNodes) from rfl)
      (show (sectionOffsets 208 (oneEntrySections deadNodes))[5]? = some 288 by decide)
  have hfree : freeNode = packNumber 4 0 ++ packNumber 4 noNode
      ++ (packNumber 4 noNode ++ packNumber 4 0) := by decide
  have hlength : (List.replicate j freeNode).flatten.length = j * 16 := by
    rw [List.length_flatten, List.map_replicate, List.sum_replicate]
    rfl
  have hsplit : (List.replicate 126 freeNode).flatten = (List.replicate j freeNode).flatten
      ++ freeNode ++ (List.replicate k freeNode).flatten := by
    rw [hk, show j + k + 1 = j + (1 + k) by omega, List.replicate_add, List.replicate_add]
    simp
  have himage : pack (oneEntrySections deadNodes) 0 1 1
      = (before ++ (packNode 0 0 noNode 0 ++ packNode 0 0 0 1 ++ (List.replicate j freeNode).flatten
        ++ packNumber 4 0)) ++ packNumber 4 noNode
        ++ (packNumber 4 noNode ++ packNumber 4 0 ++ (List.replicate k freeNode).flatten
          ++ packNode 0 1 noNode 2 ++ after) := by
    rw [hpack, deadNodes, hsplit]
    nth_rewrite 2 [hfree]
    simp only [List.append_assoc]
  have hvalue : deadImpl.image.slice (288 + (2 + j) * 16 + 4) 4 = packNumber 4 noNode := by
    show (imageOf (pack (oneEntrySections deadNodes) 0 1 1)).slice _ _ = _
    rw [himage]
    refine slice_imageOf_append _ _ _ ?_ (length_packNumber 4 noNode)
    simp only [List.length_append, packNode, length_packNumber, hlength, hbefore]
    omega
  unfold Impl.field Image.value
  rw [show deadImpl.trie.offset = 288 from rfl, hvalue]
  decide

/-- The reader of the image fits. -/
theorem fits_deadImpl : deadImpl.Fits := (fits_of_structureOf structureOf_deadImage).1

/-- `Verify` passes over the cells that are not in use. -/
theorem verifyNodes_deadImpl {count first : ℕ} (h₁ : 2 ≤ first) (h₂ : first + count ≤ 128)
    (texts : List (Option Bytes)) (s : Status) :
    foldUntil deadImpl.verifyNode (List.range' first count) texts s = some (some texts, s) := by
  induction count generalizing first with
  | zero => rfl
  | succ count ih =>
    have hcell : deadImpl.verifyNode texts first s = some (some texts, s) := by
      have hlt : first < deadImpl.nodeCount := lt_of_lt_of_le (by omega : first < 128) (by decide)
      unfold Impl.verifyNode
      rw [bind_of_eq_some (node_apply fits_deadImpl hlt (by norm_num) s),
        field_deadImpl h₁ (by omega), if_pos rfl]
      rfl
    rw [List.range'_succ, foldUntil, bind_of_eq_some hcell]
    exact ih (by omega) (by omega)

/-- `Verify` accepts the image: the dead cell hangs below the key, and has no
key of its own. -/
theorem verify_deadImpl : deadImpl.verify ⟨true, ""⟩ = some (true, ⟨true, ""⟩) := by
  have himage : deadImpl.image = imageOf (pack (oneEntrySections deadNodes) 0 1 1) := rfl
  have hhash : (contentHash 14695981039346656037
      (deadImpl.image.slice 64 (deadImpl.image.size - 64))).toNat = deadImpl.image.value 32 8 := by
    rw [himage]
    exact hash_pack (oneEntrySections deadNodes) 0 1 1
  have hheader := fits_deadImpl.header
  have hkey : deadImpl.verifyNode [none] 1 ⟨true, ""⟩ = some (some [some [1]], ⟨true, ""⟩) := by
    decide +kernel
  have hdead : deadImpl.verifyNode [some [1]] 128 ⟨true, ""⟩ = some (some [some [1]], ⟨true, ""⟩) := by
    decide +kernel
  have htables : deadImpl.verifyTables ⟨true, ""⟩ = some (true, ⟨true, ""⟩) := by decide +kernel
  have hnodes : foldUntil deadImpl.verifyNode (List.range' 1 (deadImpl.nodeCount - 1))
      (List.replicate deadImpl.keys none) ⟨true, ""⟩ = some (some [some [1]], ⟨true, ""⟩) := by
    have hcells : List.range' 1 (deadImpl.nodeCount - 1) = 1 :: (List.range' 2 126 ++ [128]) := by
      decide
    have hkeys : List.replicate deadImpl.keys (none : Option Bytes) = [none] := rfl
    rw [hcells, hkeys, foldUntil, bind_of_eq_some hkey, Option.elim_some,
      foldUntil_append (verifyNodes_deadImpl (by norm_num) (by norm_num) _ _), foldUntil,
      bind_of_eq_some hdead]
    rfl
  unfold Impl.verify
  rw [bind_of_eq_some (isAvailable_apply _), if_neg (by decide),
    bind_of_eq_some (bytes_apply (by omega) _), bind_of_eq_some (read_apply (by omega) _),
    if_neg (not_not.mpr hhash), bind_of_eq_some hnodes]
  dsimp only
  rw [if_neg (by decide), if_neg (by decide), htables]

/-- The image is loaded. -/
theorem load_deadImage : load .insertion deadImage true = some (some deadImpl, ⟨true, ""⟩) := by
  unfold load
  rw [bind_of_eq_some structureOf_deadImage]
  dsimp only
  rw [if_pos rfl, bind_of_eq_some verify_deadImpl]
  rfl

/-- **A dead cell costs the dictionary**: the search below the key U+0001 reaches
it by the byte `0x80`, which begins no text, and gives the dictionary up. -/
theorem predictiveSearch_deadCell : ∃ d s, load .insertion deadImage true = some (some d, s)
    ∧ ∀ keys : List Bytes, (∀ q, d.exactMatch q s = some (d.find keys q, s)) →
      ¬ ∀ maximum, d.predictiveSearch [1] maximum s
        = some (firstOf maximum ((completions keys [1]).filterMap (d.find keys)), s) := by
  refine ⟨deadImpl, ⟨true, ""⟩, load_deadImage, fun keys _ hall => ?_⟩
  obtain ⟨hs, keys', hkeys⟩ := load_eq_some load_deadImage
  have hclean : ¬ deadImpl.Clean [1] := by
    intro hclean
    have hwalk : deadImpl.walk 0 [1, 0x80] = some 128 := by decide +kernel
    have hbegin := scan_isSome_iff.mpr (hclean [0x80] (by rw [List.singleton_append, hwalk]; rfl))
    exact absurd hbegin (by decide)
  obtain ⟨r, s', hsearch, hgone⟩ :=
    hkeys.predictiveSearch_unclean (.of_ascii (by decide)) (by decide) hs hclean
  rw [hall 0] at hsearch
  cases hsearch
  cases hgone

end AzooKey.Core.Dictionary

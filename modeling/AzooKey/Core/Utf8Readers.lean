import AzooKey.Core.Utf8
import AzooKey.Core.DoubleArrayTriePredictive
import AzooKey.Ipc.JsonText

/-!
# The readers of UTF-8

The program reads UTF-8 in six places, each with a decoder of its own:
`DecodeNextUtf8` of the core, `Decode` of the dictionary, `DecodeUtf8At` of the
chunker of live conversion, `ParseString` of the JSON reader, `NextCodePoint` of
a proofreading session, and the automaton of `PredictiveSearch`, which takes a
byte at a time. Some of them look at the ranges of bytes, the others put the bits
together and look at the value.

They agree: all of them accept the octets of a character and nothing else, with
the same length and the same value, save that the dictionary has no NUL
(`utf8_readers_agree`). What none of them accepts is refused by those that read
a whole text, and one octet of it is skipped by those that go on.
-/

namespace AzooKey.Core

open Dictionary

/-! ## The chunker of live conversion -/

/-- `DecodeResult`. -/
structure DecodeResult where
  codePoint : ℕ
  byteLength : ℕ
deriving DecidableEq

/-- `IsContinuation`. -/
def isContinuation (ch : UInt8) : Bool := ch &&& 0xc0 = 0x80

/-- The sequence of two bytes. -/
def decodeTwo (b0 : UInt8) : Bytes → Option DecodeResult
  | b1 :: _ =>
    if b0 &&& 0xe0 = 0xc0 ∧ isContinuation b1 then
      let cp := ((b0 &&& 0x1f).toNat <<< 6) ||| (b1 &&& 0x3f).toNat
      if 0x80 ≤ cp then some ⟨cp, 2⟩ else none
    else none
  | _ => none

/-- The sequence of three bytes. -/
def decodeThree (b0 : UInt8) : Bytes → Option DecodeResult
  | b1 :: b2 :: _ =>
    if b0 &&& 0xf0 = 0xe0 ∧ isContinuation b1 ∧ isContinuation b2 then
      let cp := ((b0 &&& 0x0f).toNat <<< 12) ||| ((b1 &&& 0x3f).toNat <<< 6) ||| (b2 &&& 0x3f).toNat
      if 0x800 ≤ cp ∧ (cp < 0xd800 ∨ 0xdfff < cp) then some ⟨cp, 3⟩ else none
    else none
  | _ => none

/-- The sequence of four bytes. -/
def decodeFour (b0 : UInt8) : Bytes → Option DecodeResult
  | b1 :: b2 :: b3 :: _ =>
    if b0 &&& 0xf8 = 0xf0 ∧ isContinuation b1 ∧ isContinuation b2 ∧ isContinuation b3 then
      let cp := ((b0 &&& 0x07).toNat <<< 18) ||| ((b1 &&& 0x3f).toNat <<< 12)
        ||| ((b2 &&& 0x3f).toNat <<< 6) ||| (b3 &&& 0x3f).toNat
      if 0x10000 ≤ cp ∧ cp ≤ 0x10ffff then some ⟨cp, 4⟩ else none
    else none
  | _ => none

/-- **`DecodeUtf8At`**: the character at the front of a text, of which the first
byte is given. -/
def decodeUtf8At (b0 : UInt8) (rest : Bytes) : DecodeResult :=
  if b0 < 0x80 then ⟨b0.toNat, 1⟩
  else
    ((decodeTwo b0 rest).or ((decodeThree b0 rest).or (decodeFour b0 rest))).getD ⟨0xfffd, 1⟩

/-! ## The suggestions of a proofreading session -/

/-- What `NextCodePoint` takes from a lead byte: the length, the bits and the
least value. -/
def leadUnit (first : UInt8) : Option (ℕ × ℕ × ℕ) :=
  if first &&& 0xe0 = 0xc0 then some (2, (first &&& 0x1f).toNat, 0x80)
  else if first &&& 0xf0 = 0xe0 then some (3, (first &&& 0x0f).toNat, 0x800)
  else if first &&& 0xf8 = 0xf0 then some (4, (first &&& 0x07).toNat, 0x10000)
  else none

/-- **`NextCodePoint`**: the code point at the front of a text, and what follows
it. -/
def nextCodePoint : Bytes → Option (ℕ × Bytes)
  | [] => none
  | first :: rest =>
    if first < 0x80 then some (first.toNat, rest)
    else
      match leadUnit first with
      | none => none
      | some (length, code, minimum) =>
        if rest.length + 1 < length then none
        else
          match continuationBytes code (rest.take (length - 1)) with
          | none => none
          | some code =>
            if code < minimum ∨ 0x10ffff < code ∨ (0xd800 ≤ code ∧ code ≤ 0xdfff) then none
            else some (code, rest.drop (length - 1))

/-! ## Lead bytes and values -/

/-- The octets after the lead are the continuation bytes. -/
theorem continuationBytes_eq (value : ℕ) (tail : Bytes) :
    continuationBytes value tail
      = if ∀ b ∈ tail, isTrailing b = true then some (trailingBits value tail) else none := by
  induction tail generalizing value with
  | nil => simp [continuationBytes, trailingBits]
  | cons b tail ih =>
    unfold continuationBytes
    by_cases hb : isTrailing b = true
    · rw [if_neg (not_not.mpr ((isTrailing_iff_and b).mp hb)), ih]
      refine if_congr ?_ rfl rfl
      simp [hb]
    · rw [if_pos (fun h => hb ((isTrailing_iff_and b).mpr h)),
        if_neg (fun h => hb (h b List.mem_cons_self))]

/-- The bytes that the masks let through. -/
theorem masks (a : UInt8) : (a &&& 0xe0 = 0xc0 ↔ 0xc0 ≤ a ∧ a ≤ 0xdf)
    ∧ (a &&& 0xf0 = 0xe0 ↔ 0xe0 ≤ a ∧ a ≤ 0xef) ∧ (a &&& 0xf8 = 0xf0 ↔ 0xf0 ≤ a ∧ a ≤ 0xf7) := by
  revert a
  decide +kernel

/-- The masks of two and of three exclude each other. -/
theorem not_mask_two {a : UInt8} (h : 0xe0 ≤ a) : ¬ a &&& 0xe0 = 0xc0 := fun hmask =>
  absurd (h.trans ((masks a).1.mp hmask).2) (by decide)

/-- The masks of three and of four exclude each other. -/
theorem not_mask_three {a : UInt8} (h : 0xf0 ≤ a) : ¬ a &&& 0xf0 = 0xe0 := fun hmask =>
  absurd (h.trans ((masks a).2.1.mp hmask).2) (by decide)

/-- No lead byte is ASCII. -/
theorem not_lt_of_lead {a : UInt8} (h : 0xc0 ≤ a) : ¬ a < 0x80 := fun hlt =>
  absurd (h.trans_lt hlt) (by decide)

/-- The lead bytes that the masks let through. -/
theorem leadUnit_cases {first : UInt8} {r : ℕ × ℕ × ℕ} (h : leadUnit first = some r) :
    (0xc0 ≤ first ∧ first ≤ 0xdf ∧ r = (2, first.toNat % 32, 0x80))
      ∨ (0xe0 ≤ first ∧ first ≤ 0xef ∧ r = (3, first.toNat % 16, 0x800))
      ∨ (0xf0 ≤ first ∧ first ≤ 0xf7 ∧ r = (4, first.toNat % 8, 0x10000)) := by
  obtain ⟨h₁, h₂, h₃⟩ := toNat_and_lead first
  unfold leadUnit at h
  rw [show (0x1f : UInt8) = 31 from rfl, show (0x0f : UInt8) = 15 from rfl,
    show (0x07 : UInt8) = 7 from rfl, h₁, h₂, h₃] at h
  split_ifs at h with ha hb hc
  · obtain ⟨hlow, hhigh⟩ := (masks first).1.mp ha
    exact Or.inl ⟨hlow, hhigh, (Option.some.inj h).symm⟩
  · obtain ⟨hlow, hhigh⟩ := (masks first).2.1.mp hb
    exact Or.inr (Or.inl ⟨hlow, hhigh, (Option.some.inj h).symm⟩)
  · obtain ⟨hlow, hhigh⟩ := (masks first).2.2.mp hc
    exact Or.inr (Or.inr ⟨hlow, hhigh, (Option.some.inj h).symm⟩)

/-- **The value tells whether a sequence is well formed**: its trailing bytes are
ones, and it is a scalar value that needs so many. -/
theorem isScalar_iff_of_leadUnit {first : UInt8} {tail : Bytes} {length code minimum : ℕ}
    (hlead : leadUnit first = some (length, code, minimum)) (hlen : tail.length + 1 = length) :
    trailingBits code tail = scalarValue (first :: tail)
      ∧ (isScalar (first :: tail) = true
        ↔ (∀ b ∈ tail, isTrailing b = true)
          ∧ ¬ (trailingBits code tail < minimum ∨ 0x10ffff < trailingBits code tail
            ∨ (0xd800 ≤ trailingBits code tail ∧ trailingBits code tail ≤ 0xdfff))) := by
  have hbound : ∀ b : UInt8, isTrailing b = true ↔ 128 ≤ b.toNat ∧ b.toNat ≤ 191 := by
    intro b
    simp only [isTrailing, Bool.and_eq_true, decide_eq_true_eq, UInt8.le_iff_toNat_le,
      UInt8.reduceToNat]
  rcases leadUnit_cases hlead with ⟨h₁, h₂, heq⟩ | ⟨h₁, h₂, heq⟩ | ⟨h₁, h₂, heq⟩
  · obtain ⟨rfl, rfl, rfl⟩ : length = 2 ∧ code = _ ∧ minimum = _ := by simpa using heq
    obtain ⟨b, rfl⟩ := List.length_eq_one_iff.mp (by omega : tail.length = 1)
    refine ⟨by simp only [trailingBits, shift_or_toNat, scalarValue], ?_⟩
    rw [List.forall_mem_singleton]
    simp only [isScalar, trailingBits, shift_or_toNat, Bool.and_eq_true, decide_eq_true_eq, hbound,
      UInt8.le_iff_toNat_le, UInt8.reduceToNat] at h₁ h₂ ⊢
    omega
  · obtain ⟨rfl, rfl, rfl⟩ : length = 3 ∧ code = _ ∧ minimum = _ := by simpa using heq
    obtain ⟨b, c, rfl⟩ := List.length_eq_two.mp (by omega : tail.length = 2)
    refine ⟨by simp only [trailingBits, shift_or_toNat, scalarValue], ?_⟩
    rw [List.forall_mem_cons, List.forall_mem_singleton]
    simp only [isScalar, trailingBits, shift_or_toNat, Bool.and_eq_true, Bool.or_eq_true,
      bne_iff_ne, ne_eq, decide_eq_true_eq, hbound, ← UInt8.toNat_inj, UInt8.le_iff_toNat_le,
      UInt8.lt_iff_toNat_lt, UInt8.reduceToNat] at h₁ h₂ ⊢
    omega
  · obtain ⟨rfl, rfl, rfl⟩ : length = 4 ∧ code = _ ∧ minimum = _ := by simpa using heq
    obtain ⟨b, c, d, rfl⟩ := List.length_eq_three.mp (by omega : tail.length = 3)
    refine ⟨by simp only [trailingBits, shift_or_toNat, scalarValue], ?_⟩
    rw [List.forall_mem_cons, List.forall_mem_cons, List.forall_mem_singleton]
    simp only [isScalar, trailingBits, shift_or_toNat, Bool.and_eq_true, Bool.or_eq_true,
      bne_iff_ne, ne_eq, decide_eq_true_eq, hbound, ← UInt8.toNat_inj, UInt8.le_iff_toNat_le,
      UInt8.lt_iff_toNat_lt, UInt8.reduceToNat] at h₁ h₂ ⊢
    omega

/-- A lead byte of a sequence passes a mask, and says its length. -/
theorem leadUnit_of_isScalar {first : UInt8} {tail : Bytes} (h : isScalar (first :: tail) = true)
    (hfirst : ¬ first < 0x80) : ∃ code minimum, leadUnit first = some (tail.length + 1, code, minimum) := by
  rcases isScalar_cases h with ⟨a, heq, h₁⟩ | ⟨a, b, heq, h₁, h₂, -⟩ |
    ⟨a, b, c, heq, h₁, h₂, -⟩ | ⟨a, b, c, d, heq, h₁, h₂, -⟩
  all_goals obtain ⟨rfl, rfl⟩ := List.cons.inj heq
  · exact absurd h₁ hfirst
  · exact ⟨_, _, if_pos ((masks first).1.mpr ⟨le_trans (by decide) h₁, h₂⟩)⟩
  · exact ⟨_, _, (if_neg (not_mask_two h₁)).trans (if_pos ((masks first).2.1.mpr ⟨h₁, h₂⟩))⟩
  · have hmask := (masks first).2.2.mpr ⟨h₁, h₂.trans (by decide)⟩
    exact ⟨_, _, (if_neg (not_mask_two (le_trans (by decide) h₁))).trans
      ((if_neg (not_mask_three h₁)).trans (if_pos hmask))⟩

/-! ## One character at the front -/

/-- **`NextCodePoint` reads a character.** -/
theorem nextCodePoint_append {scalar : Bytes} (h : isScalar scalar = true) (rest : Bytes) :
    nextCodePoint (scalar ++ rest) = some (scalarValue scalar, rest) := by
  obtain ⟨first, tail, rfl⟩ := List.exists_cons_of_ne_nil (ne_nil_of_isScalar h)
  by_cases hfirst : first < 0x80
  · rcases isScalar_cases h with ⟨a, heq, -⟩ | ⟨a, b, heq, h₁, -⟩ | ⟨a, b, c, heq, h₁, -⟩ |
      ⟨a, b, c, d, heq, h₁, -⟩
    all_goals obtain ⟨rfl, rfl⟩ := List.cons.inj heq
    · exact if_pos hfirst
    all_goals exact absurd (lt_of_le_of_lt h₁ hfirst) (by decide)
  obtain ⟨code, minimum, hlead⟩ := leadUnit_of_isScalar h hfirst
  obtain ⟨hvalue, hiff⟩ := isScalar_iff_of_leadUnit hlead rfl
  obtain ⟨htrailing, hrange⟩ := hiff.mp h
  rw [List.cons_append, nextCodePoint, if_neg hfirst, hlead]
  have hshort : ¬ (tail ++ rest).length + 1 < tail.length + 1 := by
    rw [List.length_append]
    omega
  simp only [hshort, if_false, Nat.add_sub_cancel, List.take_left, List.drop_left,
    continuationBytes_eq, if_pos htrailing]
  rw [if_neg hrange, hvalue]

/-- **What `NextCodePoint` reads is a character.** -/
theorem isScalar_of_nextCodePoint {text rest : Bytes} {cp : ℕ}
    (h : nextCodePoint text = some (cp, rest)) :
    ∃ scalar, isScalar scalar = true ∧ text = scalar ++ rest := by
  cases text with
  | nil => cases h
  | cons first text =>
    rw [nextCodePoint] at h
    split at h
    · rename_i hfirst
      cases h
      exact ⟨[first], by simpa [isScalar] using hfirst, rfl⟩
    split at h
    · cases h
    rename_i length code minimum hlead
    split at h
    · cases h
    rename_i hshort
    split at h
    · cases h
    rename_i code' hcode
    split at h
    · cases h
    rename_i hrange
    cases h
    rw [continuationBytes_eq] at hcode
    split at hcode
    · rename_i htrailing
      cases hcode
      have hpos : 1 ≤ length := by
        rcases leadUnit_cases hlead with ⟨-, -, heq⟩ | ⟨-, -, heq⟩ | ⟨-, -, heq⟩
        all_goals
          cases heq
          decide
      have hlen : (text.take (length - 1)).length + 1 = length := by
        rw [List.length_take]
        omega
      refine ⟨first :: text.take (length - 1), ?_, ?_⟩
      · exact (isScalar_iff_of_leadUnit hlead hlen).2.mpr ⟨htrailing, hrange⟩
      · rw [List.cons_append, List.take_append_drop]
    · cases hcode

/-- A text that no character is at the front of. -/
def Malformed (text : Bytes) : Prop := ∀ scalar rest, isScalar scalar = true → text ≠ scalar ++ rest

/-- `NextCodePoint` refuses the others. -/
theorem nextCodePoint_malformed {text : Bytes} (h : Malformed text) : nextCodePoint text = none := by
  cases hread : nextCodePoint text with
  | none => rfl
  | some r =>
    obtain ⟨cp, rest⟩ := r
    obtain ⟨scalar, hscalar, heq⟩ := isScalar_of_nextCodePoint hread
    exact absurd heq (h scalar rest hscalar)

/-- **`DecodeNextUtf8` is `NextCodePoint`**, save that it skips one octet of what
is malformed. -/
theorem decodeNextUtf8_eq (first : UInt8) (text : Bytes) :
    decodeNextUtf8 (first :: text)
      = some ((nextCodePoint (first :: text)).elim ⟨false, first.toNat, text⟩
          (fun r => ⟨true, r.1, r.2⟩)) := by
  have hlead : leadByte first = (leadUnit first).map (fun r => (r.1, r.2.1)) := by
    unfold leadByte leadUnit
    split_ifs <;> rfl
  unfold decodeNextUtf8 nextCodePoint
  dsimp only
  by_cases hfirst : first < 0x80
  · rw [if_pos hfirst, if_pos hfirst]
    rfl
  rw [if_neg hfirst, if_neg hfirst, hlead]
  cases hunit : leadUnit first with
  | none => rfl
  | some r =>
    obtain ⟨width, code, minimum⟩ := r
    have houtside : ∀ value, outsideWidth width value = true
        ↔ value < minimum ∨ 0x10ffff < value ∨ (0xd800 ≤ value ∧ value ≤ 0xdfff) := by
      intro value
      rcases leadUnit_cases hunit with ⟨-, -, heq⟩ | ⟨-, -, heq⟩ | ⟨-, -, heq⟩
      all_goals
        cases heq
        simp [outsideWidth, or_assoc]
    have hshort : text.length < width - 1 ↔ text.length + 1 < width := by omega
    show (if text.length < width - 1 then _ else _) = _
    simp only [hshort]
    by_cases hlen : text.length + 1 < width
    · rw [if_pos hlen, if_pos hlen]
      rfl
    rw [if_neg hlen, if_neg hlen]
    cases continuationBytes code (text.take (width - 1)) with
    | none => rfl
    | some value =>
      dsimp only
      by_cases hvalue : outsideWidth width value = true
      · rw [if_pos hvalue, if_pos ((houtside value).mp hvalue)]
        rfl
      · rw [if_neg hvalue, if_neg (fun h => hvalue ((houtside value).mpr h))]
        rfl

/-! ### The chunker -/

/-- The marks of a continuation byte. -/
theorem isContinuation_eq (b : UInt8) : isContinuation b = isTrailing b := by
  unfold isContinuation
  rw [Bool.eq_iff_iff, decide_eq_true_eq, isTrailing_iff_and]

/-- Two bytes. -/
theorem decodeTwo_eq (b0 b1 : UInt8) (rest : Bytes) :
    decodeTwo b0 (b1 :: rest)
      = if b0 &&& 0xe0 = 0xc0 ∧ isScalar [b0, b1] = true then some ⟨scalarValue [b0, b1], 2⟩
        else none := by
  by_cases hmask : b0 &&& 0xe0 = 0xc0
  swap
  · rw [if_neg (fun h => hmask h.1), decodeTwo, if_neg (fun h => hmask h.1)]
  have hlead : leadUnit b0 = some (2, (b0 &&& 0x1f).toNat, 0x80) := if_pos hmask
  obtain ⟨hvalue, hiff⟩ := isScalar_iff_of_leadUnit hlead (rfl : [b1].length + 1 = 2)
  have hcode : (b0 &&& 0x1f).toNat = b0.toNat % 32 := (toNat_and_lead b0).1
  have hbound : scalarValue [b0, b1] < 0x800 := by
    show b0.toNat % 32 * 64 + b1.toNat % 64 < 0x800
    omega
  have hcp : ((b0 &&& 0x1f).toNat <<< 6) ||| (b1 &&& 0x3f).toNat = scalarValue [b0, b1] := hvalue
  unfold decodeTwo
  dsimp only
  rw [hcp, isContinuation_eq]
  rw [hvalue, List.forall_mem_singleton] at hiff
  by_cases htrailing : isTrailing b1 = true
  · rw [if_pos ⟨hmask, htrailing⟩]
    refine if_congr ?_ rfl rfl
    rw [and_iff_right hmask, hiff, and_iff_right htrailing]
    omega
  · rw [if_neg (fun h => htrailing h.2), if_neg (fun h => htrailing (hiff.mp h.2).1)]

/-- Three bytes. -/
theorem decodeThree_eq (b0 b1 b2 : UInt8) (rest : Bytes) :
    decodeThree b0 (b1 :: b2 :: rest)
      = if b0 &&& 0xf0 = 0xe0 ∧ isScalar [b0, b1, b2] = true
        then some ⟨scalarValue [b0, b1, b2], 3⟩ else none := by
  by_cases hmask : b0 &&& 0xf0 = 0xe0
  swap
  · rw [if_neg (fun h => hmask h.1), decodeThree, if_neg (fun h => hmask h.1)]
  have hlow := ((masks b0).2.1.mp hmask).1
  have hlead : leadUnit b0 = some (3, (b0 &&& 0x0f).toNat, 0x800) := by
    unfold leadUnit
    rw [if_neg (not_mask_two hlow), if_pos hmask]
  obtain ⟨hvalue, hiff⟩ := isScalar_iff_of_leadUnit hlead (rfl : [b1, b2].length + 1 = 3)
  have hbound : scalarValue [b0, b1, b2] < 0x10000 := by
    show (b0.toNat % 16 * 64 + b1.toNat % 64) * 64 + b2.toNat % 64 < 0x10000
    omega
  have hcp : ((b0 &&& 0x0f).toNat <<< 12) ||| ((b1 &&& 0x3f).toNat <<< 6) ||| (b2 &&& 0x3f).toNat
      = scalarValue [b0, b1, b2] := by
    rw [← hvalue]
    simp only [trailingBits, Nat.shiftLeft_or_distrib, ← Nat.shiftLeft_add]
  unfold decodeThree
  dsimp only
  rw [hcp, isContinuation_eq, isContinuation_eq]
  rw [hvalue, List.forall_mem_cons, List.forall_mem_singleton] at hiff
  by_cases htrailing : isTrailing b1 = true ∧ isTrailing b2 = true
  · rw [if_pos ⟨hmask, htrailing⟩]
    refine if_congr ?_ rfl rfl
    rw [and_iff_right hmask, hiff, and_iff_right htrailing]
    omega
  · rw [if_neg (fun h => htrailing h.2), if_neg (fun h => htrailing (hiff.mp h.2).1)]

/-- Four bytes. -/
theorem decodeFour_eq (b0 b1 b2 b3 : UInt8) (rest : Bytes) :
    decodeFour b0 (b1 :: b2 :: b3 :: rest)
      = if b0 &&& 0xf8 = 0xf0 ∧ isScalar [b0, b1, b2, b3] = true
        then some ⟨scalarValue [b0, b1, b2, b3], 4⟩ else none := by
  by_cases hmask : b0 &&& 0xf8 = 0xf0
  swap
  · rw [if_neg (fun h => hmask h.1), decodeFour, if_neg (fun h => hmask h.1)]
  have hlow := ((masks b0).2.2.mp hmask).1
  have hlead : leadUnit b0 = some (4, (b0 &&& 0x07).toNat, 0x10000) := by
    unfold leadUnit
    rw [if_neg (not_mask_two (le_trans (by decide) hlow)), if_neg (not_mask_three hlow), if_pos hmask]
  obtain ⟨hvalue, hiff⟩ := isScalar_iff_of_leadUnit hlead (rfl : [b1, b2, b3].length + 1 = 4)
  have hcp : ((b0 &&& 0x07).toNat <<< 18) ||| ((b1 &&& 0x3f).toNat <<< 12)
      ||| ((b2 &&& 0x3f).toNat <<< 6) ||| (b3 &&& 0x3f).toNat = scalarValue [b0, b1, b2, b3] := by
    rw [← hvalue]
    simp only [trailingBits, Nat.shiftLeft_or_distrib, ← Nat.shiftLeft_add]
  unfold decodeFour
  dsimp only
  rw [hcp, isContinuation_eq, isContinuation_eq, isContinuation_eq]
  rw [hvalue, List.forall_mem_cons, List.forall_mem_cons, List.forall_mem_singleton] at hiff
  by_cases htrailing : isTrailing b1 = true ∧ isTrailing b2 = true ∧ isTrailing b3 = true
  · rw [if_pos ⟨hmask, htrailing⟩]
    refine if_congr ?_ rfl rfl
    rw [and_iff_right hmask, hiff, and_iff_right htrailing]
    omega
  · rw [if_neg (fun h => htrailing h.2), if_neg (fun h => htrailing (hiff.mp h.2).1)]

/-- A branch of the chunker that answers has a character before it. -/
theorem branches_malformed {b0 : UInt8} {text : Bytes} (h : Malformed (b0 :: text)) :
    decodeTwo b0 text = none ∧ decodeThree b0 text = none ∧ decodeFour b0 text = none := by
  refine ⟨?_, ?_, ?_⟩
  · cases text with
    | nil => rfl
    | cons b1 rest => rw [decodeTwo_eq, if_neg (fun hs => h [b0, b1] rest hs.2 rfl)]
  · cases text with
    | nil => rfl
    | cons b1 rest =>
      cases rest with
      | nil => rfl
      | cons b2 rest => rw [decodeThree_eq, if_neg (fun hs => h [b0, b1, b2] rest hs.2 rfl)]
  · cases text with
    | nil => rfl
    | cons b1 rest =>
      cases rest with
      | nil => rfl
      | cons b2 rest =>
        cases rest with
        | nil => rfl
        | cons b3 rest =>
          rw [decodeFour_eq, if_neg (fun hs => h [b0, b1, b2, b3] rest hs.2 rfl)]

/-- **`DecodeUtf8At` reads a character.** -/
theorem decodeUtf8At_append {first : UInt8} {tail : Bytes} (h : isScalar (first :: tail) = true)
    (rest : Bytes) :
    decodeUtf8At first (tail ++ rest) = ⟨scalarValue (first :: tail), (first :: tail).length⟩ := by
  unfold decodeUtf8At
  rcases isScalar_cases h with ⟨a, heq, h₁⟩ | ⟨a, b, heq, h₁, h₂, -⟩ |
    ⟨a, b, c, heq, h₁, h₂, -⟩ | ⟨a, b, c, d, heq, h₁, h₂, -⟩
  all_goals obtain ⟨rfl, rfl⟩ := List.cons.inj heq
  · rw [if_pos h₁]
    rfl
  · have hlow : 0xc0 ≤ first := le_trans (by decide) h₁
    rw [if_neg (not_lt_of_lead hlow), List.cons_append, decodeTwo_eq,
      if_pos ⟨(masks first).1.mpr ⟨hlow, h₂⟩, h⟩]
    rfl
  · rw [if_neg (not_lt_of_lead (le_trans (by decide) h₁)), List.cons_append, decodeTwo_eq,
      if_neg (fun h => not_mask_two h₁ h.1), List.cons_append, decodeThree_eq,
      if_pos ⟨(masks first).2.1.mpr ⟨h₁, h₂⟩, h⟩]
    rfl
  · have hthree : 0xe0 ≤ first := le_trans (by decide) h₁
    rw [if_neg (not_lt_of_lead (le_trans (by decide) h₁)), List.cons_append, decodeTwo_eq,
      if_neg (fun h => not_mask_two hthree h.1), List.cons_append, decodeThree_eq,
      if_neg (fun h => not_mask_three h₁ h.1), List.cons_append, decodeFour_eq,
      if_pos ⟨(masks first).2.2.mpr ⟨h₁, h₂.trans (by decide)⟩, h⟩]
    rfl

/-- `DecodeUtf8At` skips one octet of what is malformed. -/
theorem decodeUtf8At_malformed {first : UInt8} {text : Bytes} (h : Malformed (first :: text)) :
    decodeUtf8At first text = ⟨0xfffd, 1⟩ := by
  have hfirst : ¬ first < 0x80 :=
    fun hlt => h [first] text (by simpa [isScalar] using hlt) rfl
  obtain ⟨htwo, hthree, hfour⟩ := branches_malformed h
  unfold decodeUtf8At
  rw [if_neg hfirst, htwo, hthree, hfour]
  rfl

/-! ### The automaton -/

/-- Between two characters, the automaton has read a text. -/
theorem validUtf8_of_scan {part : Bytes} {v : Visit} (h : scan part = some v)
    (hv : v.remaining = 0) : ValidUtf8 part := by
  obtain ⟨text, begun, rfl, htext, hbegun, -⟩ := scan_eq_some h
  cases hbegun with
  | none => rwa [List.append_nil]
  | two => cases hv
  | three => cases hv
  | threeTwo => cases hv
  | four => cases hv
  | fourTwo => cases hv
  | fourThree => cases hv

/-- **The automaton comes back to its beginning at the end of a character**, and
not before. -/
theorem scan_prefix {scalar part : Bytes} (h : isScalar scalar = true) (hnul : scalar ≠ [0])
    (hne : part ≠ []) (hpart : part <+: scalar) (hproper : part ≠ scalar) :
    ∃ v, scan part = some v ∧ v.remaining ≠ 0 := by
  obtain ⟨rest, hrest⟩ := hpart
  have hzero : 0 ∉ scalar := fun hmem => hnul (eq_nul_of_mem h hmem)
  have hbegins : Beginning part :=
    ⟨rest, hrest ▸ ValidUtf8.of_isScalar h, hrest ▸ hzero⟩
  obtain ⟨v, hv⟩ := Option.isSome_iff_exists.mp (scan_isSome_iff.mpr hbegins)
  refine ⟨v, hv, fun hremaining => hproper ?_⟩
  obtain ⟨scalar', rest', rfl, hscalar', -⟩ := (validUtf8_of_scan hv hremaining).exists_scalar hne
  have hsame : scalar = scalar' ∧ [] = rest' ++ rest :=
    isScalar_unique h hscalar' (by rw [List.append_nil, ← List.append_assoc, hrest])
  obtain ⟨rfl, hnil⟩ := hsame
  rw [(List.append_eq_nil_iff.mp hnil.symm).1, List.append_nil]

/-- The automaton does not come back inside of what is malformed. -/
theorem scan_malformed {text part : Bytes} (h : Malformed text) (hne : part ≠ [])
    (hpart : part <+: text) {v : Visit} (hv : scan part = some v) : v.remaining ≠ 0 := by
  intro hremaining
  obtain ⟨rest, rfl⟩ := hpart
  obtain ⟨scalar, rest', rfl, hscalar, -⟩ := (validUtf8_of_scan hv hremaining).exists_scalar hne
  exact h scalar (rest' ++ rest) hscalar (List.append_assoc _ _ _)

/-- A step of the decoder takes a code point, or one byte that opens none. -/
theorem exists_front_of_decodeNextUtf8 {text : Bytes} {d : Decoded}
    (h : decodeNextUtf8 text = some d) : ∃ front, text = front ++ d.rest
      ∧ (isScalar front = true ∨ front.length = 1) ∧ (ValidUtf8 text → isScalar front = true) := by
  cases text with
  | nil => exact absurd h (by simp [decodeNextUtf8])
  | cons first text =>
    rw [decodeNextUtf8_eq] at h
    cases hnext : nextCodePoint (first :: text) with
    | none =>
      rw [hnext] at h
      obtain rfl := Option.some.inj h
      refine ⟨[first], rfl, Or.inr rfl, fun hvalid => ?_⟩
      obtain ⟨scalar, rest, heq, hscalar, -⟩ := hvalid.exists_scalar (by simp)
      rw [heq, nextCodePoint_append hscalar] at hnext
      exact absurd hnext (by simp)
    | some r =>
      rw [hnext] at h
      obtain rfl := Option.some.inj h
      obtain ⟨scalar, hscalar, heq⟩ := isScalar_of_nextCodePoint hnext
      exact ⟨scalar, heq, Or.inl hscalar, fun _ => hscalar⟩

/-- **`DecodeNextUtf8` reads a sequence.** -/
theorem decodeNextUtf8_append {scalar : Bytes} (h : isScalar scalar = true) (rest : Bytes) :
    decodeNextUtf8 (scalar ++ rest) = some ⟨true, scalarValue scalar, rest⟩ := by
  have hnext := nextCodePoint_append h rest
  obtain ⟨first, tail, rfl⟩ := List.exists_cons_of_ne_nil (ne_nil_of_isScalar h)
  rw [List.cons_append] at hnext ⊢
  rw [decodeNextUtf8_eq, hnext]
  rfl

/-! ## The writer -/

/-- **`AppendUtf8` writes the octets of a scalar value.** -/
theorem encodeUtf8_eq {n : ℕ} (h : n.isValidChar) : encodeUtf8 n = encodeScalar n := by
  have hand : ∀ value : ℕ, 0x80 ||| (value &&& 0x3f) = 0x80 + value % 64 := by
    intro value
    have hmod : value &&& 0x3f = value % 64 := Nat.and_two_pow_sub_one_eq_mod value 6
    rw [hmod]
    exact Ipc.Json.lead_or 2 6 (Nat.mod_lt _ (by norm_num))
  have htwo : ∀ value : ℕ, value &&& 0x1f = value % 32 :=
    fun value => Nat.and_two_pow_sub_one_eq_mod value 5
  have hthree : ∀ value : ℕ, value &&& 0x0f = value % 16 :=
    fun value => Nat.and_two_pow_sub_one_eq_mod value 4
  have hfour : ∀ value : ℕ, value &&& 0x07 = value % 8 :=
    fun value => Nat.and_two_pow_sub_one_eq_mod value 3
  unfold Nat.isValidChar at h
  unfold encodeUtf8 encodeScalar
  simp only [hand, htwo, hthree, hfour, Nat.shiftRight_eq_div_pow, ← Nat.lt_succ_iff]
  split_ifs with h₁ h₂ h₃
  · rfl
  · have hlead : 0xc0 ||| n / 2 ^ 6 % 32 = 0xC0 + n / 64 := by
      rw [Nat.mod_eq_of_lt (by omega)]
      exact Ipc.Json.lead_or 6 5 (by omega)
    rw [hlead]
  · have hlead : 0xe0 ||| n / 2 ^ 12 % 16 = 0xE0 + n / 4096 := by
      rw [Nat.mod_eq_of_lt (by omega)]
      exact Ipc.Json.lead_or 14 4 (by omega)
    rw [hlead]
  · have hlead : 0xf0 ||| n / 2 ^ 18 % 8 = 0xF0 + n / 262144 := by
      rw [Nat.mod_eq_of_lt (by omega)]
      exact Ipc.Json.lead_or 30 3 (by omega)
    rw [hlead]

/-- The value of the octets of a character. -/
theorem scalarValue_utf8EncodeChar (c : Char) :
    scalarValue (String.utf8EncodeChar c) = c.toNat := by
  have hlt : c.toNat < 0x110000 := c.valid.elim (fun h => lt_of_lt_of_le h (by norm_num)) (·.2)
  rw [utf8EncodeChar_eq]
  unfold encodeScalar
  split_ifs with h₁ h₂ h₃
  all_goals
    simp only [scalarValue, UInt8.toNat_ofNat']
    omega

/-! ## Every reader -/

/-- **All readers of UTF-8 agree.** At the front of a text is a character: all
of them read it, with its length and its value, and the writer gives its octets
back; the dictionary has no NUL. Or none is: then those that read on skip one
octet, and the others refuse the text. The automaton is between two characters
exactly behind the octets of the first. -/
theorem utf8_readers_agree (first : UInt8) (text : Bytes) :
    (∀ (c : Char) (rest : Bytes), first :: text = String.utf8EncodeChar c ++ rest →
      decodeNextUtf8 (first :: text) = some ⟨true, c.toNat, rest⟩
      ∧ Dictionary.decode (first :: text) = (if c.toNat = 0 then none else some (c.toNat, rest))
      ∧ decodeUtf8At first text = ⟨c.toNat, (String.utf8EncodeChar c).length⟩
      ∧ (0x20 ≤ first →
        Ipc.Json.readCharacter first text = some (String.utf8EncodeChar c, rest))
      ∧ nextCodePoint (first :: text) = some (c.toNat, rest)
      ∧ scan (String.utf8EncodeChar c) = (if c.toNat = 0 then none else some fresh)
      ∧ (c.toNat ≠ 0 → ∀ part, part ≠ [] → part <+: String.utf8EncodeChar c →
        part ≠ String.utf8EncodeChar c → ∃ v, scan part = some v ∧ v.remaining ≠ 0)
      ∧ appendUtf8 [] c.toNat = String.utf8EncodeChar c)
    ∧ ((∀ (c : Char) (rest : Bytes), first :: text ≠ String.utf8EncodeChar c ++ rest) →
      decodeNextUtf8 (first :: text) = some ⟨false, first.toNat, text⟩
      ∧ Dictionary.decode (first :: text) = none
      ∧ decodeUtf8At first text = ⟨0xfffd, 1⟩
      ∧ Ipc.Json.readCharacter first text = none
      ∧ nextCodePoint (first :: text) = none
      ∧ ∀ part, part ≠ [] → part <+: first :: text → ∀ v, scan part = some v →
        v.remaining ≠ 0) := by
  constructor
  · intro c rest htext
    have hscalar := Ipc.Json.isScalar_utf8EncodeChar c
    have hvalue := scalarValue_utf8EncodeChar c
    have hvalid : c.toNat.isValidChar := c.valid
    have hwriter : appendUtf8 [] c.toNat = String.utf8EncodeChar c := by
      unfold appendUtf8
      rw [List.nil_append, encodeUtf8_eq hvalid, utf8EncodeChar_eq]
    have hnul : String.utf8EncodeChar c = [0] ↔ c.toNat = 0 := by
      constructor
      · intro h
        rw [h] at hvalue
        exact hvalue.symm
      · intro h
        rw [utf8EncodeChar_eq, h]
        rfl
    obtain ⟨a, tail, hcons⟩ := List.exists_cons_of_ne_nil (ne_nil_of_isScalar hscalar)
    have hnext := nextCodePoint_append hscalar rest
    rw [← htext, hvalue] at hnext
    rw [hcons] at hscalar hvalue hnul hwriter htext ⊢
    rw [List.cons_append] at htext
    obtain ⟨rfl, rfl⟩ := List.cons.inj htext
    refine ⟨?_, ?_, ?_, ?_, hnext, ?_, ?_, hwriter⟩
    · rw [decodeNextUtf8_eq, hnext]
      rfl
    · by_cases hzero : c.toNat = 0
      · obtain ⟨rfl, rfl⟩ := List.cons.inj (hnul.mpr hzero)
        rw [if_pos hzero]
        rfl
      · rw [if_neg hzero, ← List.cons_append, decode_append hscalar (fun h => hzero (hnul.mp h)),
          hvalue]
    · rw [decodeUtf8At_append hscalar, hvalue]
    · intro hfirst
      exact Ipc.Json.readCharacter_append hscalar hfirst rest
    · by_cases hzero : c.toNat = 0
      · rw [hnul.mpr hzero, if_pos hzero]
        decide
      · rw [if_neg hzero]
        exact foldlM_advance_scalar hscalar (fun h => hzero (hnul.mp h))
    · intro hzero part hne hpart hproper
      exact scan_prefix hscalar (fun h => hzero (hnul.mp h)) hne hpart hproper
  · intro hnone
    have hmalformed : Malformed (first :: text) := by
      intro scalar rest hscalar heq
      obtain ⟨c, rfl⟩ := exists_char_of_isScalar hscalar
      exact hnone c rest heq
    have hnext := nextCodePoint_malformed hmalformed
    refine ⟨?_, ?_, decodeUtf8At_malformed hmalformed, ?_, hnext, ?_⟩
    · rw [decodeNextUtf8_eq, hnext]
      rfl
    · cases hdecode : Dictionary.decode (first :: text) with
      | none => rfl
      | some r =>
        obtain ⟨cp, rest⟩ := r
        obtain ⟨scalar, hscalar, -, heq, -⟩ := isScalar_of_decode hdecode
        exact absurd heq (hmalformed scalar rest hscalar)
    · cases hread : Ipc.Json.readCharacter first text with
      | none => rfl
      | some r =>
        obtain ⟨tail, -, hscalar, -, heq⟩ := Ipc.Json.readCharacter_eq_some hread
        exact absurd (congrArg (first :: ·) heq) (hmalformed (first :: tail) r.2 hscalar)
    · intro part hne hpart v hv
      exact scan_malformed hmalformed hne hpart hv

end AzooKey.Core

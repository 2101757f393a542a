import AzooKey.Lib.Utf8

/-!
# The texts of a dictionary

The text functions at the head of `core/src/DoubleArrayTrie.cpp`: the decoder
that every query and every stored string goes through, the normal form of a
reading, and the spellings of a reading that a dictionary files it under. A
position in a `string_view` is the list of the bytes from there on.

The decoder looks at values where the grammar of `Utf8` looks at bytes, and
refuses the NUL. `isValidUtf8_iff` says that it accepts what it should.
-/

namespace AzooKey.Core.Dictionary

/-- What a lead byte says: how many bytes follow, its own bits, and the least
value that needs that many. -/
def leadBits (first : UInt8) : Option (ℕ × ℕ × ℕ) :=
  if 0xc2 ≤ first && first ≤ 0xdf then some (1, (first &&& 31).toNat, 0x80)
  else if 0xe0 ≤ first && first ≤ 0xef then some (2, (first &&& 15).toNat, 0x800)
  else if 0xf0 ≤ first && first ≤ 0xf4 then some (3, (first &&& 7).toNat, 0x10000)
  else none

/-- The bits of the bytes that follow. -/
def trailingBits (cp : ℕ) : Bytes → ℕ
  | [] => cp
  | b :: bytes => trailingBits ((cp <<< 6) ||| (b &&& 63).toNat) bytes

/-- **`Decode`**: the codepoint at the front of a text, and what follows it. -/
def decode : Bytes → Option (ℕ × Bytes)
  | [] => none
  | first :: rest =>
    if first < 0x80 then if first ≠ 0 then some (first.toNat, rest) else none
    else
      match leadBits first with
      | none => none
      | some (extra, bits, minimum) =>
        if rest.length < extra then none
        else if (rest.take extra).any (fun b => b &&& 0xc0 ≠ 0x80) then none
        else
          let cp := trailingBits bits (rest.take extra)
          if minimum ≤ cp ∧ cp ≤ 0x10ffff ∧ ¬ (0xd800 ≤ cp ∧ cp ≤ 0xdfff) then
            some (cp, rest.drop extra)
          else none

/-- What follows is shorter. -/
theorem decode_length {text rest : Bytes} {cp : ℕ} (h : decode text = some (cp, rest)) :
    rest.length < text.length := by
  unfold decode at h
  split at h
  · cases h
  · split_ifs at h
    · cases h
      simp
    · split at h
      · cases h
      · dsimp only at h
        split_ifs at h
        obtain ⟨-, rfl⟩ := Prod.mk.inj (Option.some.inj h)
        simp only [List.length_drop, List.length_cons]
        omega

/-- `Encode`. -/
def encode (cp : ℕ) : Bytes :=
  if cp < 0x80 then [UInt8.ofNat cp]
  else if cp < 0x800 then
    [UInt8.ofNat (0xc0 ||| (cp >>> 6)), UInt8.ofNat (0x80 ||| (cp &&& 63))]
  else if cp < 0x10000 then
    [UInt8.ofNat (0xe0 ||| (cp >>> 12)), UInt8.ofNat (0x80 ||| ((cp >>> 6) &&& 63)),
      UInt8.ofNat (0x80 ||| (cp &&& 63))]
  else
    [UInt8.ofNat (0xf0 ||| (cp >>> 18)), UInt8.ofNat (0x80 ||| ((cp >>> 12) &&& 63)),
      UInt8.ofNat (0x80 ||| ((cp >>> 6) &&& 63)), UInt8.ofNat (0x80 ||| (cp &&& 63))]

/-- The codepoints of a text, when all of it decodes. -/
def decodeAll (text : Bytes) : Option (List ℕ) :=
  match text with
  | [] => some []
  | c :: text =>
    match _h : decode (c :: text) with
    | none => none
    | some (cp, rest) => (decodeAll rest).map (cp :: ·)
termination_by text.length
decreasing_by exact decode_length _h

/-- `IsValidUtf8`. -/
def isValidUtf8 (text : Bytes) : Bool := (decodeAll text).isSome

/-- The codepoint that a reading is normalized to: katakana to hiragana, and
full width to ASCII. -/
def normalizeCodepoint (cp : ℕ) : ℕ :=
  let cp := if 0x30a1 ≤ cp ∧ cp ≤ 0x30f6 then cp - 0x60 else cp
  if 0xff01 ≤ cp ∧ cp ≤ 0xff5e then cp - 0xfee0 else cp

/-- **`NormalizeReading`.** -/
def normalizeReading (text : Bytes) : Bytes :=
  ((decodeAll text).map (fun cps => cps.flatMap (fun cp => encode (normalizeCodepoint cp)))).getD []

/-! ## Aliases -/

section Aliases

variable {α : Type} [DecidableEq α]

/-- The texts in which one occurrence of `old` is replaced. The occurrences are
those that a search finds that goes on after each one it found: `skip`
counts down the elements of the last. -/
def replacements (old new : List α) : ℕ → List α → List α → List (List α)
  | _, _, [] => []
  | skip + 1, before, c :: rest => replacements old new skip (before ++ [c]) rest
  | 0, before, c :: rest =>
    if old <+: c :: rest then
      (before ++ (new ++ (c :: rest).drop old.length))
        :: replacements old new (old.length - 1) (before ++ [c]) rest
    else replacements old new 0 (before ++ [c]) rest

/-- The spellings that a text leads to, in the order in which they are tried:
each pair, in both directions. -/
def respellings (pairs : List (List α × List α)) (current : List α) : List (List α) :=
  pairs.flatMap (fun p =>
    replacements p.1 p.2 0 [] current ++ replacements p.2 p.1 0 [] current)

/-- **The spellings that were found**, eight at most. -/
structure Found (α : Type) where
  spellings : List (List α)
  le : spellings.length ≤ 8

/-- A spelling is found, unless there are eight already. -/
def Found.push (found : Found α) (next : List α) : Option (Found α) :=
  if next ∈ found.spellings then some found
  else if h : found.spellings.length = 8 then none
  else some ⟨found.spellings ++ [next], by
    have := found.le
    rw [List.length_append, List.length_singleton]
    omega⟩

/-- The loop over the spellings that were found, which finds more. -/
def Found.expand (pairs : List (List α × List α)) (found : Found α) (i : ℕ) : Option (Found α) :=
  if h : i < found.spellings.length then
    match (respellings pairs (found.spellings.get ⟨i, h⟩)).foldlM Found.push found with
    | none => none
    | some found' => Found.expand pairs found' (i + 1)
  else some found
termination_by 8 - i
decreasing_by
  have := found.le
  omega

/-- All spellings of a key, in the order they are found, or the key alone when
there are more than eight. -/
def spellings (pairs : List (List α × List α)) (key : List α) : List (List α) :=
  ((Found.expand pairs ⟨[key], by simp⟩ 0).map Found.spellings).getD [key]

end Aliases

/-- The pairs of spellings that sound alike. -/
def pairs : List (Bytes × Bytes) :=
  [(utf8 "ゔぁ", utf8 "ば"), (utf8 "づ", utf8 "ず"), (utf8 "ぢ", utf8 "じ")]

/-- **`ReadingAliases`.** -/
def readingAliases (key : Bytes) : List Bytes :=
  if key.isEmpty || !isValidUtf8 key then []
  else (spellings pairs key).mergeSort (· ≤ ·)

/-! ## What the decoder accepts -/

/-- Bits put after others. -/
theorem shift_or_toNat (cp : ℕ) (b : UInt8) :
    (cp <<< 6) ||| (b &&& 63).toNat = cp * 64 + b.toNat % 64 := by
  have hand : (b &&& 63).toNat = b.toNat % 2 ^ 6 := by
    rw [UInt8.toNat_and]
    exact Nat.and_two_pow_sub_one_eq_mod b.toNat 6
  have hlt : b.toNat % 2 ^ 6 < 2 ^ 6 := Nat.mod_lt _ (by norm_num)
  rw [hand, ← Nat.shiftLeft_add_eq_or_of_lt hlt, Nat.shiftLeft_eq]
  rfl

set_option maxRecDepth 10000 in
/-- A trailing byte has the two bits that mark it. -/
theorem isTrailing_iff_and : ∀ b : UInt8, isTrailing b = true ↔ b &&& 0xc0 = 0x80 := by
  decide

/-- The bits of lead bytes. -/
theorem toNat_and_lead (a : UInt8) :
    (a &&& 31).toNat = a.toNat % 32 ∧ (a &&& 15).toNat = a.toNat % 16
      ∧ (a &&& 7).toNat = a.toNat % 8 := by
  refine ⟨?_, ?_, ?_⟩ <;> rw [UInt8.toNat_and]
  · exact Nat.and_two_pow_sub_one_eq_mod a.toNat 5
  · exact Nat.and_two_pow_sub_one_eq_mod a.toNat 4
  · exact Nat.and_two_pow_sub_one_eq_mod a.toNat 3

/-- The value of a well-formed sequence. -/
def scalarValue : Bytes → ℕ
  | [a] => a.toNat
  | [a, b] => a.toNat % 32 * 64 + b.toNat % 64
  | [a, b, c] => (a.toNat % 16 * 64 + b.toNat % 64) * 64 + c.toNat % 64
  | [a, b, c, d] =>
    ((a.toNat % 8 * 64 + b.toNat % 64) * 64 + c.toNat % 64) * 64 + d.toNat % 64
  | _ => 0

/-- **What the decoder makes of a lead byte and the bytes that it asks for.** -/
theorem decode_lead {first : UInt8} {tail rest : Bytes} {extra bits minimum : ℕ}
    (hfirst : ¬ first < 0x80) (hlead : leadBits first = some (extra, bits, minimum))
    (hlen : tail.length = extra) :
    decode (first :: (tail ++ rest))
      = if (∀ b ∈ tail, isTrailing b = true)
          ∧ minimum ≤ trailingBits bits tail ∧ trailingBits bits tail ≤ 0x10ffff
          ∧ ¬ (0xd800 ≤ trailingBits bits tail ∧ trailingBits bits tail ≤ 0xdfff)
        then some (trailingBits bits tail, rest) else none := by
  have htake : (tail ++ rest).take extra = tail := by rw [← hlen, List.take_left]
  have hdrop : (tail ++ rest).drop extra = rest := by rw [← hlen, List.drop_left]
  have hshort : ¬ (tail ++ rest).length < extra := by
    rw [List.length_append]
    omega
  have hany : (tail.any (fun b => b &&& 0xc0 ≠ 0x80) = true)
      ↔ ¬ ∀ b ∈ tail, isTrailing b = true := by
    simp [isTrailing_iff_and]
  rw [decode, if_neg hfirst, hlead]
  simp only [htake, hdrop, hshort, if_false]
  by_cases htrail : ∀ b ∈ tail, isTrailing b = true
  · rw [if_neg (fun h => hany.mp h htrail)]
    exact if_congr (and_iff_right htrail).symm rfl rfl
  · rw [if_pos (hany.mpr htrail), if_neg (fun h => htrail h.1)]

/-- A lead byte that asks for more bytes than there are. -/
theorem decode_short {first : UInt8} {text : Bytes} {extra bits minimum : ℕ}
    (hfirst : ¬ first < 0x80) (hlead : leadBits first = some (extra, bits, minimum))
    (hlen : text.length < extra) : decode (first :: text) = none := by
  rw [decode, if_neg hfirst, hlead]
  simp only [hlen, if_true]

/-- The three kinds of lead bytes. -/
theorem leadBits_eq_some {first : UInt8} {r : ℕ × ℕ × ℕ} (h : leadBits first = some r) :
    (0xc2 ≤ first ∧ first ≤ 0xdf ∧ r = (1, first.toNat % 32, 0x80))
      ∨ (0xe0 ≤ first ∧ first ≤ 0xef ∧ r = (2, first.toNat % 16, 0x800))
      ∨ (0xf0 ≤ first ∧ first ≤ 0xf4 ∧ r = (3, first.toNat % 8, 0x10000)) := by
  obtain ⟨h₁, h₂, h₃⟩ := toNat_and_lead first
  unfold leadBits at h
  simp only [Bool.and_eq_true, decide_eq_true_eq, h₁, h₂, h₃] at h
  split_ifs at h with ha hb hc
  · exact Or.inl ⟨ha.1, ha.2, (Option.some.inj h).symm⟩
  · exact Or.inr (Or.inl ⟨hb.1, hb.2, (Option.some.inj h).symm⟩)
  · exact Or.inr (Or.inr ⟨hc.1, hc.2, (Option.some.inj h).symm⟩)

/-- **A well-formed sequence other than the NUL decodes to its value.** -/
theorem decode_append {scalar : Bytes} (h : isScalar scalar = true) (hnul : scalar ≠ [0])
    (rest : Bytes) : decode (scalar ++ rest) = some (scalarValue scalar, rest) := by
  have hle : ∀ {a b : UInt8}, a ≤ b → a.toNat ≤ b.toNat := UInt8.le_iff_toNat_le.mp
  have htrail : ∀ {b : UInt8}, isTrailing b = true → 128 ≤ b.toNat ∧ b.toNat ≤ 191 := by
    intro b hb
    simp only [isTrailing, Bool.and_eq_true, decide_eq_true_eq] at hb
    exact ⟨hle hb.1, hle hb.2⟩
  rcases isScalar_cases h with ⟨a, rfl, h₁⟩ | ⟨a, b, rfl, h₁, h₂, hb⟩ |
    ⟨a, b, c, rfl, h₁, h₂, hb, hc, hlow, hhigh⟩ |
    ⟨a, b, c, d, rfl, h₁, h₂, hb, hc, hd, hlow, hhigh⟩
  · have hne : a ≠ 0 := fun h => hnul (by rw [h])
    show decode (a :: rest) = _
    rw [decode, if_pos h₁, if_pos hne]
    rfl
  · have ha₁ := hle h₁
    have ha₂ := hle h₂
    simp only [UInt8.reduceToNat] at ha₁ ha₂
    have hlead : leadBits a = some (1, a.toNat % 32, 0x80) := by
      rw [leadBits, if_pos (by simp [h₁, h₂]), (toNat_and_lead a).1]
    show decode (a :: ([b] ++ rest)) = _
    have hval : trailingBits (a.toNat % 32) [b] = scalarValue [a, b] := by
      simp only [trailingBits, shift_or_toNat, scalarValue]
    have hb' := htrail hb
    rw [decode_lead (by simp only [UInt8.lt_iff_toNat_lt, UInt8.reduceToNat]; omega) hlead rfl,
      hval, if_pos]
    simp only [List.mem_singleton, forall_eq, hb, scalarValue, true_and]
    omega
  · have ha₁ := hle h₁
    have ha₂ := hle h₂
    have hlow' : a.toNat = 224 → 160 ≤ b.toNat := fun he => hle (hlow (UInt8.toNat_inj.mp he))
    have hhigh' : a.toNat = 237 → b.toNat < 160 := fun he =>
      UInt8.lt_iff_toNat_lt.mp (hhigh (UInt8.toNat_inj.mp he))
    simp only [UInt8.reduceToNat] at ha₁ ha₂
    have hlead : leadBits a = some (2, a.toNat % 16, 0x800) := by
      rw [leadBits, if_neg, if_pos (by simp [h₁, h₂]), (toNat_and_lead a).2.1]
      simp only [Bool.and_eq_true, decide_eq_true_eq, UInt8.le_iff_toNat_le, UInt8.reduceToNat]
      omega
    show decode (a :: ([b, c] ++ rest)) = _
    have hval : trailingBits (a.toNat % 16) [b, c] = scalarValue [a, b, c] := by
      simp only [trailingBits, shift_or_toNat, scalarValue]
    have hb' := htrail hb
    rw [decode_lead (by simp only [UInt8.lt_iff_toNat_lt, UInt8.reduceToNat]; omega) hlead rfl,
      hval, if_pos]
    simp only [List.mem_cons, List.not_mem_nil, or_false, forall_eq_or_imp, forall_eq, hb, hc,
      scalarValue, true_and]
    omega
  · have ha₁ := hle h₁
    have ha₂ := hle h₂
    have hlow' : a.toNat = 240 → 144 ≤ b.toNat := fun he => hle (hlow (UInt8.toNat_inj.mp he))
    have hhigh' : a.toNat = 244 → b.toNat < 144 := fun he =>
      UInt8.lt_iff_toNat_lt.mp (hhigh (UInt8.toNat_inj.mp he))
    simp only [UInt8.reduceToNat] at ha₁ ha₂
    have hlead : leadBits a = some (3, a.toNat % 8, 0x10000) := by
      rw [leadBits, if_neg, if_neg, if_pos (by simp [h₁, h₂]), (toNat_and_lead a).2.2]
      all_goals
        simp only [Bool.and_eq_true, decide_eq_true_eq, UInt8.le_iff_toNat_le, UInt8.reduceToNat]
        omega
    show decode (a :: ([b, c, d] ++ rest)) = _
    have hval : trailingBits (a.toNat % 8) [b, c, d] = scalarValue [a, b, c, d] := by
      simp only [trailingBits, shift_or_toNat, scalarValue]
    have hb' := htrail hb
    rw [decode_lead (by simp only [UInt8.lt_iff_toNat_lt, UInt8.reduceToNat]; omega) hlead rfl,
      hval, if_pos]
    simp only [List.mem_cons, List.not_mem_nil, or_false, forall_eq_or_imp, forall_eq, hb, hc, hd,
      scalarValue, true_and]
    omega

/-- A lead byte and trailing bytes whose value is a scalar are well formed. -/
theorem isScalar_of_lead {first : UInt8} {tail : Bytes} {extra bits minimum : ℕ}
    (hlead : leadBits first = some (extra, bits, minimum)) (hlen : tail.length = extra)
    (htrail : ∀ b ∈ tail, isTrailing b = true)
    (hvalue : minimum ≤ trailingBits bits tail ∧ trailingBits bits tail ≤ 0x10ffff
      ∧ ¬ (0xd800 ≤ trailingBits bits tail ∧ trailingBits bits tail ≤ 0xdfff)) :
    isScalar (first :: tail) = true ∧ trailingBits bits tail = scalarValue (first :: tail) := by
  have hbound : ∀ b ∈ tail, 128 ≤ b.toNat ∧ b.toNat ≤ 191 := by
    intro b hb
    have h := htrail b hb
    simp only [isTrailing, Bool.and_eq_true, decide_eq_true_eq, UInt8.le_iff_toNat_le] at h
    exact h
  rcases leadBits_eq_some hlead with ⟨h₁, h₂, heq⟩ | ⟨h₁, h₂, heq⟩ | ⟨h₁, h₂, heq⟩
  · obtain ⟨rfl, rfl, rfl⟩ : extra = 1 ∧ bits = _ ∧ minimum = _ := by simpa using heq
    obtain ⟨b, rfl⟩ := List.length_eq_one_iff.mp hlen
    refine ⟨?_, by simp only [trailingBits, shift_or_toNat, scalarValue]⟩
    simp [isScalar, h₁, h₂, htrail b (by simp)]
  · obtain ⟨rfl, rfl, rfl⟩ : extra = 2 ∧ bits = _ ∧ minimum = _ := by simpa using heq
    obtain ⟨b, c, rfl⟩ := List.length_eq_two.mp hlen
    refine ⟨?_, by simp only [trailingBits, shift_or_toNat, scalarValue]⟩
    have hb := hbound b (by simp)
    simp only [trailingBits, shift_or_toNat] at hvalue
    simp only [isScalar, h₁, h₂, htrail b (by simp), htrail c (by simp), decide_true,
      Bool.true_and, Bool.and_eq_true, Bool.or_eq_true, bne_iff_ne, ne_eq, decide_eq_true_eq,
      ← UInt8.toNat_inj, UInt8.le_iff_toNat_le, UInt8.lt_iff_toNat_lt, UInt8.reduceToNat]
    omega
  · obtain ⟨rfl, rfl, rfl⟩ : extra = 3 ∧ bits = _ ∧ minimum = _ := by simpa using heq
    obtain ⟨b, c, d, rfl⟩ := List.length_eq_three.mp hlen
    refine ⟨?_, by simp only [trailingBits, shift_or_toNat, scalarValue]⟩
    have hb := hbound b (by simp)
    simp only [trailingBits, shift_or_toNat] at hvalue
    simp only [isScalar, h₁, h₂, htrail b (by simp), htrail c (by simp), htrail d (by simp),
      decide_true, Bool.true_and, Bool.and_eq_true, Bool.or_eq_true, bne_iff_ne, ne_eq,
      decide_eq_true_eq, ← UInt8.toNat_inj, UInt8.le_iff_toNat_le, UInt8.lt_iff_toNat_lt,
      UInt8.reduceToNat]
    omega

/-- **What decodes is a well-formed sequence.** -/
theorem isScalar_of_decode {text rest : Bytes} {cp : ℕ} (h : decode text = some (cp, rest)) :
    ∃ scalar, isScalar scalar = true ∧ scalar ≠ [0] ∧ text = scalar ++ rest
      ∧ cp = scalarValue scalar := by
  cases text with
  | nil => cases h
  | cons first text =>
    by_cases hfirst : first < 0x80
    · rw [decode, if_pos hfirst] at h
      split at h
      · rename_i hne
        cases h
        exact ⟨[first], by simpa [isScalar] using hfirst, by simpa using hne, rfl, rfl⟩
      · cases h
    · cases hlead : leadBits first with
      | none =>
        rw [decode, if_neg hfirst, hlead] at h
        cases h
      | some r =>
        obtain ⟨extra, bits, minimum⟩ := r
        by_cases hlen : text.length < extra
        · rw [decode_short hfirst hlead hlen] at h
          cases h
        · obtain ⟨tail, rest', rfl, htail⟩ : ∃ tail rest', text = tail ++ rest'
              ∧ tail.length = extra :=
            ⟨text.take extra, text.drop extra, (List.take_append_drop _ _).symm, by
              rw [List.length_take]; omega⟩
          rw [decode_lead hfirst hlead htail] at h
          split at h
          · rename_i hvalid
            obtain ⟨rfl, rfl⟩ := Prod.mk.inj (Option.some.inj h)
            obtain ⟨hscalar, hval⟩ := isScalar_of_lead hlead htail hvalid.1 hvalid.2
            refine ⟨first :: tail, hscalar, ?_, rfl, hval⟩
            intro hnul
            rw [(List.cons.inj hnul).1] at hfirst
            exact hfirst (by decide)
          · cases h

/-- **`IsValidUtf8` accepts the valid texts without a NUL.** -/
theorem isValidUtf8_iff {text : Bytes} :
    isValidUtf8 text = true ↔ ValidUtf8 text ∧ 0 ∉ text := by
  unfold isValidUtf8
  constructor
  · intro h
    induction text using decodeAll.induct with
    | case1 => exact ⟨.nil, List.not_mem_nil⟩
    | case2 c text hnone =>
      rw [decodeAll] at h
      split at h
      · cases h
      · rename_i hsome
        rw [hnone] at hsome
        cases hsome
    | case3 c text cp rest hsome ih =>
      rw [decodeAll] at h
      split at h
      · cases h
      · rename_i hsome'
        rw [hsome] at hsome'
        cases hsome'
        rw [Option.isSome_map] at h
        obtain ⟨hvalid, hzero⟩ := ih h
        obtain ⟨scalar, hscalar, hne, heq, -⟩ := isScalar_of_decode hsome
        rw [heq]
        refine ⟨.cons hscalar hvalid, fun hmem => ?_⟩
        rcases List.mem_append.mp hmem with hmem | hmem
        · exact hne (eq_nul_of_mem hscalar hmem)
        · exact hzero hmem
  · rintro ⟨hvalid, hzero⟩
    induction hvalid with
    | nil => rw [decodeAll]; rfl
    | @cons scalar text hscalar _ ih =>
      rw [List.mem_append, not_or] at hzero
      have hne : scalar ≠ [0] := fun h => hzero.1 (by rw [h]; exact List.mem_singleton_self 0)
      have hdecode := decode_append hscalar hne text
      obtain ⟨c, tail, rfl⟩ := List.exists_cons_of_ne_nil (ne_nil_of_isScalar hscalar)
      rw [List.cons_append] at hdecode ⊢
      rw [decodeAll]
      split
      · rename_i hnone
        rw [hnone] at hdecode
        cases hdecode
      · rename_i hsome
        rw [hsome] at hdecode
        cases hdecode
        rw [Option.isSome_map]
        exact ih hzero.2

end AzooKey.Core.Dictionary

import AzooKey.Lib.Bytes

/-!
# Protected secrets

`EncodeBase64`, `DecodeBase64`, `ProtectSecret` and `UnprotectSecret` of
`learning/src/DpapiCrypto.cpp`: a secret of the settings is stored as a prefix and
its cipher in base64, and a stored text without the prefix is a secret in plain text
from before.

The decoder accepts nothing but what the encoder writes (`encodeBase64_decodeBase64`):
it refuses padding before the end, padding of a wrong length, and bits that the padding
leaves unused and that are not zero.
-/

namespace AzooKey.Learning

/-! ## Base64 -/

/-- `kBase64Alphabet`. -/
def base64Alphabet : Bytes :=
  utf8 "ABCDEFGHIJKLMNOPQRSTUVWXYZabcdefghijklmnopqrstuvwxyz0123456789+/"

/-- The character of six bits of a block. -/
def base64Character (block shift : ℕ) : UInt8 := base64Alphabet.getD ((block >>> shift) &&& 63) 0

/-- A block of three octets. -/
def blockOf (x y z : UInt8) : ℕ := (x.toNat <<< 16) ||| (y.toNat <<< 8) ||| z.toNat

/-- **`EncodeBase64`.** -/
def encodeBase64 : Bytes → Bytes
  | [] => []
  | [x] =>
    let block := blockOf x 0 0
    [base64Character block 18, base64Character block 12, 0x3d, 0x3d]
  | [x, y] =>
    let block := blockOf x y 0
    [base64Character block 18, base64Character block 12, base64Character block 6, 0x3d]
  | x :: y :: z :: bytes =>
    let block := blockOf x y z
    base64Character block 18 :: base64Character block 12 :: base64Character block 6
      :: base64Character block 0 :: encodeBase64 bytes

/-- `Base64Digit`, or nothing where it is negative. -/
def base64Digit (ch : UInt8) : Option ℕ := base64Alphabet.idxOf? ch

/-- One round of the loop of `DecodeBase64`: the octets of four characters, of which the
last of all are known. -/
def decodeBlock (e₀ e₁ e₂ e₃ : UInt8) (last : Bool) : Option Bytes :=
  let pad2 := e₂ == 0x3d
  let pad3 := e₃ == 0x3d
  match base64Digit e₀, base64Digit e₁, if pad2 then some 0 else base64Digit e₂,
    if pad3 then some 0 else base64Digit e₃ with
  | some a, some b, some c, some d =>
    if (pad2 && !pad3) || ((pad2 || pad3) && !last) || (pad2 && b &&& 15 != 0)
        || (pad3 && !pad2 && c &&& 3 != 0) then none
    else
      let block := (a <<< 18) ||| (b <<< 12) ||| (c <<< 6) ||| d
      some (UInt8.ofNat (block >>> 16) :: (if pad2 then [] else [UInt8.ofNat (block >>> 8)])
        ++ if pad3 then [] else [UInt8.ofNat block])
  | _, _, _, _ => none

/-- The loop of `DecodeBase64`. -/
def decodeBlocks : Bytes → Option Bytes
  | [] => some []
  | e₀ :: e₁ :: e₂ :: e₃ :: encoded =>
    (decodeBlock e₀ e₁ e₂ e₃ encoded.isEmpty).bind fun block =>
      (decodeBlocks encoded).map (block ++ ·)
  | _ => none

/-- **`DecodeBase64`.** -/
def decodeBase64 (encoded : Bytes) : Option Bytes :=
  if encoded = [] ∨ encoded.length % 4 ≠ 0 then none else decodeBlocks encoded

/-! ## Secrets -/

/-- `kSecretPrefix`. -/
def secretPrefix : Bytes := utf8 "dpapi:"

/-- `SecretStatus`. -/
inductive SecretStatus
  | ok | invalidEncoding | cryptoUnavailable | cryptoFailure
deriving DecidableEq

/-- `SecretResult`. -/
structure SecretResult where
  status : SecretStatus
  value : Bytes
  encrypted : Bool
deriving DecidableEq

/-- What a `ByteCrypto` answers when a secret is protected or read. -/
structure SecretCrypto where
  isAvailable : Bool
  encrypt : Bytes → Option Bytes
  decrypt : Bytes → Option Bytes

/-- **`ProtectSecret`.** -/
def protectSecret (plain : Bytes) (crypto : SecretCrypto) : SecretResult :=
  if plain = [] then ⟨.ok, [], false⟩
  else if !crypto.isAvailable then ⟨.cryptoUnavailable, [], false⟩
  else
    match crypto.encrypt plain with
    | none | some [] => ⟨.cryptoFailure, [], false⟩
    | some cipher => ⟨.ok, secretPrefix ++ encodeBase64 cipher, true⟩

/-- **`UnprotectSecret`.** -/
def unprotectSecret (stored : Bytes) (crypto : SecretCrypto) : SecretResult :=
  if !secretPrefix.isPrefixOf stored then ⟨.ok, stored, false⟩
  else
    match decodeBase64 (stored.drop secretPrefix.length) with
    | none => ⟨.invalidEncoding, [], true⟩
    | some cipher =>
      if !crypto.isAvailable then ⟨.cryptoUnavailable, [], true⟩
      else
        match crypto.decrypt cipher with
        | none => ⟨.cryptoFailure, [], true⟩
        | some plain => ⟨.ok, plain, true⟩

/-! ## Characters and bits -/

/-- The characters are read back. -/
theorem base64Digit_getD {n : ℕ} (h : n < 64) : base64Digit (base64Alphabet.getD n 0) = some n := by
  have hall : ∀ n < 64, base64Digit (base64Alphabet.getD n 0) = some n := by decide +kernel
  exact hall n h

/-- A digit is one of a character. -/
theorem base64Digit_eq_some {ch : UInt8} {n : ℕ} (h : base64Digit ch = some n) :
    n < 64 ∧ base64Alphabet.getD n 0 = ch := by
  obtain ⟨hlt, heq, -⟩ := List.findIdx?_eq_some_iff_getElem.mp h
  exact ⟨hlt, (List.getD_eq_getElem _ _ hlt).trans (eq_of_beq heq)⟩

set_option maxRecDepth 10000 in
/-- No character is the padding. -/
theorem base64Digit_ne_padding {ch : UInt8} {n : ℕ} (h : base64Digit ch = some n) : ch ≠ 0x3d := by
  rintro rfl
  have hnone : base64Digit 0x3d = none := by decide
  rw [hnone] at h
  cases h

/-- The character of a digit is not the padding. -/
theorem getD_ne_padding {n : ℕ} (h : n < 64) : base64Alphabet.getD n 0 ≠ 0x3d :=
  base64Digit_ne_padding (base64Digit_getD h)

/-- Bits put after others. -/
theorem shift_or_shift (a i j : ℕ) {b : ℕ} (h : b < 2 ^ j) :
    (a <<< (j + i)) ||| (b <<< i) = (a * 2 ^ j + b) <<< i := by
  rw [Nat.shiftLeft_add, ← Nat.shiftLeft_or_distrib, ← Nat.shiftLeft_add_eq_or_of_lt h,
    Nat.shiftLeft_eq a j]

/-- The octets of a block. -/
theorem blockOf_eq (x y z : UInt8) : blockOf x y z = x.toNat * 65536 + y.toNat * 256 + z.toNat := by
  have hfirst : (x.toNat <<< 16) ||| (y.toNat <<< 8) = (x.toNat * 2 ^ 8 + y.toNat) <<< 8 :=
    
    shift_or_shift x.toNat 8 8 y.toNat_lt
  unfold blockOf
  rw [hfirst, ← Nat.shiftLeft_add_eq_or_of_lt z.toNat_lt, Nat.shiftLeft_eq]
  omega

/-- The digits of a block. -/
theorem digits_eq {b c d : ℕ} (a : ℕ) (hb : b < 64) (hc : c < 64) (hd : d < 64) :
    (a <<< 18) ||| (b <<< 12) ||| (c <<< 6) ||| d = a * 262144 + b * 4096 + c * 64 + d := by
  have hfirst : (a <<< 18) ||| (b <<< 12) = (a * 2 ^ 6 + b) <<< 12 :=
    shift_or_shift a 12 6 hb
  have hsecond : ((a * 2 ^ 6 + b) <<< 12) ||| (c <<< 6) = ((a * 2 ^ 6 + b) * 2 ^ 6 + c) <<< 6 :=
    shift_or_shift (a * 2 ^ 6 + b) 6 6 hc
  have hd : d < 2 ^ 6 := hd
  rw [hfirst, hsecond, ← Nat.shiftLeft_add_eq_or_of_lt hd, Nat.shiftLeft_eq]
  omega

/-- A character of a block is the one of a digit. -/
theorem base64Character_eq (block shift : ℕ) :
    base64Character block shift = base64Alphabet.getD (block / 2 ^ shift % 64) 0 := by
  unfold base64Character
  rw [Nat.shiftRight_eq_div_pow]
  exact congrArg (base64Alphabet.getD · 0) (Nat.and_two_pow_sub_one_eq_mod (block / 2 ^ shift) 6)

/-- The characters of a block are the ones of its digits. -/
theorem base64Character_digits {a b c d : ℕ} (ha : a < 64) (hb : b < 64) (hc : c < 64) (hd : d < 64) :
    base64Character (a * 262144 + b * 4096 + c * 64 + d) 18 = base64Alphabet.getD a 0
      ∧ base64Character (a * 262144 + b * 4096 + c * 64 + d) 12 = base64Alphabet.getD b 0
      ∧ base64Character (a * 262144 + b * 4096 + c * 64 + d) 6 = base64Alphabet.getD c 0
      ∧ base64Character (a * 262144 + b * 4096 + c * 64 + d) 0 = base64Alphabet.getD d 0 := by
  refine ⟨?_, ?_, ?_, ?_⟩ <;> rw [base64Character_eq] <;> refine congrArg (base64Alphabet.getD · 0) ?_
  · show _ / 262144 % 64 = a
    omega
  · show _ / 4096 % 64 = b
    omega
  · show _ / 64 % 64 = c
    omega
  · show _ / 1 % 64 = d
    omega

/-! ## Blocks -/

/-- A block without padding. -/
theorem decodeBlock_full {a b c d : ℕ} (ha : a < 64) (hb : b < 64) (hc : c < 64) (hd : d < 64)
    (last : Bool) :
    decodeBlock (base64Alphabet.getD a 0) (base64Alphabet.getD b 0) (base64Alphabet.getD c 0)
      (base64Alphabet.getD d 0) last
      = some [UInt8.ofNat ((a * 262144 + b * 4096 + c * 64 + d) / 65536),
          UInt8.ofNat ((a * 262144 + b * 4096 + c * 64 + d) / 256),
          UInt8.ofNat (a * 262144 + b * 4096 + c * 64 + d)] := by
  unfold decodeBlock
  rw [beq_false_of_ne (getD_ne_padding hc), beq_false_of_ne (getD_ne_padding hd)]
  dsimp only
  rw [if_neg Bool.false_ne_true, if_neg Bool.false_ne_true, base64Digit_getD ha, base64Digit_getD hb,
    base64Digit_getD hc, base64Digit_getD hd]
  dsimp only
  rw [digits_eq a hb hc hd, Nat.shiftRight_eq_div_pow, Nat.shiftRight_eq_div_pow]
  rfl

/-- A last block with one padding. -/
theorem decodeBlock_pad3 {a b c : ℕ} (ha : a < 64) (hb : b < 64) (hc : c < 64) (last : Bool) :
    decodeBlock (base64Alphabet.getD a 0) (base64Alphabet.getD b 0) (base64Alphabet.getD c 0) 0x3d last
      = if last = true ∧ c % 4 = 0 then
          some [UInt8.ofNat ((a * 262144 + b * 4096 + c * 64) / 65536),
            UInt8.ofNat ((a * 262144 + b * 4096 + c * 64) / 256)]
        else none := by
  have hand : c &&& 3 = c % 4 := Nat.and_two_pow_sub_one_eq_mod c 2
  unfold decodeBlock
  rw [beq_false_of_ne (getD_ne_padding hc)]
  dsimp only
  rw [if_neg Bool.false_ne_true, base64Digit_getD ha, base64Digit_getD hb, base64Digit_getD hc]
  show (if _ then _ else some [UInt8.ofNat (((a <<< 18) ||| (b <<< 12) ||| (c <<< 6) ||| 0) >>> 16),
    UInt8.ofNat (((a <<< 18) ||| (b <<< 12) ||| (c <<< 6) ||| 0) >>> 8)]) = _
  rw [digits_eq a hb hc (by norm_num), Nat.shiftRight_eq_div_pow, Nat.shiftRight_eq_div_pow, hand]
  cases last <;> by_cases hzero : c % 4 = 0 <;> simp [hzero]

/-- A last block with two paddings. -/
theorem decodeBlock_pad2 {a b : ℕ} (ha : a < 64) (hb : b < 64) (last : Bool) :
    decodeBlock (base64Alphabet.getD a 0) (base64Alphabet.getD b 0) 0x3d 0x3d last
      = if last = true ∧ b % 16 = 0 then
          some [UInt8.ofNat ((a * 262144 + b * 4096) / 65536)]
        else none := by
  have hand : b &&& 15 = b % 16 := Nat.and_two_pow_sub_one_eq_mod b 4
  unfold decodeBlock
  dsimp only
  rw [base64Digit_getD ha, base64Digit_getD hb]
  show (if _ then _ else some [UInt8.ofNat (((a <<< 18) ||| (b <<< 12) ||| (0 <<< 6) ||| 0) >>> 16)]) = _
  rw [digits_eq a hb (by norm_num) (by norm_num), Nat.shiftRight_eq_div_pow, hand]
  cases last <;> by_cases hzero : b % 16 = 0 <;> simp [hzero]

/-- **What is decoded**: three forms of a block. -/
theorem decodeBlock_eq_some {e₀ e₁ e₂ e₃ : UInt8} {last : Bool} {block : Bytes}
    (h : decodeBlock e₀ e₁ e₂ e₃ last = some block) :
    ∃ a b, a < 64 ∧ b < 64 ∧ e₀ = base64Alphabet.getD a 0 ∧ e₁ = base64Alphabet.getD b 0
      ∧ ((∃ c d, c < 64 ∧ d < 64 ∧ e₂ = base64Alphabet.getD c 0 ∧ e₃ = base64Alphabet.getD d 0)
        ∨ (∃ c, c < 64 ∧ e₂ = base64Alphabet.getD c 0 ∧ e₃ = 0x3d)
        ∨ (e₂ = 0x3d ∧ e₃ = 0x3d)) := by
  unfold decodeBlock at h
  dsimp only at h
  split at h
  · next a b c d ha hb hc hd =>
    obtain ⟨hlta, rfl⟩ := base64Digit_eq_some ha
    obtain ⟨hltb, rfl⟩ := base64Digit_eq_some hb
    refine ⟨a, b, hlta, hltb, rfl, rfl, ?_⟩
    by_cases h₂ : e₂ = 0x3d
    · by_cases h₃ : e₃ = 0x3d
      · exact Or.inr (Or.inr ⟨h₂, h₃⟩)
      · rw [if_pos (by simp [h₂, h₃])] at h
        cases h
    · rw [if_neg (by simpa using h₂)] at hc
      obtain ⟨hltc, rfl⟩ := base64Digit_eq_some hc
      by_cases h₃ : e₃ = 0x3d
      · exact Or.inr (Or.inl ⟨c, hltc, rfl, h₃⟩)
      · rw [if_neg (by simpa using h₃)] at hd
        obtain ⟨hltd, rfl⟩ := base64Digit_eq_some hd
        exact Or.inl ⟨c, d, hltc, hltd, rfl, rfl⟩
  · cases h

/-! ## Reading back -/

/-- An octet is its value. -/
theorem ofNat_eq {n : ℕ} {x : UInt8} (h : n % 256 = x.toNat) : UInt8.ofNat n = x := by
  refine UInt8.toNat.inj ?_
  rw [UInt8.toNat_ofNat']
  exact h

/-- **What is encoded is decoded**, block by block. -/
theorem decodeBlocks_encodeBase64 (bytes : Bytes) :
    decodeBlocks (encodeBase64 bytes) = some bytes := by
  have hbits : ∀ n, n % 64 < 64 := fun n => Nat.mod_lt n (by norm_num)
  induction bytes using encodeBase64.induct with
  | case1 => rfl
  | case2 x =>
    have hx := x.toNat_lt
    show ((decodeBlock (base64Character _ _) (base64Character _ _) 0x3d 0x3d true).bind
      fun block => some (block ++ [])) = _
    rw [base64Character_eq, base64Character_eq, decodeBlock_pad2 (hbits _) (hbits _), blockOf_eq,
      if_pos ⟨rfl, by simp; omega⟩]
    show some [UInt8.ofNat _] = _
    rw [ofNat_eq (x := x)]
    simp
    omega
  | case3 x y =>
    have hx := x.toNat_lt
    have hy := y.toNat_lt
    show ((decodeBlock (base64Character _ _) (base64Character _ _) (base64Character _ _) 0x3d
      true).bind fun block => some (block ++ [])) = _
    rw [base64Character_eq, base64Character_eq, base64Character_eq,
      decodeBlock_pad3 (hbits _) (hbits _) (hbits _), blockOf_eq, if_pos ⟨rfl, by simp; omega⟩]
    show some [UInt8.ofNat _, UInt8.ofNat _] = _
    rw [ofNat_eq (x := x), ofNat_eq (x := y)]
    · simp
      omega
    · simp
      omega
  | case4 x y z bytes ih =>
    have hx := x.toNat_lt
    have hy := y.toNat_lt
    have hz := z.toNat_lt
    show ((decodeBlock (base64Character _ _) (base64Character _ _) (base64Character _ _)
      (base64Character _ _) (encodeBase64 bytes).isEmpty).bind
        fun block => (decodeBlocks (encodeBase64 bytes)).map (block ++ ·)) = _
    rw [ih, base64Character_eq, base64Character_eq, base64Character_eq, base64Character_eq,
      decodeBlock_full (hbits _) (hbits _) (hbits _) (hbits _), blockOf_eq]
    show some (UInt8.ofNat _ :: UInt8.ofNat _ :: UInt8.ofNat _ :: bytes) = _
    rw [ofNat_eq (x := x), ofNat_eq (x := y), ofNat_eq (x := z)]
    · simp
      omega
    · simp
      omega
    · simp
      omega

/-- **What is decoded is encoded again**, block by block. -/
theorem encodeBase64_decodeBlocks {encoded bytes : Bytes} (h : decodeBlocks encoded = some bytes) :
    encodeBase64 bytes = encoded := by
  have hzero : (0 : ℕ) < 64 := by norm_num
  induction encoded using decodeBlocks.induct generalizing bytes with
  | case1 =>
    obtain rfl := Option.some.inj h
    rfl
  | case2 e₀ e₁ e₂ e₃ encoded ih =>
    obtain ⟨block, hblock, hrest⟩ := Option.bind_eq_some_iff.mp h
    obtain ⟨rest, hdecoded, rfl⟩ := Option.map_eq_some_iff.mp hrest
    have hlast : encoded.isEmpty = true → encoded = [] ∧ rest = [] := by
      intro hempty
      obtain rfl := List.isEmpty_iff.mp hempty
      exact ⟨rfl, (Option.some.inj hdecoded).symm⟩
    obtain ⟨a, b, ha, hb, rfl, rfl, hform⟩ := decodeBlock_eq_some hblock
    obtain ⟨c, d, hc, hd, rfl, rfl⟩ | ⟨c, hc, rfl, rfl⟩ | ⟨rfl, rfl⟩ := hform
    · rw [decodeBlock_full ha hb hc hd] at hblock
      obtain rfl := Option.some.inj hblock
      have hvalue : blockOf (UInt8.ofNat ((a * 262144 + b * 4096 + c * 64 + d) / 65536))
          (UInt8.ofNat ((a * 262144 + b * 4096 + c * 64 + d) / 256))
          (UInt8.ofNat (a * 262144 + b * 4096 + c * 64 + d)) = a * 262144 + b * 4096 + c * 64 + d := by
        rw [blockOf_eq, UInt8.toNat_ofNat', UInt8.toNat_ofNat', UInt8.toNat_ofNat']
        omega
      obtain ⟨h₀, h₁, h₂, h₃⟩ := base64Character_digits ha hb hc hd
      show base64Character _ _ :: base64Character _ _ :: base64Character _ _ :: base64Character _ _
        :: encodeBase64 rest = _
      rw [ih hdecoded, hvalue, h₀, h₁, h₂, h₃]
    · rw [decodeBlock_pad3 ha hb hc] at hblock
      split at hblock
      · next hpad =>
        obtain rfl := Option.some.inj hblock
        obtain ⟨rfl, rfl⟩ := hlast hpad.1
        have hvalue : blockOf (UInt8.ofNat ((a * 262144 + b * 4096 + c * 64) / 65536))
            (UInt8.ofNat ((a * 262144 + b * 4096 + c * 64) / 256)) 0
            = a * 262144 + b * 4096 + c * 64 + 0 := by
          rw [blockOf_eq, UInt8.toNat_ofNat', UInt8.toNat_ofNat', UInt8.toNat_zero]
          omega
        obtain ⟨h₀, h₁, h₂, -⟩ := base64Character_digits ha hb hc hzero
        show [base64Character _ _, base64Character _ _, base64Character _ _, 0x3d] = _
        rw [hvalue, h₀, h₁, h₂]
      · cases hblock
    · rw [decodeBlock_pad2 ha hb] at hblock
      split at hblock
      · next hpad =>
        obtain rfl := Option.some.inj hblock
        obtain ⟨rfl, rfl⟩ := hlast hpad.1
        have hvalue : blockOf (UInt8.ofNat ((a * 262144 + b * 4096) / 65536)) 0 0
            = a * 262144 + b * 4096 + 0 * 64 + 0 := by
          rw [blockOf_eq, UInt8.toNat_ofNat', UInt8.toNat_zero]
          omega
        obtain ⟨h₀, h₁, -⟩ := base64Character_digits ha hb hzero hzero
        show [base64Character _ _, base64Character _ _, 0x3d, 0x3d] = _
        rw [hvalue, h₀, h₁]
      · cases hblock
  | case3 encoded h₁ h₂ =>
    rw [decodeBlocks] at h
    · cases h
    · exact h₁
    · exact h₂

/-- What is encoded is whole blocks. -/
theorem length_encodeBase64 (bytes : Bytes) : (encodeBase64 bytes).length % 4 = 0 := by
  induction bytes using encodeBase64.induct with
  | case1 => rfl
  | case2 x => simp [encodeBase64]
  | case3 x y => simp [encodeBase64]
  | case4 x y z bytes ih =>
    show ((encodeBase64 bytes).length + 4) % 4 = 0
    omega

/-- Something is encoded to something. -/
theorem encodeBase64_ne_nil {bytes : Bytes} (h : bytes ≠ []) : encodeBase64 bytes ≠ [] := by
  intro hnil
  have hread := decodeBlocks_encodeBase64 bytes
  rw [hnil] at hread
  exact h (Option.some.inj hread).symm

/-- **`DecodeBase64` reads what `EncodeBase64` writes.** -/
theorem decodeBase64_encodeBase64 {bytes : Bytes} (h : bytes ≠ []) :
    decodeBase64 (encodeBase64 bytes) = some bytes := by
  unfold decodeBase64
  rw [if_neg, decodeBlocks_encodeBase64]
  rintro (hnil | hlength)
  · exact encodeBase64_ne_nil h hnil
  · exact hlength (length_encodeBase64 bytes)

/-- **`DecodeBase64` reads nothing else**, and reads no two texts alike. -/
theorem encodeBase64_decodeBase64 {encoded bytes : Bytes} (h : decodeBase64 encoded = some bytes) :
    encodeBase64 bytes = encoded ∧ bytes ≠ [] := by
  unfold decodeBase64 at h
  split at h
  · cases h
  · next hform =>
    have hencoded := encodeBase64_decodeBlocks h
    refine ⟨hencoded, ?_⟩
    rintro rfl
    exact hform (Or.inl hencoded.symm)

/-! ## Secrets -/

/-- A stored text with the prefix. -/
theorem unprotectSecret_append (encoded : Bytes) (crypto : SecretCrypto) :
    unprotectSecret (secretPrefix ++ encoded) crypto
      = match decodeBase64 encoded with
        | none => ⟨.invalidEncoding, [], true⟩
        | some cipher =>
          if !crypto.isAvailable then ⟨.cryptoUnavailable, [], true⟩
          else
            match crypto.decrypt cipher with
            | none => ⟨.cryptoFailure, [], true⟩
            | some plain => ⟨.ok, plain, true⟩ := by
  have hstands : secretPrefix.isPrefixOf (secretPrefix ++ encoded) = true :=
    List.isPrefixOf_iff_prefix.mpr (List.prefix_append _ _)
  unfold unprotectSecret
  rw [hstands, List.drop_left]
  rfl

/-- **Secrets are read as they were protected.** -/
theorem secrets_spec (crypto : SecretCrypto) (havailable : crypto.isAvailable = true)
    (hinverse : ∀ plain, ∃ cipher, crypto.encrypt plain = some cipher ∧ cipher ≠ []
      ∧ crypto.decrypt cipher = some plain) :
    (∀ bytes, bytes ≠ [] → decodeBase64 (encodeBase64 bytes) = some bytes)
      ∧ (∀ encoded bytes, decodeBase64 encoded = some bytes → encodeBase64 bytes = encoded)
      ∧ (∀ plain, (protectSecret plain crypto).status = .ok
        ∧ (unprotectSecret (protectSecret plain crypto).value crypto).status = .ok
        ∧ (unprotectSecret (protectSecret plain crypto).value crypto).value = plain)
      ∧ ∀ encoded, (∀ bytes, bytes ≠ [] → encoded ≠ encodeBase64 bytes) →
        unprotectSecret (secretPrefix ++ encoded) crypto = ⟨.invalidEncoding, [], true⟩ := by
  refine ⟨fun bytes h => decodeBase64_encodeBase64 h,
    fun encoded bytes h => (encodeBase64_decodeBase64 h).1, fun plain => ?_, fun encoded h => ?_⟩
  · by_cases hempty : plain = []
    · subst hempty
      exact ⟨rfl, rfl, rfl⟩
    · obtain ⟨cipher, hcipher, hne, hplain⟩ := hinverse plain
      have hprotect : protectSecret plain crypto = ⟨.ok, secretPrefix ++ encodeBase64 cipher, true⟩ := by
        unfold protectSecret
        rw [if_neg hempty, havailable, hcipher]
        cases cipher with
        | nil => exact absurd rfl hne
        | cons first rest => rfl
      rw [hprotect, unprotectSecret_append, decodeBase64_encodeBase64 hne, havailable]
      dsimp only
      rw [hplain]
      exact ⟨rfl, rfl, rfl⟩
  · rw [unprotectSecret_append]
    cases hdecode : decodeBase64 encoded with
    | none => rfl
    | some bytes =>
      obtain ⟨hencoded, hne⟩ := encodeBase64_decodeBase64 hdecode
      exact absurd hencoded.symm (h bytes hne)

/-- A cipher that puts an octet in front of the text. -/
def markingCrypto : SecretCrypto where
  isAvailable := true
  encrypt plain := some (0x80 :: plain)
  decrypt cipher := cipher.tail?

/-- It reads its secrets back. -/
theorem secrets_spec_marking :
    (∀ bytes, bytes ≠ [] → decodeBase64 (encodeBase64 bytes) = some bytes)
      ∧ (∀ encoded bytes, decodeBase64 encoded = some bytes → encodeBase64 bytes = encoded)
      ∧ (∀ plain, (protectSecret plain markingCrypto).status = .ok
        ∧ (unprotectSecret (protectSecret plain markingCrypto).value markingCrypto).status = .ok
        ∧ (unprotectSecret (protectSecret plain markingCrypto).value markingCrypto).value = plain)
      ∧ ∀ encoded, (∀ bytes, bytes ≠ [] → encoded ≠ encodeBase64 bytes) →
        unprotectSecret (secretPrefix ++ encoded) markingCrypto = ⟨.invalidEncoding, [], true⟩ :=
  secrets_spec markingCrypto rfl (fun plain => ⟨0x80 :: plain, rfl, List.cons_ne_nil _ _, rfl⟩)

end AzooKey.Learning

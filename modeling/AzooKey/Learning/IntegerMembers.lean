import AzooKey.Ipc.PayloadIntegers
import AzooKey.Ipc.PayloadWriters
import AzooKey.Learning.UserDictionary

/-!
# Integers of 32 bits

The readers of `ipc/src/Payloads.cpp` and of `learning/src/UserDictionary.cpp` take an integer
with 64 bits, `GetInt` or `GetUInt`, and some store it in a type of 32: the generation of the
handshake on both sides, the memory and the layers of the graphics card, the number of candidates,
the ids and the count of a word. A cast is all that is between them, while the positions of a
segment are compared with the range first.

So what is stored is the integer, if and only if it fits; and two integers are stored as the same
if and only if they differ by a multiple of `2 ^ 32` (`keeps_iff`).
-/

namespace AzooKey.Learning

open AzooKey.Ipc
open AzooKey.Ipc.Json (Value)

/-- **An integer member** of what a reader takes, stored with 32 bits. -/
structure IntegerMember (Source : Type) where
  /-- The integer that is read with 64 bits, where the reader takes the whole. -/
  written : Source → Option ℤ
  /-- What is stored of it. -/
  stored : Source → Option ℤ
  /-- The least value of the type it is stored in. -/
  low : ℤ

/-- A member that a reader takes from an object. -/
def IntegerMember.ofReader {Source P : Type} (reader : Source → Option P)
    (object : Source → Option Value) (read : Value → Option ℤ) (field : P → Option ℤ) (low : ℤ) :
    IntegerMember Source where
  written source := (reader source).bind fun _ => (object source).bind read
  stored source := (reader source).bind field
  low := low

/-- A member with a sign. -/
def IntegerMember.signed {Source P : Type} (reader : Source → Option P)
    (object : Source → Option Value) (key : Bytes) (field : P → Option ℤ) : IntegerMember Source :=
  .ofReader reader object (fun v => v.getInt key) field (-2 ^ 31)

/-- A member without one. -/
def IntegerMember.unsigned {Source P : Type} (reader : Source → Option P)
    (object : Source → Option Value) (key : Bytes) (field : P → Option UInt32) :
    IntegerMember Source :=
  .ofReader reader object (fun v => (v.getUInt key).map Int.ofNat)
    (fun p => (field p).map fun n => (n.toNat : ℤ)) 0

/-- The number of candidates of a request for them. -/
def maxCandidates : IntegerMember Bytes :=
  .unsigned parseQueryCandidatesRequest parseObject (utf8 "max_candidates")
    (fun p => some p.maxCandidates)

/-- The integer members of the payloads. -/
def payloadMembers : List (IntegerMember Bytes) :=
  [.signed parseHandshakeRequest parseObject (utf8 "protocol_version")
      (fun p => some p.protocolVersion),
    .signed parseHandshakeResponse parseObject (utf8 "protocol_version")
      (fun p => some p.protocolVersion),
    .unsigned parseHealth parseObject (utf8 "vram_mb") HealthPayload.vramMb,
    .signed parseLoadModelRequest parseObject (utf8 "n_gpu_layers")
      (fun p => p.nGpuLayers.map Int32.toInt),
    maxCandidates,
    .unsigned parseQueryBatchConversionRequest parseObject (utf8 "max_candidates")
      (fun p => some p.maxCandidates),
    .signed parseAddUserWordRequest parseObject (utf8 "cid") (fun p => p.cid.map Int32.toInt),
    .signed parseAddUserWordRequest parseObject (utf8 "mid") (fun p => p.mid.map Int32.toInt)]

/-- The integer members of the words that an array holds: the elements of a payload, and those of
the file of a dictionary. -/
def wordIntegerMembers : List (IntegerMember Value) :=
  [.unsigned newWordFromJson some (utf8 "count") (fun w => some w.count),
    .signed wordFromJson some (utf8 "cid") (fun w => w.cid.map Int32.toInt),
    .signed wordFromJson some (utf8 "mid") (fun w => w.mid.map Int32.toInt)]

namespace IntegerMember

variable {Source : Type} (m : IntegerMember Source)

/-- An integer that is read is what is stored. -/
def Keeps (source : Source) : Prop :=
  ∀ n, m.written source = some n → m.stored source = some n

/-- An integer that is read fits into 32 bits. -/
def Fits (source : Source) : Prop :=
  ∀ n, m.written source = some n → m.low ≤ n ∧ n < m.low + 2 ^ 32

/-- Different integers are not stored as the same. -/
def Distinguishes (source other : Source) : Prop :=
  ∀ n k, m.written source = some n → m.written other = some k → n ≠ k →
    m.stored source ≠ m.stored other

/-- Different integers do not differ by a multiple of `2 ^ 32`. -/
def Incongruent (source other : Source) : Prop :=
  ∀ n k, m.written source = some n → m.written other = some k → n ≠ k → ¬ n ≡ k [ZMOD 2 ^ 32]

/-- **What is stored is the integer modulo `2 ^ 32`**, in the range of the type. -/
def Wraps : Prop :=
  ∀ source n, m.written source = some n → ∃ s, m.stored source = some s
    ∧ m.low ≤ s ∧ s < m.low + 2 ^ 32 ∧ s ≡ n [ZMOD 2 ^ 32]

variable {m}

/-- Numbers of a range that are congruent are equal. -/
theorem eq_of_modEq {low s n : ℤ} (hs : low ≤ s ∧ s < low + 2 ^ 32) (hn : low ≤ n ∧ n < low + 2 ^ 32)
    (h : s ≡ n [ZMOD 2 ^ 32]) : s = n := by
  obtain ⟨k, hk⟩ := h.dvd
  omega

/-- A member that wraps is kept where it fits. -/
theorem Wraps.keeps_iff_fits (h : m.Wraps) (source : Source) : m.Keeps source ↔ m.Fits source := by
  constructor
  · intro hkeeps n hn
    obtain ⟨s, hs, hlow, hhigh, -⟩ := h source n hn
    obtain rfl := Option.some.inj (hs.symm.trans (hkeeps n hn))
    exact ⟨hlow, hhigh⟩
  · intro hfits n hn
    obtain ⟨s, hs, hlow, hhigh, hmod⟩ := h source n hn
    rw [hs, eq_of_modEq ⟨hlow, hhigh⟩ (hfits n hn) hmod]

/-- A member that wraps tells apart what is not congruent. -/
theorem Wraps.distinguishes_iff (h : m.Wraps) (source other : Source) :
    m.Distinguishes source other ↔ m.Incongruent source other := by
  constructor
  · intro hdistinct n k hn hk hne hmod
    obtain ⟨s, hs, hsLow, hsHigh, hsMod⟩ := h source n hn
    obtain ⟨t, ht, htLow, htHigh, htMod⟩ := h other k hk
    have hsame : s = t :=
      eq_of_modEq ⟨hsLow, hsHigh⟩ ⟨htLow, htHigh⟩ (hsMod.trans (hmod.trans htMod.symm))
    exact hdistinct n k hn hk hne (by rw [hs, ht, hsame])
  · intro hincongruent n k hn hk hne hstored
    obtain ⟨s, hs, -, -, hsMod⟩ := h source n hn
    obtain ⟨t, ht, -, -, htMod⟩ := h other k hk
    obtain rfl := Option.some.inj (hs.symm.trans (hstored.trans ht))
    exact hincongruent n k hn hk hne (hsMod.symm.trans htMod)

end IntegerMember

/-! ## The casts -/

/-- A cast to 32 bits with a sign. -/
theorem bmod_spec (n : ℤ) :
    -2 ^ 31 ≤ n.bmod (2 ^ 32) ∧ n.bmod (2 ^ 32) < -2 ^ 31 + 2 ^ 32
      ∧ n.bmod (2 ^ 32) ≡ n [ZMOD 2 ^ 32] := by
  have hlow := @Int.le_bmod n (2 ^ 32) (by norm_num)
  have hhigh := @Int.bmod_lt n (2 ^ 32) (by norm_num)
  refine ⟨by omega, by omega, ?_⟩
  exact Int.bmod_emod

/-- A cast to 32 bits without one. -/
theorem toNat_ofNat_spec (n : ℕ) :
    (0 : ℤ) ≤ (UInt32.ofNat n).toNat ∧ ((UInt32.ofNat n).toNat : ℤ) < 0 + 2 ^ 32
      ∧ ((UInt32.ofNat n).toNat : ℤ) ≡ n [ZMOD 2 ^ 32] := by
  have hlt := (UInt32.ofNat n).toNat_lt
  refine ⟨Int.natCast_nonneg _, by omega, ?_⟩
  rw [UInt32.toNat_ofNat']
  exact Int.natCast_modEq_iff.mpr (Nat.mod_modEq n (2 ^ 32))

/-- A member with a sign wraps where what is stored is the cast of what is read. -/
theorem wraps_signed {Source P : Type} {reader : Source → Option P} {object : Source → Option Value}
    {key : Bytes} {field : P → Option ℤ}
    (h : ∀ source p v n, reader source = some p → object source = some v →
      v.getInt key = some n → field p = some (n.bmod (2 ^ 32))) :
    (IntegerMember.signed reader object key field).Wraps := by
  intro source n hn
  obtain ⟨p, hp, hn⟩ := Option.bind_eq_some_iff.mp hn
  obtain ⟨v, hv, hn⟩ := Option.bind_eq_some_iff.mp hn
  refine ⟨n.bmod (2 ^ 32), ?_, bmod_spec n⟩
  show (reader source).bind field = some (n.bmod (2 ^ 32))
  rw [hp, Option.bind_some, h source p v n hp hv hn]

/-- So does one without. -/
theorem wraps_unsigned {Source P : Type} {reader : Source → Option P}
    {object : Source → Option Value} {key : Bytes} {field : P → Option UInt32}
    (h : ∀ source p v n, reader source = some p → object source = some v →
      v.getUInt key = some n → field p = some (UInt32.ofNat n)) :
    (IntegerMember.unsigned reader object key field).Wraps := by
  intro source n hn
  obtain ⟨p, hp, hn⟩ := Option.bind_eq_some_iff.mp hn
  obtain ⟨v, hv, hn⟩ := Option.bind_eq_some_iff.mp hn
  obtain ⟨count, hcount, rfl⟩ := Option.map_eq_some_iff.mp hn
  refine ⟨(UInt32.ofNat count).toNat, ?_, toNat_ofNat_spec count⟩
  show ((reader source).bind fun p => (field p).map fun n => (n.toNat : ℤ)) = _
  rw [hp, Option.bind_some, h source p v count hp hv hcount]
  rfl

/-- A cast to 32 bits, read back. -/
theorem map_toInt_ofInt {read : Option ℤ} {n : ℤ} (h : read = some n) :
    (read.map Int32.ofInt).map Int32.toInt = some (n.bmod (2 ^ 32)) := by
  rw [h]
  exact congrArg some Int32.toInt_ofInt

/-! ## The readers -/

/-- **The generation of a handshake is cast.** -/
theorem handshakeRequest_cast {json : Bytes} {p : HandshakeRequest} {v : Value} {n : ℤ}
    (hp : parseHandshakeRequest json = some p) (hv : parseObject json = some v)
    (hn : v.getInt (utf8 "protocol_version") = some n) :
    some p.protocolVersion = some (n.bmod (2 ^ 32)) := by
  simp only [parseHandshakeRequest, hv, Option.bind_eq_bind, Option.bind_some,
    Option.bind_eq_some_iff, Option.some.injEq] at hp
  obtain ⟨tip, -, rfl⟩ := hp
  rw [hn]
  rfl

/-- **So is that of the answer.** -/
theorem handshakeResponse_cast {json : Bytes} {p : HandshakeResponse} {v : Value} {n : ℤ}
    (hp : parseHandshakeResponse json = some p) (hv : parseObject json = some v)
    (hn : v.getInt (utf8 "protocol_version") = some n) :
    some p.protocolVersion = some (n.bmod (2 ^ 32)) := by
  simp only [parseHandshakeResponse, hv, Option.bind_eq_bind, Option.bind_some,
    Option.bind_eq_some_iff, Option.some.injEq] at hp
  obtain ⟨host, -, rfl⟩ := hp
  rw [hn]
  rfl

/-- **The memory of the graphics card is cast.** -/
theorem health_cast {json : Bytes} {p : HealthPayload} {v : Value} {n : ℕ}
    (hp : parseHealth json = some p) (hv : parseObject json = some v)
    (hn : v.getUInt (utf8 "vram_mb") = some n) : p.vramMb = some (UInt32.ofNat n) := by
  simp only [parseHealth, hv, Option.bind_eq_bind, Option.bind_some, Option.bind_eq_some_iff,
    Option.some.injEq] at hp
  obtain ⟨status, -, backend, -, rfl⟩ := hp
  rw [hn]
  rfl

/-- **The number of layers is cast.** -/
theorem loadModelRequest_cast {json : Bytes} {p : LoadModelRequest} {v : Value} {n : ℤ}
    (hp : parseLoadModelRequest json = some p) (hv : parseObject json = some v)
    (hn : v.getInt (utf8 "n_gpu_layers") = some n) :
    p.nGpuLayers.map Int32.toInt = some (n.bmod (2 ^ 32)) := by
  simp only [parseLoadModelRequest, hv, Option.bind_eq_bind, Option.bind_some,
    Option.bind_eq_some_iff, Option.some.injEq] at hp
  obtain ⟨path, -, backend, -, rfl⟩ := hp
  exact map_toInt_ofInt hn

/-- **The number of candidates is cast.** -/
theorem queryCandidates_cast {json : Bytes} {p : QueryCandidatesRequest} {v : Value} {n : ℕ}
    (hp : parseQueryCandidatesRequest json = some p) (hv : parseObject json = some v)
    (hn : v.getUInt (utf8 "max_candidates") = some n) :
    some p.maxCandidates = some (UInt32.ofNat n) := by
  simp only [parseQueryCandidatesRequest, hv, Option.bind_eq_bind, Option.bind_some,
    Option.bind_eq_some_iff, Option.some.injEq] at hp
  obtain ⟨reading, -, rfl⟩ := hp
  rw [hn]
  rfl

/-- **So is that of a conversion in one go.** -/
theorem queryBatchConversion_cast {json : Bytes} {p : QueryBatchConversionRequest} {v : Value}
    {n : ℕ} (hp : parseQueryBatchConversionRequest json = some p) (hv : parseObject json = some v)
    (hn : v.getUInt (utf8 "max_candidates") = some n) :
    some p.maxCandidates = some (UInt32.ofNat n) := by
  simp only [parseQueryBatchConversionRequest, hv, Option.bind_eq_bind, Option.bind_some,
    Option.bind_eq_some_iff] at hp
  obtain ⟨reading, -, hp⟩ := hp
  split at hp
  · cases hp
  · rw [← Option.some.inj hp, hn]
    rfl

/-- **The ids of a word to be registered are cast.** -/
theorem addUserWordRequest_ids {json : Bytes} {p : AddUserWordRequest} {v : Value}
    (hp : parseAddUserWordRequest json = some p) (hv : parseObject json = some v) :
    p.cid = (v.getInt (utf8 "cid")).map Int32.ofInt
      ∧ p.mid = (v.getInt (utf8 "mid")).map Int32.ofInt := by
  simp only [parseAddUserWordRequest, hv, Option.bind_eq_bind, Option.bind_some,
    Option.bind_eq_some_iff, Option.some.injEq] at hp
  obtain ⟨word, -, ruby, -, rfl⟩ := hp
  exact ⟨rfl, rfl⟩

/-- **The count of a word that was found is cast.** -/
theorem newWord_cast {v : Value} {w : NewWordField} {n : ℕ} (hw : newWordFromJson v = some w)
    (hn : v.getUInt (utf8 "count") = some n) : some w.count = some (UInt32.ofNat n) := by
  unfold newWordFromJson at hw
  split at hw
  · cases hw
  · split at hw
    · rw [← Option.some.inj hw, hn]
      rfl
    · cases hw

/-- **The ids of a word of a dictionary are cast.** -/
theorem wordFromJson_ids {v : Value} {w : UserWord} (h : wordFromJson v = some w) :
    w.cid = (v.getInt (utf8 "cid")).map Int32.ofInt
      ∧ w.mid = (v.getInt (utf8 "mid")).map Int32.ofInt := by
  unfold wordFromJson at h
  split at h
  · cases h
  · split at h
    · obtain rfl := Option.some.inj h
      exact ⟨rfl, rfl⟩
    · cases h

/-- Every member of a payload wraps. -/
theorem wraps_payloadMembers : ∀ m ∈ payloadMembers, m.Wraps := by
  intro m hm
  simp only [payloadMembers, List.mem_cons, List.not_mem_nil, or_false] at hm
  rcases hm with rfl | rfl | rfl | rfl | rfl | rfl | rfl | rfl
  · exact wraps_signed fun json p v n => handshakeRequest_cast
  · exact wraps_signed fun json p v n => handshakeResponse_cast
  · exact wraps_unsigned fun json p v n => health_cast
  · exact wraps_signed fun json p v n => loadModelRequest_cast
  · exact wraps_unsigned fun json p v n => queryCandidates_cast
  · exact wraps_unsigned fun json p v n => queryBatchConversion_cast
  · refine wraps_signed fun json p v n hp hv hn => ?_
    rw [(addUserWordRequest_ids hp hv).1]
    exact map_toInt_ofInt hn
  · refine wraps_signed fun json p v n hp hv hn => ?_
    rw [(addUserWordRequest_ids hp hv).2]
    exact map_toInt_ofInt hn

/-- So does every member of a word. -/
theorem wraps_wordIntegerMembers : ∀ m ∈ wordIntegerMembers, m.Wraps := by
  intro m hm
  simp only [wordIntegerMembers, List.mem_cons, List.not_mem_nil, or_false] at hm
  rcases hm with rfl | rfl | rfl
  · refine wraps_unsigned fun element w v n hw hv hn => ?_
    obtain rfl := Option.some.inj hv
    exact newWord_cast hw hn
  · refine wraps_signed fun element w v n hw hv hn => ?_
    obtain rfl := Option.some.inj hv
    rw [(wordFromJson_ids hw).1]
    exact map_toInt_ofInt hn
  · refine wraps_signed fun element w v n hw hv hn => ?_
    obtain rfl := Option.some.inj hv
    rw [(wordFromJson_ids hw).2]
    exact map_toInt_ofInt hn

/-- **What is stored of an integer**, for every text and every word: it is the integer if and only
if that fits into 32 bits, and different integers are told apart if and only if they do not differ by
a multiple of `2 ^ 32`. -/
theorem keeps_iff (text other : Bytes) (word otherWord : Value) :
    (∀ m ∈ payloadMembers, (m.Keeps text ↔ m.Fits text)
      ∧ (m.Distinguishes text other ↔ m.Incongruent text other))
    ∧ ∀ m ∈ wordIntegerMembers, (m.Keeps word ↔ m.Fits word)
      ∧ (m.Distinguishes word otherWord ↔ m.Incongruent word otherWord) := by
  refine ⟨fun m hm => ?_, fun m hm => ?_⟩
  · have hwraps := wraps_payloadMembers m hm
    exact ⟨hwraps.keeps_iff_fits text, hwraps.distinguishes_iff text other⟩
  · have hwraps := wraps_wordIntegerMembers m hm
    exact ⟨hwraps.keeps_iff_fits word, hwraps.distinguishes_iff word otherWord⟩

/-- A request for `2 ^ 32 + 1` candidates. -/
def wideRequest : Bytes := utf8 "\x7b\"max_candidates\":4294967297,\"reading\":\"\"\x7d"

/-- A request for one candidate. -/
def narrowRequest : Bytes := utf8 "\x7b\"max_candidates\":1,\"reading\":\"\"\x7d"

/-- **`2 ^ 32 + 1` candidates are read as one**: neither as the integer nor as the ten that are read
without it, and as a request for one candidate is. -/
theorem not_keeps_wideRequest :
    ¬ (∀ text n s, maxCandidates.written text = some n → maxCandidates.stored text = some s →
        s = n ∨ s = 10)
      ∧ ¬ maxCandidates.Distinguishes wideRequest narrowRequest := by
  have hwide : maxCandidates.written wideRequest = some 4294967297
      ∧ maxCandidates.stored wideRequest = some 1 := by decide +kernel
  have hnarrow : maxCandidates.written narrowRequest = some 1
      ∧ maxCandidates.stored narrowRequest = some 1 := by decide +kernel
  refine ⟨fun h => ?_, fun h => ?_⟩
  · rcases h wideRequest 4294967297 1 hwide.1 hwide.2 with heq | heq
    · exact absurd heq (by decide)
    · exact absurd heq (by decide)
  · exact h 4294967297 1 hwide.1 hnarrow.1 (by decide) (hwide.2.trans hnarrow.2.symm)

end AzooKey.Learning

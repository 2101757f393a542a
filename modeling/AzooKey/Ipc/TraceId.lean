import AzooKey.Lib.BigEndian

/-!
# Trace ids

`ipc/src/TraceId.cpp`: the generator of UUIDs of version 7. An id is the
milliseconds of the clock, twelve bits `random_a` and sixty-two bits
`random_b`, with the version and the variant between them. When the clock has
moved on the random bits are drawn anew; when it stands still or has gone back
they are counted up, with a carry from `random_b` to `random_a` and from there
to the timestamp.

So the three numbers, read as digits of one number, grow with every id, the
bytes of the UUID are that number with constants in between, and hexadecimal
digits keep the order (`generateTraceId_increasing`).
-/

namespace AzooKey.Ipc.TraceId

/-! ## The source -/

/-- `kMaxTimestamp`. -/
def maxTimestamp : ℕ := 2 ^ 48 - 1

/-- `kMaxRandomB`. -/
def maxRandomB : ℕ := 2 ^ 62 - 1

/-- `kMaxRandomA`. -/
def maxRandomA : ℕ := 2 ^ 12 - 1

/-- `TraceIdState`, within its bounds. -/
structure TraceIdState where
  timestampMs : ℕ := 0
  randomA : ℕ := 0
  randomB : ℕ := 0
  initialized : Bool := false
  timestampMs_le : timestampMs ≤ maxTimestamp := by decide
  randomA_le : randomA ≤ maxRandomA := by decide
  randomB_le : randomB ≤ maxRandomB := by decide

/-- What a call throws. -/
inductive TraceIdError
  | randomSourceFailed | timestampExhausted
deriving DecidableEq, Repr

/-- The texts of the exceptions. -/
def TraceIdError.what : TraceIdError → Bytes
  | .randomSourceFailed => utf8 "UUIDv7 random source failed"
  | .timestampExhausted => utf8 "UUIDv7 timestamp exhausted"

/-- The text tells the exceptions apart. -/
theorem TraceIdError.what_injective : Function.Injective TraceIdError.what := by
  intro e e' h
  cases e <;> cases e' <;> first | rfl | exact absurd h (by decide)

/-- What the random source gives when it is asked: ten bytes, or a failure. -/
abbrev Draw := Option (Fin 10 → UInt8)

/-- `SeedRandom`: the call may fail before it writes to the state. -/
def seedRandom (s : TraceIdState) (draw : Draw) : Except TraceIdError Unit × TraceIdState :=
  match draw with
  | none => (.error .randomSourceFailed, s)
  | some bytes =>
    (.ok (), { s with
      randomA := ((bytes 0).toNat <<< 8 ||| (bytes 1).toNat) &&& maxRandomA
      randomB := (((List.finRange 10).drop 2).foldl
        (fun randomB i => (randomB <<< 8 ||| (bytes i).toNat) % 2 ^ 64) 0) &&& maxRandomB
      randomA_le := Nat.and_le_right
      randomB_le := Nat.and_le_right })

/-- `IncrementRandom`. -/
def incrementRandom (s : TraceIdState) : Except TraceIdError Unit × TraceIdState :=
  if hb : s.randomB < maxRandomB then
    (.ok (), { s with randomB := s.randomB + 1, randomB_le := hb })
  else if ha : s.randomA < maxRandomA then
    (.ok (), { s with
      randomB := 0, randomA := s.randomA + 1, randomA_le := ha, randomB_le := Nat.zero_le _ })
  else if ht : s.timestampMs = maxTimestamp then (.error .timestampExhausted, s)
  else
    (.ok (), { s with
      timestampMs := s.timestampMs + 1, randomA := 0, randomB := 0
      timestampMs_le := lt_of_le_of_ne s.timestampMs_le ht
      randomA_le := Nat.zero_le _, randomB_le := Nat.zero_le _ })

/-- The digit of a half byte. -/
def hex (nibble : ℕ) : UInt8 := (utf8 "0123456789abcdef").getD nibble 0

/-- The bytes of a UUID. -/
def uuidBytes (timestampMs randomA randomB : ℕ) : Bytes :=
  (List.range 6).map (fun i => UInt8.ofNat (timestampMs >>> (40 - 8 * i)))
    ++ [UInt8.ofNat (0x70 ||| randomA >>> 8), UInt8.ofNat randomA,
      UInt8.ofNat (0x80 ||| randomB >>> 56)]
    ++ (List.range' 9 7).map (fun i => UInt8.ofNat (randomB >>> (8 * (15 - i))))

/-- What is written of the byte at a place. -/
def byteText (x : UInt8 × ℕ) : Bytes :=
  let hyphen : Bytes := if x.2 = 4 ∨ x.2 = 6 ∨ x.2 = 8 ∨ x.2 = 10 then [0x2d] else []
  hyphen ++ [hex (x.1.toNat >>> 4), hex (x.1.toNat &&& 0x0f)]

/-- `FormatUuid`. -/
def formatUuid (timestampMs randomA randomB : ℕ) : Bytes :=
  (uuidBytes timestampMs randomA randomB).zipIdx.flatMap byteText

/-- `FormatUuid` of the state. -/
def TraceIdState.id (s : TraceIdState) : Bytes := formatUuid s.timestampMs s.randomA s.randomB

/-- The milliseconds of a clock that may be before the epoch. -/
def nowMs (now : ℤ) : ℕ := if 0 < now then now.toNat else 0

/-- **`GenerateTraceId`**, with the clock and the random source as they are
when it is called. -/
def generateTraceId (s : TraceIdState) (now : ℤ) (draw : Draw) :
    Except TraceIdError Bytes × TraceIdState :=
  if hnow : maxTimestamp < nowMs now then (.error .timestampExhausted, s)
  else if !s.initialized || s.timestampMs < nowMs now then
    match seedRandom s draw with
    | (.error e, s) => (.error e, s)
    | (.ok (), s) =>
      let s := { s with
        timestampMs := nowMs now, initialized := true, timestampMs_le := not_lt.mp hnow }
      (.ok s.id, s)
  else
    match incrementRandom s with
    | (.error e, s) => (.error e, s)
    | (.ok (), s) => (.ok s.id, s)

/-- A hexadecimal digit of either case. -/
def isHexDigit (c : UInt8) : Bool :=
  (0x30 ≤ c && c ≤ 0x39) || (0x61 ≤ c && c ≤ 0x66) || (0x41 ≤ c && c ≤ 0x46)

/-- **`IsValidTraceId`.** -/
def isValidTraceId (traceId : Bytes) : Bool :=
  let at' (i : ℕ) : UInt8 := traceId.getD i 0
  if traceId.length ≠ 36 ∨ at' 8 ≠ 0x2d ∨ at' 13 ≠ 0x2d ∨ at' 18 ≠ 0x2d ∨ at' 23 ≠ 0x2d
      ∨ at' 14 ≠ 0x37 then false
  else if at' 19 ≠ 0x38 ∧ at' 19 ≠ 0x39 ∧ at' 19 ≠ 0x61 ∧ at' 19 ≠ 0x41 ∧ at' 19 ≠ 0x62
      ∧ at' 19 ≠ 0x42 then false
  else
    (List.range traceId.length).all
      (fun i => i = 8 || i = 13 || i = 18 || i = 23 || isHexDigit (at' i))

/-- One call: the clock and the random source. -/
structure Call where
  now : ℤ
  draw : Draw

/-- The ids that successive calls return, and the state after them. A call
that throws returns none. -/
def generateAll (s : TraceIdState) : List Call → List Bytes × TraceIdState
  | [] => ([], s)
  | c :: calls =>
    match generateTraceId s c.now c.draw with
    | (.error _, s) => generateAll s calls
    | (.ok id, s) => (id :: (generateAll s calls).1, (generateAll s calls).2)

/-! ## The order of the ids -/

/-- The version is written beside the high bits of `random_a`. -/
theorem version_or {x : ℕ} (h : x < 16) : 0x70 ||| x = 0x70 + x := by
  have hall : ∀ x : Fin 16, 0x70 ||| x.val = 0x70 + x.val := by decide
  exact hall ⟨x, h⟩

/-- The variant is written beside the high bits of `random_b`. -/
theorem variant_or {x : ℕ} (h : x < 64) : 0x80 ||| x = 0x80 + x := by
  have hall : ∀ x : Fin 64, 0x80 ||| x.val = 0x80 + x.val := by decide
  exact hall ⟨x, h⟩

/-- The number that the bytes of a UUID are. -/
def uuidNumber (timestampMs randomA randomB : ℕ) : ℕ :=
  (timestampMs * 2 ^ 16 + (0x7000 + randomA)) * 2 ^ 64 + (2 ^ 63 + randomB)

/-- Bytes are equal that are congruent. -/
theorem ofNat_eq_ofNat {x y : ℕ} (h : x % 256 = y % 256) : UInt8.ofNat x = UInt8.ofNat y := by
  refine UInt8.toNat.inj ?_
  rw [UInt8.toNat_ofNat', UInt8.toNat_ofNat', h]

/-- **The bytes of a UUID are one number**, the highest byte first. -/
theorem uuidBytes_eq {t a b : ℕ} (ha : a ≤ maxRandomA) (hb : b ≤ maxRandomB) :
    uuidBytes t a b = BigEndian.encode 16 (uuidNumber t a b) := by
  unfold maxRandomA at ha
  unfold maxRandomB at hb
  have hversion : 0x70 ||| a >>> 8 = 0x70 + a / 256 := by
    rw [Nat.shiftRight_eq_div_pow]
    exact version_or (by omega)
  have hvariant : 0x80 ||| b >>> 56 = 0x80 + b / 2 ^ 56 := by
    rw [Nat.shiftRight_eq_div_pow]
    exact variant_or (by omega)
  unfold uuidBytes
  rw [hversion, hvariant]
  have hhigh : (List.range 6).map (fun i => UInt8.ofNat (t >>> (40 - 8 * i)))
      = BigEndian.encode 6 t := by
    simp only [BigEndian.encode, List.range, List.range.loop, List.map_cons, List.map_nil,
      Nat.shiftRight_eq_div_pow]
    norm_num
  have hlow : (List.range' 9 7).map (fun i => UInt8.ofNat (b >>> (8 * (15 - i))))
      = BigEndian.encode 7 b := by
    simp only [BigEndian.encode, List.range', List.map_cons, List.map_nil,
      Nat.shiftRight_eq_div_pow]
    norm_num
  -- the two groups and the three bytes between them are parts of the number
  have htop : uuidNumber t a b / 256 ^ 10 = t := by
    unfold uuidNumber
    omega
  have hrest : uuidNumber t a b = b + 256 ^ 7 * (t * 2 ^ 24 + (0x7000 + a) * 2 ^ 8 + 2 ^ 7) := by
    unfold uuidNumber
    omega
  have hmiddle : uuidNumber t a b / 256 ^ 7
      = t * 2 ^ 24 + (0x7000 + a) * 2 ^ 8 + 2 ^ 7 + b / 2 ^ 56 := by
    rw [hrest]
    omega
  have hbytes : [UInt8.ofNat (0x70 + a / 256), UInt8.ofNat a, UInt8.ofNat (0x80 + b / 2 ^ 56)]
      = BigEndian.encode 3 (uuidNumber t a b / 256 ^ 7) := by
    rw [hmiddle]
    simp only [BigEndian.encode]
    refine congrArg₂ List.cons (ofNat_eq_ofNat (by omega)) (congrArg₂ List.cons
      (ofNat_eq_ofNat (by omega)) (congrArg₂ List.cons (ofNat_eq_ofNat (by omega)) rfl))
  have hend : BigEndian.encode 7 (uuidNumber t a b) = BigEndian.encode 7 b := by
    rw [hrest, BigEndian.encode_add_mul]
  rw [BigEndian.encode_add 6 10, BigEndian.encode_add 3 7, htop, hend, ← hbytes, ← hhigh, ← hlow,
    List.append_assoc]

/-- The three numbers of a state as one. -/
def TraceIdState.rank (s : TraceIdState) : ℕ :=
  (s.timestampMs * 2 ^ 12 + s.randomA) * 2 ^ 62 + s.randomB

/-- Numbers of two digits, of which the lower ones fit, are ordered by the
higher ones first. -/
theorem digits_lt_iff {width high high' low low' : ℕ} (hlow : low < width) (hlow' : low' < width) :
    high * width + low < high' * width + low' ↔ high < high' ∨ high = high' ∧ low < low' := by
  rcases Nat.lt_trichotomy high high' with hlt | rfl | hgt
  · have hmul : (high + 1) * width ≤ high' * width := Nat.mul_le_mul_right _ hlt
    rw [Nat.add_mul, Nat.one_mul] at hmul
    exact iff_of_true (by omega) (Or.inl hlt)
  · omega
  · have hmul : (high' + 1) * width ≤ high * width := Nat.mul_le_mul_right _ hgt
    rw [Nat.add_mul, Nat.one_mul] at hmul
    exact iff_of_false (by omega) (by omega)

/-- The random bits of a state fit. -/
theorem TraceIdState.random_lt (s : TraceIdState) : s.randomA < 2 ^ 12 ∧ s.randomB < 2 ^ 62 :=
  ⟨Nat.lt_succ_of_le s.randomA_le, Nat.lt_succ_of_le s.randomB_le⟩

/-- A state with a later timestamp is further on. -/
theorem TraceIdState.rank_lt_rank {s s' : TraceIdState} (h : s.timestampMs < s'.timestampMs) :
    s.rank < s'.rank := by
  obtain ⟨ha, hb⟩ := s.random_lt
  obtain ⟨ha', hb'⟩ := s'.random_lt
  unfold TraceIdState.rank
  rw [digits_lt_iff hb hb', digits_lt_iff ha ha']
  exact Or.inl (Or.inl h)

/-- The constants in between keep the order. -/
theorem uuidNumber_lt {s s' : TraceIdState} (h : s.rank < s'.rank) :
    uuidNumber s.timestampMs s.randomA s.randomB
      < uuidNumber s'.timestampMs s'.randomA s'.randomB := by
  obtain ⟨ha, hb⟩ := s.random_lt
  obtain ⟨ha', hb'⟩ := s'.random_lt
  unfold TraceIdState.rank at h
  unfold uuidNumber
  rw [digits_lt_iff hb hb', digits_lt_iff ha ha'] at h
  rw [digits_lt_iff (by omega) (by omega), digits_lt_iff (by omega) (by omega)]
  omega

/-- The number fits into the bytes. -/
theorem uuidNumber_mod (s : TraceIdState) :
    uuidNumber s.timestampMs s.randomA s.randomB % 256 ^ 16
      = uuidNumber s.timestampMs s.randomA s.randomB := by
  have ht := s.timestampMs_le
  have ha := s.randomA_le
  have hb := s.randomB_le
  unfold maxTimestamp at ht
  unfold maxRandomA at ha
  unfold maxRandomB at hb
  have hlt : uuidNumber s.timestampMs s.randomA s.randomB < 2 ^ 128 := by
    unfold uuidNumber
    omega
  have hpow : (256 : ℕ) ^ 16 = 2 ^ 128 := by norm_num
  rw [hpow]
  exact Nat.mod_eq_of_lt hlt

/-- Hexadecimal digits are in the order of their values. -/
theorem hex_lt_hex {x y : ℕ} (h : x < y) (hy : y < 16) : hex x < hex y := by
  have hall : ∀ x y : Fin 16, x < y → hex x.val < hex y.val := by decide
  exact hall ⟨x, h.trans hy⟩ ⟨y, hy⟩ h

/-- A smaller byte is written smaller, at the same place. -/
theorem byteText_lt {a b : UInt8} (k : ℕ) (h : a < b) : byteText (a, k) < byteText (b, k) := by
  have hlt := UInt8.lt_iff_toNat_lt.mp h
  have hb := b.toNat_lt
  unfold byteText
  dsimp only
  refine List.append_left_lt ?_
  rw [List.cons_lt_cons_iff, List.cons_lt_cons_iff, Nat.shiftRight_eq_div_pow,
    Nat.shiftRight_eq_div_pow]
  have hmask : ∀ x : ℕ, x &&& 0x0f = x % 16 := fun x => Nat.and_two_pow_sub_one_eq_mod x 4
  rw [hmask, hmask]
  by_cases hhigh : a.toNat / 2 ^ 4 = b.toNat / 2 ^ 4
  · rw [hhigh]
    exact Or.inr ⟨rfl, Or.inl (hex_lt_hex (by omega) (by omega))⟩
  · exact Or.inl (hex_lt_hex (by omega) (by omega))

/-- As much is written of every byte at a place. -/
theorem length_byteText (a b : UInt8) (k : ℕ) :
    (byteText (a, k)).length = (byteText (b, k)).length := by
  unfold byteText
  rw [List.length_append, List.length_append]
  rfl

/-- **A state that is further on has the greater id.** -/
theorem TraceIdState.id_lt_id {s s' : TraceIdState} (h : s.rank < s'.rank) : s.id < s'.id := by
  unfold TraceIdState.id formatUuid
  rw [uuidBytes_eq s.randomA_le s.randomB_le, uuidBytes_eq s'.randomA_le s'.randomB_le]
  refine BigEndian.flatMap_lt_flatMap length_byteText (fun a b k h => byteText_lt k h)
    (BigEndian.encode_lt_encode ?_) ?_ 0
  · rw [uuidNumber_mod, uuidNumber_mod]
    exact uuidNumber_lt h
  · rw [BigEndian.length_encode, BigEndian.length_encode]

/-! ## The form of an id -/

/-- Every digit that is written is one. -/
theorem isHexDigit_hex {x : ℕ} (h : x < 16) : isHexDigit (hex x) = true := by
  have hall : ∀ x : Fin 16, isHexDigit (hex x.val) = true := by decide
  exact hall ⟨x, h⟩

/-- The first digit of a byte is one. -/
theorem isHexDigit_high (b : UInt8) : isHexDigit (hex (b.toNat >>> 4)) = true := by
  have hb := b.toNat_lt
  rw [Nat.shiftRight_eq_div_pow]
  exact isHexDigit_hex (by omega)

/-- The second digit of a byte is one. -/
theorem isHexDigit_low (b : UInt8) : isHexDigit (hex (b.toNat &&& 0x0f)) = true :=
  isHexDigit_hex (lt_of_le_of_lt Nat.and_le_right (by norm_num))

/-- The digit of the version. -/
theorem hex_version {a : ℕ} (h : a ≤ maxRandomA) :
    hex ((UInt8.ofNat (0x70 ||| a >>> 8)).toNat >>> 4) = 0x37 := by
  have hall : ∀ x : Fin 16, hex ((UInt8.ofNat (0x70 ||| x.val)).toNat >>> 4) = 0x37 := by
    decide
  unfold maxRandomA at h
  have hshift : a >>> 8 < 16 := by
    rw [Nat.shiftRight_eq_div_pow]
    omega
  exact hall ⟨a >>> 8, hshift⟩

/-- The digit of the variant. -/
theorem hex_variant {b : ℕ} (h : b ≤ maxRandomB) :
    hex ((UInt8.ofNat (0x80 ||| b >>> 56)).toNat >>> 4) 
      ∈ ([0x38, 0x39, 0x61, 0x62] : Bytes) := by
  have hall : ∀ x : Fin 64, hex ((UInt8.ofNat (0x80 ||| x.val)).toNat >>> 4)
      ∈ ([0x38, 0x39, 0x61, 0x62] : Bytes) := by
    decide
  unfold maxRandomB at h
  have hshift : b >>> 56 < 64 := by
    rw [Nat.shiftRight_eq_div_pow]
    omega
  exact hall ⟨b >>> 56, hshift⟩

/-- Sixteen bytes are written as a valid id, if the two of them say so. -/
theorem isValidTraceId_bytes (b₀ b₁ b₂ b₃ b₄ b₅ version b₇ variant b₉ b₁₀ b₁₁ b₁₂ b₁₃ b₁₄ b₁₅ : UInt8)
    (hversion : hex (version.toNat >>> 4) = 0x37)
    (hvariant : hex (variant.toNat >>> 4) ∈ ([0x38, 0x39, 0x61, 0x62] : Bytes)) :
    isValidTraceId ([b₀, b₁, b₂, b₃, b₄, b₅, version, b₇, variant, b₉, b₁₀, b₁₁, b₁₂, b₁₃, b₁₄,
      b₁₅].zipIdx.flatMap byteText) = true := by
  simp only [List.mem_cons, List.not_mem_nil, or_false] at hvariant
  simp only [List.zipIdx_cons, List.zipIdx_nil, List.flatMap_cons, List.flatMap_nil, byteText]
  unfold isValidTraceId
  dsimp only
  rw [if_neg (by simp [hversion]), if_neg (by simp; tauto)]
  simp [List.range, List.range.loop, isHexDigit_high, isHexDigit_low]

/-- **Every id is valid.** -/
theorem isValidTraceId_id (s : TraceIdState) : isValidTraceId s.id = true :=
  isValidTraceId_bytes _ _ _ _ _ _ _ _ _ _ _ _ _ _ _ _ (hex_version s.randomA_le)
    (hex_variant s.randomB_le)

/-! ## Successive calls -/

/-- Counting up is one step, or fails and changes nothing. -/
theorem incrementRandom_spec (s : TraceIdState) :
    ((incrementRandom s).1 = .ok () ∧ (incrementRandom s).2.rank = s.rank + 1
        ∧ (incrementRandom s).2.initialized = s.initialized)
      ∨ (∃ e, (incrementRandom s).1 = .error e) ∧ (incrementRandom s).2 = s := by
  have ha := s.randomA_le
  have hb := s.randomB_le
  unfold incrementRandom TraceIdState.rank
  split
  · exact Or.inl ⟨rfl, by dsimp only; omega, rfl⟩
  · split
    · refine Or.inl ⟨rfl, ?_, rfl⟩
      unfold maxRandomB at *
      dsimp only
      omega
    · split
      · exact Or.inr ⟨⟨_, rfl⟩, rfl⟩
      · refine Or.inl ⟨rfl, ?_, rfl⟩
        unfold maxRandomA maxRandomB at *
        dsimp only
        omega

/-- **One call**: it returns the id of the state that it leaves, which is
further on than the state before, or it throws and changes nothing. -/
theorem generateTraceId_spec (s : TraceIdState) (now : ℤ) (draw : Draw) :
    ((generateTraceId s now draw).1 = .ok (generateTraceId s now draw).2.id
        ∧ (generateTraceId s now draw).2.initialized = true
        ∧ (s.initialized = true → s.rank < (generateTraceId s now draw).2.rank))
      ∨ (∃ e, (generateTraceId s now draw).1 = .error e) ∧ (generateTraceId s now draw).2 = s := by
  unfold generateTraceId
  split
  · exact Or.inr ⟨⟨_, rfl⟩, rfl⟩
  by_cases hseed : (!s.initialized || decide (s.timestampMs < nowMs now)) = true
  · rw [if_pos hseed]
    cases draw with
    | none => exact Or.inr ⟨⟨_, rfl⟩, rfl⟩
    | some bytes =>
      refine Or.inl ⟨rfl, rfl, fun hinit => ?_⟩
      -- the clock has moved on, so the random bits do not matter
      have hlt : s.timestampMs < nowMs now := by simpa [hinit] using hseed
      exact TraceIdState.rank_lt_rank hlt
  · rw [if_neg hseed]
    have hinit : s.initialized = true := by
      by_contra h
      simp [h] at hseed
    rcases incrementRandom_spec s with ⟨hok, hrank, hkeep⟩ | ⟨⟨e, herror⟩, hsame⟩
    · generalize incrementRandom s = r at hok hrank hkeep
      obtain ⟨result, s'⟩ := r
      cases hok
      refine Or.inl ⟨rfl, hkeep.trans hinit, fun _ => ?_⟩
      show s.rank < s'.rank
      rw [hrank]
      exact Nat.lt_succ_self _
    · generalize incrementRandom s = r at herror hsame
      obtain ⟨result, s'⟩ := r
      cases herror
      exact Or.inr ⟨⟨e, rfl⟩, hsame⟩

/-- **A run**: the ids increase, are greater than that of the state from which
it starts, and are valid. -/
theorem generateAll_spec (calls : List Call) (s : TraceIdState) :
    (generateAll s calls).1.Pairwise (· < ·)
      ∧ (∀ id ∈ (generateAll s calls).1, isValidTraceId id = true)
      ∧ (s.initialized = true → ∀ id ∈ (generateAll s calls).1, s.id < id) := by
  induction calls generalizing s with
  | nil => exact ⟨.nil, fun _ h => absurd h List.not_mem_nil, fun _ _ h => absurd h List.not_mem_nil⟩
  | cons c calls ih =>
    have hstep := generateTraceId_spec s c.now c.draw
    rw [generateAll]
    generalize generateTraceId s c.now c.draw = r at hstep
    obtain ⟨result, s'⟩ := r
    rcases hstep with ⟨hok, hinit, hrank⟩ | ⟨⟨e, herror⟩, hsame⟩
    · obtain rfl : result = .ok s'.id := hok
      obtain ⟨hpairwise, hvalid, hgreater⟩ := ih s'
      refine ⟨List.pairwise_cons.mpr ⟨hgreater hinit, hpairwise⟩,
        List.forall_mem_cons.mpr ⟨isValidTraceId_id s', hvalid⟩, fun h => ?_⟩
      have hlt := TraceIdState.id_lt_id (hrank h)
      exact List.forall_mem_cons.mpr ⟨hlt, fun id hid => hlt.trans (hgreater hinit id hid)⟩
    · obtain rfl : result = .error e := herror
      obtain rfl : s' = s := hsame
      exact ih s'

/-- **The ids of a generator strictly increase**, whatever the clock does and
the random source gives: the ids of successive calls are in the order of
strings, each is valid, and a call that throws leaves the state as it was. -/
theorem generateTraceId_increasing (calls : List Call) :
    (generateAll {} calls).1.Pairwise (· < ·)
      ∧ (∀ id ∈ (generateAll {} calls).1, isValidTraceId id = true)
      ∧ ∀ (s : TraceIdState) (c : Call) (e : TraceIdError),
        (generateTraceId s c.now c.draw).1 = .error e → (generateTraceId s c.now c.draw).2 = s := by
  refine ⟨(generateAll_spec calls {}).1, (generateAll_spec calls {}).2.1, fun s c e herror => ?_⟩
  rcases generateTraceId_spec s c.now c.draw with ⟨hok, -, -⟩ | ⟨-, hsame⟩
  · rw [hok] at herror
    cases herror
  · exact hsame

end AzooKey.Ipc.TraceId

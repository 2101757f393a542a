import AzooKey.Ipc.Payloads

/-!
# The other payloads with integers of 32 bits

`ipc/src/Payloads.cpp`: the readers of the answer to a handshake, of the state of the host, of a
request to load a model, of a word to be registered and of a word that was found. Each takes an
integer with 64 bits and stores it in a type of 32 without a comparison. The answer to a handshake
holds three more integers, which are compared with their bounds first: two are moved to the nearest
bound, and the number of candidates keeps its default.
-/

namespace AzooKey.Ipc

open Json

/-! ## The answer to a handshake -/

/-- `HandshakeResponse`. -/
structure HandshakeResponse where
  hostVersion : Bytes
  protocolVersion : ℤ := handshakeProtocolVersion
  accepted : Bool := false
  modelLoaded : Bool := false
  hostGenerationId : Bytes := []
  capabilities : List Bytes := []
  batchRomajiConversion : Bool := false
  batchRomajiPreviewStyle : Bytes := utf8 "kana"
  batchConversionMode : Bytes := utf8 "neural"
  batchAutoPunctuation : Bool := false
  numberRewriter : Bool := false
  katakanaRewriter : Bool := false
  maxCandidates : UInt32 := 9
  symbolRewriter : Bool := false
  emojiRewriter : Bool := false
  emojiTriggerSearch : Bool := true
  emojiMaxCandidates : UInt32 := 12
  emojiTriggerMinQueryLength : UInt32 := 1

/-- `std::clamp`. -/
def clamp (n low high : ℤ) : ℤ := if n < low then low else if high < n then high else n

/-- `ParseHandshakeResponse`. -/
def parseHandshakeResponse (json : Bytes) : Option HandshakeResponse := do
  let v ← parseObject json
  let host ← v.getString (utf8 "host_version")
  let version := (v.getInt (utf8 "protocol_version")).getD handshakeProtocolVersion
  let emojis := (v.getInt (utf8 "emoji_max_candidates")).getD 12
  let queryLength := (v.getInt (utf8 "emoji_trigger_min_query_length")).getD 1
  let maxCandidates := (v.getUInt (utf8 "max_candidates")).filter (fun n => 1 ≤ n && n ≤ 32)
  some {
    hostVersion := host
    protocolVersion := castInt version
    accepted := (v.getBool (utf8 "accepted")).getD false
    modelLoaded := (v.getBool (utf8 "model_loaded")).getD false
    hostGenerationId := (v.getString (utf8 "host_generation_id")).getD []
    capabilities := ((v.getArray (utf8 "capabilities")).getD []).filterMap Value.string?
    batchRomajiConversion := (v.getBool (utf8 "batch_romaji_conversion")).getD false
    batchRomajiPreviewStyle :=
      (v.getString (utf8 "batch_romaji_preview_style")).getD (utf8 "kana")
    batchConversionMode := (v.getString (utf8 "batch_conversion_mode")).getD (utf8 "neural")
    batchAutoPunctuation := (v.getBool (utf8 "batch_auto_punctuation")).getD false
    numberRewriter := (v.getBool (utf8 "number_rewriter")).getD false
    katakanaRewriter := (v.getBool (utf8 "katakana_rewriter")).getD false
    maxCandidates := (maxCandidates.map UInt32.ofNat).getD 9
    symbolRewriter := (v.getBool (utf8 "symbol_rewriter")).getD false
    emojiRewriter := (v.getBool (utf8 "emoji_rewriter")).getD false
    emojiTriggerSearch := (v.getBool (utf8 "emoji_trigger_search")).getD true
    emojiMaxCandidates := UInt32.ofNat (clamp emojis 1 50).toNat
    emojiTriggerMinQueryLength := UInt32.ofNat (clamp queryLength 1 8).toNat }

/-! ## The host and its model -/

/-- `HealthPayload`. -/
structure HealthPayload where
  status : Bytes
  backend : Bytes
  modelLoaded : Bool := false
  vramMb : Option UInt32 := none
  lastError : Option Bytes := none

/-- `ParseHealth`. -/
def parseHealth (json : Bytes) : Option HealthPayload := do
  let v ← parseObject json
  let status ← v.getString (utf8 "status")
  let backend ← v.getString (utf8 "backend")
  some {
    status := status
    backend := backend
    modelLoaded := (v.getBool (utf8 "model_loaded")).getD false
    vramMb := (v.getUInt (utf8 "vram_mb")).map UInt32.ofNat
    lastError := v.getString (utf8 "last_error") }

/-- `LoadModelRequest`. -/
structure LoadModelRequest where
  path : Bytes
  backend : Bytes
  nGpuLayers : Option Int32 := none

/-- `ParseLoadModelRequest`. -/
def parseLoadModelRequest (json : Bytes) : Option LoadModelRequest := do
  let v ← parseObject json
  let path ← v.getString (utf8 "path")
  let backend ← v.getString (utf8 "backend")
  some {
    path := path
    backend := backend
    nGpuLayers := (v.getInt (utf8 "n_gpu_layers")).map Int32.ofInt }

/-! ## Words -/

/-- `AddUserWordRequest`. -/
structure AddUserWordRequest where
  word : Bytes
  ruby : Bytes
  cid : Option Int32 := none
  mid : Option Int32 := none
  value : Option Double := none

/-- `ParseAddUserWordRequest`. -/
def parseAddUserWordRequest (json : Bytes) : Option AddUserWordRequest := do
  let v ← parseObject json
  let word ← v.getString (utf8 "word")
  let ruby ← v.getString (utf8 "ruby")
  some {
    word := word
    ruby := ruby
    cid := (v.getInt (utf8 "cid")).map Int32.ofInt
    mid := (v.getInt (utf8 "mid")).map Int32.ofInt
    value := v.getNumber (utf8 "value") }

/-- `NewWordField`. -/
structure NewWordField where
  surface : Bytes
  reading : Bytes
  source : Bytes := []
  state : Bytes := []
  count : UInt32 := 0
  lastSeenEpoch : UInt64 := 0

/-- `NewWordFromJson`. -/
def newWordFromJson (v : Value) : Option NewWordField :=
  if !v.isObject then none
  else
    match v.getString (utf8 "surface"), v.getString (utf8 "reading") with
    | some surface, some reading =>
      some {
        surface := surface
        reading := reading
        source := (v.getString (utf8 "source")).getD []
        state := (v.getString (utf8 "state")).getD []
        count := UInt32.ofNat ((v.getUInt (utf8 "count")).getD 0)
        lastSeenEpoch := UInt64.ofNat ((v.getUInt (utf8 "last_seen_epoch")).getD 0) }
    | _, _ => none

/-! ## What is compared with its bounds first -/

/-- What is clamped lies between the bounds. -/
theorem clamp_spec {n low high : ℤ} (h : low ≤ high) :
    low ≤ clamp n low high ∧ clamp n low high ≤ high := by
  unfold clamp
  split
  · exact ⟨le_refl _, h⟩
  · split
    · exact ⟨h, le_refl _⟩
    · exact ⟨by omega, by omega⟩

/-- What is clamped between bounds that fit into 32 bits is stored as it is. -/
theorem toNat_clamp {n low high : ℤ} (hlow : 0 ≤ low) (h : low ≤ high) (hhigh : high < 2 ^ 32) :
    ((UInt32.ofNat (clamp n low high).toNat).toNat : ℤ) = clamp n low high := by
  obtain ⟨hge, hle⟩ := clamp_spec (n := n) h
  have hlt : (clamp n low high).toNat < 2 ^ 32 := by omega
  rw [UInt32.toNat_ofNat', Nat.mod_eq_of_lt hlt]
  exact Int.toNat_of_nonneg (by omega)

/-- So is a number that is clamped from below by one. -/
theorem clamp_one_spec (n : ℤ) {high : ℕ} (h : 1 ≤ high) (hhigh : high < 2 ^ 32) :
    1 ≤ (UInt32.ofNat (clamp n 1 high).toNat).toNat
      ∧ (UInt32.ofNat (clamp n 1 high).toNat).toNat ≤ high := by
  have hle : (1 : ℤ) ≤ high := by exact_mod_cast h
  have hvalue := toNat_clamp (n := n) (by decide : (0 : ℤ) ≤ 1) hle (by exact_mod_cast hhigh)
  obtain ⟨hge, hbound⟩ := clamp_spec (n := n) hle
  omega

/-- A number of candidates is taken from the text when it is from one to 32. -/
theorem candidates_spec {read : Option ℕ} {stored : UInt32}
    (h : ((read.filter fun n => 1 ≤ n && n ≤ 32).map UInt32.ofNat).getD 9 = stored) :
    (1 ≤ stored.toNat ∧ stored.toNat ≤ 32) ∧ (stored = 9 ∨ read = some stored.toNat) := by
  subst h
  cases hcount : read.filter fun n => 1 ≤ n && n ≤ 32 with
  | none => exact ⟨⟨by decide, by decide⟩, .inl rfl⟩
  | some count =>
    obtain ⟨hread, hrange⟩ := Option.filter_eq_some_iff.mp hcount
    simp only [Bool.and_eq_true, decide_eq_true_eq] at hrange
    have hvalue : (UInt32.ofNat count).toNat = count := by
      rw [UInt32.toNat_ofNat', Nat.mod_eq_of_lt (by omega)]
    rw [Option.map_some, Option.getD_some, hvalue]
    exact ⟨hrange, .inr hread⟩

/-- **The settings of an answer lie within their bounds**, and a number of candidates is that of the
text or the default. -/
theorem HandshakeResponse.bounds {json : Bytes} {p : HandshakeResponse}
    (h : parseHandshakeResponse json = some p) :
    (1 ≤ p.maxCandidates.toNat ∧ p.maxCandidates.toNat ≤ 32)
      ∧ (1 ≤ p.emojiMaxCandidates.toNat ∧ p.emojiMaxCandidates.toNat ≤ 50)
      ∧ (1 ≤ p.emojiTriggerMinQueryLength.toNat ∧ p.emojiTriggerMinQueryLength.toNat ≤ 8)
      ∧ (p.maxCandidates = 9 ∨ ∃ v, parseObject json = some v
          ∧ v.getUInt (utf8 "max_candidates") = some p.maxCandidates.toNat) := by
  unfold parseHandshakeResponse at h
  obtain ⟨v, hv, h⟩ := Option.bind_eq_some_iff.mp h
  obtain ⟨host, -, h⟩ := Option.bind_eq_some_iff.mp h
  rw [← Option.some.inj h]
  obtain ⟨hrange, hread⟩ := @candidates_spec (v.getUInt (utf8 "max_candidates")) _ rfl
  refine ⟨hrange, clamp_one_spec _ (by decide) (by decide),
    clamp_one_spec _ (by decide) (by decide), ?_⟩
  exact hread.imp_right fun hread => ⟨v, hv, hread⟩

end AzooKey.Ipc

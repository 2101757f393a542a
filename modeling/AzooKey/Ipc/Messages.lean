import AzooKey.Ipc.JsonPrint

/-!
# Envelopes

`ipc/src/Messages.cpp`. An envelope is sent as the text of a JSON object
whose first member is the payload, spliced in as it was given, and read back
by the JSON reader, which captures the spelling of that member.

`Serialize` checks that the payload is a JSON text, but it checks it alone:
inside the envelope the payload stands one level deeper, so that a payload
that uses all of `kMaxJsonNestDepth` is sent and cannot be read.
`deserialize_serialize_iff` says that this is the only loss: within the
frame limit an envelope comes back unchanged, up to the whitespace around its
payload, if and only if its payload leaves one level of nesting.
-/

namespace AzooKey.Ipc

open Json

/-- `MessageType`. -/
inductive MessageType
  | handshake | loadModel | queryCandidates | queryLiveConversion | queryBatchConversion
  | queryPredictions | queryCorrections | cancel | commitObservation | commitCorrection
  | addUserWord | updateUserWord | removeUserWord | updateConfig | ping | health
  | queryDiagnostics | commitSegmentsObservation | observeTypo | listNewWordCandidates
  | resolveNewWord | reverseConvert | listModels | benchmarkModel | listLearningEntries
  | forgetLearningEntry | exportLearningData | importLearningData | resetLearningStore
  | queryPersona | detectAnomalies | fetchCatalogModel | queryCatalogFetch | cancelCatalogFetch
  | unknown
deriving DecidableEq, Repr

/-- `TypeToString`. -/
def typeToString : MessageType → Bytes
  | .handshake => utf8 "Handshake"
  | .loadModel => utf8 "LoadModel"
  | .queryCandidates => utf8 "QueryCandidates"
  | .queryLiveConversion => utf8 "QueryLiveConversion"
  | .queryBatchConversion => utf8 "QueryBatchConversion"
  | .queryPredictions => utf8 "QueryPredictions"
  | .queryCorrections => utf8 "QueryCorrections"
  | .cancel => utf8 "Cancel"
  | .commitObservation => utf8 "CommitObservation"
  | .commitSegmentsObservation => utf8 "CommitSegmentsObservation"
  | .commitCorrection => utf8 "CommitCorrection"
  | .addUserWord => utf8 "AddUserWord"
  | .updateUserWord => utf8 "UpdateUserWord"
  | .removeUserWord => utf8 "RemoveUserWord"
  | .updateConfig => utf8 "UpdateConfig"
  | .ping => utf8 "Ping"
  | .health => utf8 "Health"
  | .queryDiagnostics => utf8 "QueryDiagnostics"
  | .observeTypo => utf8 "ObserveTypo"
  | .listNewWordCandidates => utf8 "ListNewWordCandidates"
  | .resolveNewWord => utf8 "ResolveNewWord"
  | .reverseConvert => utf8 "ReverseConvert"
  | .listModels => utf8 "ListModels"
  | .benchmarkModel => utf8 "BenchmarkModel"
  | .listLearningEntries => utf8 "ListLearningEntries"
  | .forgetLearningEntry => utf8 "ForgetLearningEntry"
  | .exportLearningData => utf8 "ExportLearningData"
  | .importLearningData => utf8 "ImportLearningData"
  | .resetLearningStore => utf8 "ResetLearningStore"
  | .queryPersona => utf8 "QueryPersona"
  | .detectAnomalies => utf8 "DetectAnomalies"
  | .fetchCatalogModel => utf8 "FetchCatalogModel"
  | .queryCatalogFetch => utf8 "QueryCatalogFetch"
  | .cancelCatalogFetch => utf8 "CancelCatalogFetch"
  | .unknown => utf8 "Unknown"

/-- The names that `TypeFromString` compares with, in its order. -/
def typeNames : List (Bytes × MessageType) :=
  [(utf8 "Handshake", .handshake), (utf8 "LoadModel", .loadModel),
    (utf8 "QueryCandidates", .queryCandidates),
    (utf8 "QueryLiveConversion", .queryLiveConversion),
    (utf8 "QueryBatchConversion", .queryBatchConversion),
    (utf8 "QueryPredictions", .queryPredictions), (utf8 "QueryCorrections", .queryCorrections),
    (utf8 "Cancel", .cancel), (utf8 "CommitObservation", .commitObservation),
    (utf8 "CommitSegmentsObservation", .commitSegmentsObservation),
    (utf8 "CommitCorrection", .commitCorrection), (utf8 "AddUserWord", .addUserWord),
    (utf8 "UpdateUserWord", .updateUserWord), (utf8 "RemoveUserWord", .removeUserWord),
    (utf8 "UpdateConfig", .updateConfig), (utf8 "Ping", .ping), (utf8 "Health", .health),
    (utf8 "QueryDiagnostics", .queryDiagnostics), (utf8 "ObserveTypo", .observeTypo),
    (utf8 "ListNewWordCandidates", .listNewWordCandidates),
    (utf8 "ResolveNewWord", .resolveNewWord), (utf8 "ReverseConvert", .reverseConvert),
    (utf8 "ListModels", .listModels), (utf8 "BenchmarkModel", .benchmarkModel),
    (utf8 "ListLearningEntries", .listLearningEntries),
    (utf8 "ForgetLearningEntry", .forgetLearningEntry),
    (utf8 "ExportLearningData", .exportLearningData),
    (utf8 "ImportLearningData", .importLearningData),
    (utf8 "ResetLearningStore", .resetLearningStore), (utf8 "QueryPersona", .queryPersona),
    (utf8 "DetectAnomalies", .detectAnomalies), (utf8 "FetchCatalogModel", .fetchCatalogModel),
    (utf8 "QueryCatalogFetch", .queryCatalogFetch),
    (utf8 "CancelCatalogFetch", .cancelCatalogFetch)]

/-- `TypeFromString`. -/
def typeFromString (value : Bytes) : MessageType :=
  ((typeNames.find? (fun n => n.1 = value)).map Prod.snd).getD .unknown

/-- `kEnvelopeVersion`. -/
def envelopeVersion : ℤ := 1

/-- `kMaxFrameSize`. -/
def maxFrameSize : ℕ := maxJsonInputBytes

/-- `Envelope`. -/
structure Envelope where
  version : ℤ := envelopeVersion
  requestId : UInt64 := 0
  traceId : Bytes := []
  type : MessageType := .unknown
  payloadJson : Bytes := []
deriving DecidableEq

/-- The payload as it is sent. -/
def payloadText (env : Envelope) : Bytes :=
  if env.payloadJson.isEmpty then utf8 "\x7b\x7d" else env.payloadJson

/-- What `Serialize` writes after the payload. -/
def serializeTail (env : Envelope) : Bytes :=
  utf8 ",\"request_id\":" ++ (formatInteger env.requestId.toNat
    ++ (utf8 ",\"trace_id\":\"" ++ (escapeString env.traceId
    ++ (utf8 "\",\"type\":\"" ++ (typeToString env.type
    ++ (utf8 "\",\"version\":" ++ (formatInteger env.version ++ utf8 "\x7d")))))))

/-- **`Serialize`.** -/
def serialize (env : Envelope) : Option Bytes :=
  if !env.payloadJson.isEmpty && (parse env.payloadJson).isNone then none
  else some (utf8 "\x7b\"payload\":" ++ (payloadText env ++ serializeTail env))

/-- `static_cast<int>` of a 64-bit integer. -/
def castInt (n : ℤ) : ℤ := n.bmod (2 ^ 32)

/-- **`Deserialize`.** -/
def deserialize (text : Bytes) : Option Envelope :=
  match parseWithRawMember text (utf8 "payload") with
  | none => none
  | some (v, raw) =>
    if !v.isObject then none
    else
      let version := ((v.getInt (utf8 "version")).map castInt).getD envelopeVersion
      if version < 1 ∨ envelopeVersion < version then none
      else
        match v.getUInt (utf8 "request_id"), v.getString (utf8 "type"),
          v.getString (utf8 "trace_id") with
        | some requestId, some type, some traceId =>
          some ⟨version, UInt64.ofNat requestId, traceId, typeFromString type,
            if raw.isEmpty then utf8 "\x7b\x7d" else raw⟩
        | _, _, _ => none

/-- **`EncodeLengthPrefixed`.** -/
def encodeLengthPrefixed (text : Bytes) : Option Bytes :=
  if maxFrameSize < text.length then none
  else
    some ((List.range 4).map (fun i => UInt8.ofNat (text.length >>> (8 * i))) ++ text)

/-! ## The text of an envelope -/

/-- A byte that needs no escape. -/
def isPlain (c : UInt8) : Bool := 0x20 ≤ c && c < 0x80 && c != 0x22 && c != 0x5c

/-- A text that needs no escape denotes itself. -/
theorem stringText_of_isPlain {text : Bytes} (h : text.all isPlain = true) :
    StringText text text := by
  induction text with
  | nil => exact .nil
  | cons c text ih =>
    rw [List.all_cons, Bool.and_eq_true] at h
    have hc := h.1
    simp only [isPlain, Bool.and_eq_true, decide_eq_true_eq, bne_iff_ne, ne_eq] at hc
    have hunit : UnitText [c] [c] :=
      .raw (by simpa [isScalar] using hc.1.1.2) hc.1.1.1 hc.1.2 hc.2
    exact .cons hunit (ih h.2)

/-- The text of a member whose key needs no escape. -/
def memberBytes (key value : Bytes) : Bytes := 0x22 :: (key ++ 0x22 :: 0x3a :: value)

/-- It is the text of a member. -/
theorem memberText_memberBytes {Item : Bytes → Value → Prop} (key : Bytes) {space raw : Bytes}
    {v : Value} (hkey : key.all isPlain = true) (hspace : Space space) (hitem : Item raw v) :
    MemberText Item (memberBytes key (space ++ raw)) ⟨key, raw, v⟩ :=
  ⟨key, [], space, stringText_of_isPlain hkey, by simp [Space], hspace, hitem, rfl⟩

/-- The names of the message types need no escape. -/
theorem isPlain_typeToString (t : MessageType) : (typeToString t).all isPlain = true := by
  cases t <;> decide

/-- **Every message type is read back from its name.** -/
theorem typeFromString_typeToString (t : MessageType) : typeFromString (typeToString t) = t := by
  cases t <;> decide

/-- The members that follow the payload. -/
def tailMembers (env : Envelope) (id version : Binary64) : List Member :=
  [⟨utf8 "request_id", formatInteger env.requestId.toNat,
      .number ⟨.finite id, formatInteger env.requestId.toNat⟩⟩,
    ⟨utf8 "trace_id", 0x22 :: (escapeString env.traceId ++ [0x22]), .string env.traceId⟩,
    ⟨utf8 "type", 0x22 :: (typeToString env.type ++ [0x22]), .string (typeToString env.type)⟩,
    ⟨utf8 "version", formatInteger env.version,
      .number ⟨.finite version, formatInteger env.version⟩⟩]

/-- **What follows the payload is four members.** -/
theorem exists_tailMembers {env : Envelope} (hversion : env.version = envelopeVersion)
    (htrace : ValidUtf8 env.traceId) (room : ℕ) :
    ∃ id version body, serializeTail env = 0x2c :: (body ++ [0x7d])
      ∧ ItemsText (MemberText (Spells room)) body (tailMembers env id version) := by
  have hnil : Space [] := by simp [Space]
  obtain ⟨id, hid⟩ := exists_parseFiniteDouble_formatInteger (n := env.requestId.toNat) (by
    have := env.requestId.toNat_lt
    simp only [Int.natAbs_natCast]
    omega)
  obtain ⟨version, hver⟩ := exists_parseFiniteDouble_formatInteger (n := env.version) (by
    rw [hversion]; decide)
  have hnumber : ∀ {n : ℤ} {value : Binary64}, parseFiniteDouble (formatInteger n) = some value →
      Spells room (formatInteger n) (.number ⟨.finite value, formatInteger n⟩) := by
    intro n value h
    rw [← intNumeral_text] at h ⊢
    exact (AtomText.number h).spells room
  have hstring : ∀ {text denoted : Bytes}, StringText text denoted →
      Spells room (0x22 :: (text ++ [0x22])) (.string denoted) :=
    fun h => (AtomText.string h).spells room
  have h₁ := memberText_memberBytes (utf8 "request_id") (by decide) hnil (hnumber hid)
  have h₂ := memberText_memberBytes (utf8 "trace_id") (by decide) hnil
    (hstring (stringText_escapeString htrace))
  have h₃ := memberText_memberBytes (utf8 "type") (by decide) hnil
    (hstring (stringText_of_isPlain (isPlain_typeToString env.type)))
  have h₄ := memberText_memberBytes (utf8 "version") (by decide) hnil (hnumber hver)
  refine ⟨id, version, _, ?_, .more hnil h₁ hnil (.more hnil h₂ hnil (.more hnil h₃ hnil
    (.last hnil h₄ hnil)))⟩
  unfold serializeTail memberBytes
  simp [utf8]
  rfl

/-! ## The payload -/

/-- A text without the whitespace around it. -/
def trimWhitespace (text : Bytes) : Bytes :=
  ((skipWhitespace text).reverse.dropWhile isWhitespace).reverse

/-- **A text is a JSON value that nests at most `room` deep**, between
whitespace. -/
def NestsAtMost (room : ℕ) (text : Bytes) : Prop :=
  ∃ space t after v, Space space ∧ Spells room t v ∧ Space after ∧ text = space ++ (t ++ after)

/-- A text whose last byte is no whitespace. -/
def Ends (text : Bytes) : Prop := ∃ start c, text = start ++ [c] ∧ isWhitespace c = false

set_option maxRecDepth 10000 in
/-- A digit is no whitespace. -/
theorem isWhitespace_of_isDigitByte : ∀ c : UInt8, isDigitByte c = true → isWhitespace c = false := by
  decide

/-- Digits end. -/
theorem ends_of_digits (start : Bytes) {digits : Bytes} (hne : digits ≠ [])
    (h : ∀ c ∈ digits, isDigitByte c = true) : Ends (start ++ digits) := by
  refine ⟨start ++ digits.dropLast, digits.getLast hne, ?_,
    isWhitespace_of_isDigitByte _ (h _ (List.getLast_mem hne))⟩
  rw [List.append_assoc, List.dropLast_append_getLast]

/-- A numeral ends. -/
theorem ends_numeral (n : Numeral) : Ends n.text := by
  unfold Numeral.text Numeral.exponentText Numeral.fractionText
  cases n.exponent with
  | none =>
    simp only [Option.map_none, Option.getD_none, List.append_nil]
    split
    · rw [List.append_nil]
      exact ends_of_digits _ n.whole_ne_nil n.whole_isDigit
    · rename_i hne
      have h := ends_of_digits (n.signText ++ (n.whole ++ [0x2e])) hne n.fraction_isDigit
      simpa using h
  | some e =>
    simp only [Option.map_some, Option.getD_some, Numeral.Exponent.text]
    generalize (if n.fraction = [] then [] else 0x2e :: n.fraction) = f
    have h := ends_of_digits (n.signText ++ (n.whole ++ (f ++ e.letter :: e.sign)))
      e.digits_ne e.isDigit
    simpa using h

/-- Every value ends. -/
theorem ends_of_spells {room : ℕ} {text : Bytes} {v : Value} (h : Spells room text v) :
    Ends text := by
  have hatom : ∀ {text v}, AtomText text v → Ends text := by
    intro text v hatom
    cases hatom with
    | @literal l hl =>
      simp only [literals, List.mem_cons, List.not_mem_nil, or_false] at hl
      rcases hl with rfl | rfl | rfl
      · exact ⟨utf8 "tru", 0x65, rfl, by decide⟩
      · exact ⟨utf8 "fals", 0x65, rfl, by decide⟩
      · exact ⟨utf8 "nul", 0x6c, rfl, by decide⟩
    | number => exact ends_numeral _
    | @string body _ _ => exact ⟨0x22 :: body, 0x22, rfl, by decide⟩
  have hvalue : ∀ {Inner}, ValueText Inner text v → Ends text := by
    intro Inner hvalue
    cases hvalue with
    | atom h => exact hatom h
    | @array _ body _ _ _ => exact ⟨0x5b :: body, 0x5d, rfl, by decide⟩
    | @object _ body _ _ _ => exact ⟨0x7b :: body, 0x7d, rfl, by decide⟩
  cases room with
  | zero => exact hvalue h
  | succ room => exact hvalue h

/-- Trimming leaves the value. -/
theorem trimWhitespace_append {room : ℕ} {space t after : Bytes} {v : Value}
    (hspace : Space space) (ht : Spells room t v) (hafter : Space after) :
    trimWhitespace (space ++ (t ++ after)) = t := by
  obtain ⟨start, c, rfl, hc⟩ := ends_of_spells ht
  have hstarts := (reads_parseValue room).starts ht
  unfold trimWhitespace
  rw [skipWhitespace_append hspace (hstarts.noSpace after), List.reverse_append,
    List.dropWhile_append_of_pos (fun c hc => hafter c (List.mem_reverse.mp hc)),
    List.reverse_append]
  simp [hc]

/-- The empty object nests one level deep. -/
theorem spells_emptyObject (room : ℕ) : Spells (room + 1) (utf8 "\x7b\x7d") (.object []) := by
  have hbody : BodyText (MemberText (Spells room)) [] [] := Or.inl ⟨by simp [Space], rfl⟩
  exact ValueText.object rfl hbody

/-- **The payload as it is sent is a value**, with no more room than was
checked. -/
theorem exists_spells_payloadText {env : Envelope} {text : Bytes}
    (h : serialize env = some text) :
    ∃ space t after v, Space space ∧ Spells maxJsonNestDepth t v ∧ Space after
      ∧ payloadText env = space ++ (t ++ after) := by
  unfold serialize at h
  unfold payloadText
  split at h
  · cases h
  · rename_i hcheck
    by_cases hempty : env.payloadJson.isEmpty = true
    · rw [if_pos hempty]
      exact ⟨[], utf8 "\x7b\x7d", [], .object [], by simp [Space], spells_emptyObject _,
        by simp [Space], rfl⟩
    · rw [if_neg hempty]
      have hsome : (parse env.payloadJson).isSome = true := by
        rw [Option.isSome_iff_ne_none]
        simpa [hempty] using hcheck
      obtain ⟨v, hv⟩ := Option.isSome_iff_exists.mp hsome
      obtain ⟨-, space, t, after, hspace, ht, hafter, heq⟩ := parse_eq_some_iff.mp hv
      exact ⟨space, t, after, v, hspace, ht, hafter, heq⟩

/-- The text of an envelope. -/
theorem serialize_eq {env : Envelope} {text : Bytes} (h : serialize env = some text) :
    text = 0x7b :: memberBytes (utf8 "payload") (payloadText env ++ serializeTail env) := by
  unfold serialize at h
  split at h
  · cases h
  · rw [← Option.some.inj h]
    rfl

/-- The object of an envelope. -/
def envelopeObject (env : Envelope) (payload : Member) (id version : Binary64) : Value :=
  .object (toObject (payload :: tailMembers env id version))

section EnvelopeObject

variable {env : Envelope} {payload : Member} {id version : Binary64}

/-- The version is read from the object. -/
theorem getInt_version (hkey : payload.key = utf8 "payload")
    (hversion : env.version = envelopeVersion) :
    (envelopeObject env payload id version).getInt (utf8 "version") = some env.version := by
  have hfind : (envelopeObject env payload id version).find (utf8 "version")
      = some (.number ⟨.finite version, formatInteger env.version⟩) := by
    refine (find?_toObject _ _).trans ?_
    rw [List.find?_cons_of_neg (by rw [hkey]; decide)]
    rfl
  unfold Value.getInt
  rw [hfind]
  simp only [(plain_formatInteger env.version).1]
  exact toIntIn_formatInteger (by rw [hversion]; decide) (by rw [hversion]; decide) _

/-- The request id is read from the object. -/
theorem getUInt_requestId (hkey : payload.key = utf8 "payload") :
    (envelopeObject env payload id version).getUInt (utf8 "request_id")
      = some env.requestId.toNat := by
  have hfind : (envelopeObject env payload id version).find (utf8 "request_id")
      = some (.number ⟨.finite id, formatInteger env.requestId.toNat⟩) := by
    refine (find?_toObject _ _).trans ?_
    rw [List.find?_cons_of_neg (by rw [hkey]; decide)]
    rfl
  have hsign : ((formatInteger env.requestId.toNat).head? != some 0x2d) = true :=
    bne_iff_ne.mpr (head_formatInteger _)
  unfold Value.getUInt
  rw [hfind]
  simp only [(plain_formatInteger _).1, hsign, Bool.and_self]
  rw [toIntIn_formatInteger (by omega) (by have := env.requestId.toNat_lt; omega)]
  rfl

/-- The type is read from the object. -/
theorem getString_type (hkey : payload.key = utf8 "payload") :
    (envelopeObject env payload id version).getString (utf8 "type")
      = some (typeToString env.type) := by
  have hfind : (envelopeObject env payload id version).find (utf8 "type")
      = some (.string (typeToString env.type)) := by
    refine (find?_toObject _ _).trans ?_
    rw [List.find?_cons_of_neg (by rw [hkey]; decide)]
    rfl
  unfold Value.getString
  rw [hfind]

/-- The trace id is read from the object. -/
theorem getString_traceId (hkey : payload.key = utf8 "payload") :
    (envelopeObject env payload id version).getString (utf8 "trace_id") = some env.traceId := by
  have hfind : (envelopeObject env payload id version).find (utf8 "trace_id")
      = some (.string env.traceId) := by
    refine (find?_toObject _ _).trans ?_
    rw [List.find?_cons_of_neg (by rw [hkey]; decide)]
    rfl
  unfold Value.getString
  rw [hfind]

end EnvelopeObject

/-- **An envelope whose payload leaves a level is read back.** -/
theorem deserialize_of_spells {env : Envelope} {text : Bytes}
    (hversion : env.version = envelopeVersion) (htrace : ValidUtf8 env.traceId)
    (hserialize : serialize env = some text) (hlen : text.length ≤ maxFrameSize)
    {space t after : Bytes} {v : Value} (hspace : Space space)
    (ht : Spells (maxJsonNestDepth - 1) t v) (hafter : Space after)
    (hpayload : payloadText env = space ++ (t ++ after)) :
    deserialize text = some { env with payloadJson := t } := by
  obtain ⟨id, version, tail, htail, hitems⟩ :=
    exists_tailMembers hversion htrace (maxJsonNestDepth - 1)
  have hfirst := memberText_memberBytes (utf8 "payload") (by decide) hspace ht
  have hbody := ItemsText.more (by simp [Space] : Space []) hfirst hafter hitems
  have htext : text = 0x7b :: ([] ++ (memberBytes (utf8 "payload") (space ++ t)
      ++ (after ++ 0x2c :: tail)) ++ [0x7d]) := by
    rw [serialize_eq hserialize, hpayload, htail]
    simp [memberBytes]
  have hparse : parseWithRawMember text (utf8 "payload")
      = some (envelopeObject env ⟨utf8 "payload", t, v⟩ id version, t) := by
    rw [htext] at hlen ⊢
    exact parseWithRawMember_object (Or.inr hbody) hlen
  have hne : t.isEmpty = false := by
    obtain ⟨c, u, rfl, -⟩ := (reads_parseValue _).starts ht
    rfl
  have hcast : castInt env.version = env.version := by rw [hversion]; decide
  have hkey : (⟨utf8 "payload", t, v⟩ : Member).key = utf8 "payload" := rfl
  have hobject : (envelopeObject env ⟨utf8 "payload", t, v⟩ id version).isObject = true := rfl
  unfold deserialize
  simp only [hparse, getInt_version hkey hversion, getUInt_requestId hkey, getString_type hkey,
    getString_traceId hkey, Option.map_some, Option.getD_some, hcast, hobject, Bool.not_true,
    Bool.false_eq_true, if_false, typeFromString_typeToString, hne, UInt64.ofNat_toNat]
  rw [if_neg (by rw [hversion]; decide)]

/-- A key that needs no escape is read with the value that follows it. -/
theorem readMember_memberBytes {inner : Reader Value} {key value rest : Bytes} {m : Member}
    (hkey : key.all isPlain = true)
    (h : readMember inner (memberBytes key value) = some (m, rest)) :
    inner.read (skipWhitespace value) = some (m.value, rest) := by
  have hskip : skipWhitespace (memberBytes key value) = memberBytes key value := rfl
  have hparse : parseString (memberBytes key value) = some (key, 0x3a :: value) :=
    parseString_eq_some_iff.mpr ⟨key, stringText_of_isPlain hkey, rfl⟩
  have hcolon : skipWhitespace (0x3a :: value) = 0x3a :: value := rfl
  unfold readMember at h
  simp only [hskip, hparse, hcolon, if_true] at h
  obtain ⟨r, hr, heq⟩ := Option.map_eq_some_iff.mp h
  cases heq
  exact hr

/-- **An envelope that is read back left a level.** -/
theorem spells_of_deserialize {env env' : Envelope} {text : Bytes}
    (hserialize : serialize env = some text) (h : deserialize text = some env')
    {space t after : Bytes} {v : Value} (hspace : Space space)
    (ht : Spells maxJsonNestDepth t v) (hafter : Space after)
    (hpayload : payloadText env = space ++ (t ++ after)) :
    Spells (maxJsonNestDepth - 1) t v := by
  obtain ⟨r, hr⟩ : ∃ r, parseWithRawMember text (utf8 "payload") = some r := by
    unfold deserialize at h
    split at h
    · cases h
    · exact ⟨_, ‹_›⟩
  rw [serialize_eq hserialize] at hr
  obtain ⟨members, hmembers⟩ := parseObject_of_parseWithRawMember hr
  -- the first member that is read is the payload
  have hitems : parseItems (memberReader (parseValue (maxJsonNestDepth - 1))) 0x7d
      (memberBytes (utf8 "payload") (payloadText env ++ serializeTail env)) = some members := hmembers
  obtain ⟨m, rest, -, hm, -⟩ := parseItems_eq_some hitems
  have hread := readMember_memberBytes (by decide) hm
  -- with one more level it reads what the payload spells
  have hstops : Stops (after ++ serializeTail env) := stops_append hafter (Or.inl rfl)
  have hfull := (reads_parseValue maxJsonNestDepth).complete (by simp [Space] : Space []) ht hstops
  have hstart : skipWhitespace (payloadText env ++ serializeTail env)
      = [] ++ (t ++ (after ++ serializeTail env)) := by
    have hstarts := (reads_parseValue _).starts ht
    rw [hpayload, List.append_assoc, List.append_assoc,
      skipWhitespace_append hspace (hstarts.noSpace _), List.nil_append]
  rw [hstart] at hread
  have hmore := parseValue_extends (maxJsonNestDepth - 1) _ _ hread
  obtain ⟨rfl, rfl⟩ := Prod.mk.inj (Option.some.inj (hfull.symm.trans hmore))
  obtain ⟨space', t', hspace', ht', heq⟩ := (reads_parseValue _).sound hread
  have hnil : space' = [] :=
    hspace'.eq_nil (heq ▸ ((reads_parseValue _).starts ht).noSpace _)
  subst hnil
  rw [List.nil_append, List.nil_append] at heq
  rwa [List.append_cancel_right heq]

/-- **An envelope comes back if and only if its payload leaves one level of
nesting.** Everything else about it survives the frame: the trace id, the
type, the 64-bit request id, and the payload without the whitespace around
it. -/
theorem deserialize_serialize_iff {env : Envelope} {text : Bytes}
    (hversion : env.version = envelopeVersion) (htrace : ValidUtf8 env.traceId)
    (hserialize : serialize env = some text) (hframe : (encodeLengthPrefixed text).isSome) :
    deserialize text = some { env with payloadJson := trimWhitespace (payloadText env) }
      ↔ env.payloadJson = [] ∨ NestsAtMost (maxJsonNestDepth - 1) env.payloadJson := by
  have hlen : text.length ≤ maxFrameSize := by
    unfold encodeLengthPrefixed at hframe
    split at hframe
    · cases hframe
    · exact not_lt.mp ‹_›
  have hiff : env.payloadJson = [] ∨ NestsAtMost (maxJsonNestDepth - 1) env.payloadJson
      ↔ NestsAtMost (maxJsonNestDepth - 1) (payloadText env) := by
    unfold payloadText
    by_cases hempty : env.payloadJson = []
    · rw [hempty]
      exact iff_of_true (Or.inl rfl) ⟨[], utf8 "\x7b\x7d", [], .object [], by simp [Space],
        spells_emptyObject _, by simp [Space], rfl⟩
    · rw [if_neg (by simpa using hempty)]
      exact or_iff_right hempty
  rw [hiff]
  constructor
  · intro h
    obtain ⟨space, t, after, v, hspace, ht, hafter, hpayload⟩ :=
      exists_spells_payloadText hserialize
    exact ⟨space, t, after, v, hspace,
      spells_of_deserialize hserialize h hspace ht hafter hpayload, hafter, hpayload⟩
  · rintro ⟨space, t, after, v, hspace, ht, hafter, hpayload⟩
    rw [hpayload, trimWhitespace_append hspace ht hafter]
    exact deserialize_of_spells hversion htrace hserialize hlen hspace ht hafter hpayload

/-- An envelope whose payload has whitespace around it. -/
def spacedEnvelope : Envelope := ⟨1, 18446744073709551615, [0x22], .ping, utf8 " [ ] \n"⟩

set_option maxRecDepth 10000 in
/-- It comes back with the payload trimmed. -/
theorem deserialize_serialize_spaced :
    ∃ text, serialize spacedEnvelope = some text ∧ deserialize text
      = some ⟨1, 18446744073709551615, [0x22], .ping, utf8 "[ ]"⟩ := by
  have hserialize : serialize spacedEnvelope
      = some (utf8 "\x7b\"payload\": [ ] \n,\"request_id\":18446744073709551615"
        ++ utf8 ",\"trace_id\":\"\\\"\",\"type\":\"Ping\",\"version\":1\x7d") := by
    decide +kernel
  have htrace : ValidUtf8 spacedEnvelope.traceId := ValidUtf8.of_ascii (by decide)
  have hvalue : Spells (maxJsonNestDepth - 1) (utf8 "[ ]") (.array []) := by
    have hbody : BodyText (Spells (maxJsonNestDepth - 2)) [0x20] [] :=
      Or.inl ⟨by simp [Space, isWhitespace], rfl⟩
    exact ValueText.array rfl hbody
  have hnests : NestsAtMost (maxJsonNestDepth - 1) spacedEnvelope.payloadJson :=
    ⟨[0x20], utf8 "[ ]", utf8 " \n", .array [], by simp [Space, isWhitespace], hvalue,
      by unfold Space; decide, rfl⟩
  refine ⟨_, hserialize, ?_⟩
  exact (deserialize_serialize_iff rfl htrace hserialize (by decide)).mpr (Or.inr hnests)

/-- An envelope whose payload nests as deep as a text may. -/
def deepEnvelope : Envelope :=
  { payloadJson := List.replicate maxJsonNestDepth 0x5b ++ List.replicate maxJsonNestDepth 0x5d }

/-- **A payload that nests 64 deep is sent and cannot be read.** -/
theorem deserialize_serialize_deep :
    ¬ ∀ (env : Envelope) (text : Bytes), env.version = envelopeVersion → ValidUtf8 env.traceId →
      serialize env = some text → (encodeLengthPrefixed text).isSome →
      deserialize text = some { env with payloadJson := trimWhitespace (payloadText env) } := by
  intro h
  have hsent : ((serialize deepEnvelope).bind encodeLengthPrefixed).isSome := by decide +kernel
  have hlost : ((serialize deepEnvelope).bind deserialize).isNone := by decide +kernel
  cases hserialize : serialize deepEnvelope with
  | none => rw [hserialize] at hsent; cases hsent
  | some text =>
    rw [hserialize, Option.bind_some] at hsent hlost
    rw [h deepEnvelope text rfl .nil hserialize hsent] at hlost
    cases hlost

end AzooKey.Ipc

import AzooKey.Ipc.Messages

/-!
# The payloads that carry observations

`ipc/src/Payloads.cpp`: the readers of the handshake and of the four messages
by which a text service reports what was typed. A member that is absent or
that has another type is read as its default, and the two members that
authorize learning have defaults of their own in each reader.

`ReportsOpen` is what all four make of them: a payload that a reader accepts
says that it may be learned from if and only if its object holds `secure` as
`false` and `learning_allowed` as `true`.
-/

namespace AzooKey.Ipc

open Json

/-- `ParseObject`. -/
def parseObject (json : Bytes) : Option Value := (parse json).filter Value.isObject

/-! ## Candidates -/

/-- `LiveSegment`. -/
structure LiveSegment where
  startChar : UInt32
  endChar : UInt32
  score : Double
  autoPunctuation : Bool
  surface : Bytes
  reading : Bytes
  pos : UInt8
  headPos : UInt8
  sem : UInt8
  headSem : UInt8
  tag : UInt8
deriving DecidableEq

/-- An integer member that is to fit into a byte; zero when it does not. -/
def readByte (v : Value) (field : Bytes) : UInt8 :=
  let value := (v.getUInt field).getD 0
  if value ≤ 0xff then UInt8.ofNat value else 0

/-- An element of `segments`. -/
def liveSegmentFromJson (item : Value) : Option LiveSegment :=
  match item.getUInt (utf8 "start_char"), item.getUInt (utf8 "end_char"),
    item.getNumber (utf8 "score"), item.getString (utf8 "surface") with
  | some first, some last, some score, some surface =>
    if 2 ^ 32 ≤ first ∨ 2 ^ 32 ≤ last ∨ last < first then none
    else
      let autoPunctuation := (item.getBool (utf8 "auto_punctuation")).getD false
      let reading := (item.getString (utf8 "reading")).getD []
      if autoPunctuation && !reading.isEmpty then none
      else
        some {
          startChar := UInt32.ofNat first
          endChar := UInt32.ofNat last
          score := score
          autoPunctuation := autoPunctuation
          surface := surface
          reading := reading
          pos := readByte item (utf8 "pos")
          headPos := readByte item (utf8 "head_pos")
          sem := readByte item (utf8 "sem")
          headSem := readByte item (utf8 "head_sem")
          tag := readByte item (utf8 "tag") }
  | _, _, _, _ => none

/-- `LiveSegmentsFromJson`: an element that is no segment is passed over. -/
def liveSegmentsFromJson (v : Value) : List LiveSegment :=
  ((v.getArray (utf8 "segments")).getD []).filterMap liveSegmentFromJson

/-- `CandidateField`. -/
structure CandidateField where
  surface : Bytes
  reading : Bytes
  score : Double
  source : Bytes
  description : Bytes
  tag : UInt8
  segments : List LiveSegment
deriving DecidableEq

/-- `CandidateFromJson`. -/
def candidateFromJson (v : Value) : Option CandidateField :=
  match v.getString (utf8 "surface"), v.getString (utf8 "reading") with
  | some surface, some reading =>
    some {
      surface := surface
      reading := reading
      score := (v.getNumber (utf8 "score")).getD (.finite (.zero false))
      source := (v.getString (utf8 "source")).getD []
      description := (v.getString (utf8 "description")).getD []
      tag := readByte v (utf8 "tag")
      segments := liveSegmentsFromJson v }
  | _, _ => none

/-- `AppIdentity`. -/
structure AppIdentity where
  processName : Bytes
  windowClass : Bytes
deriving DecidableEq

/-- `AppFromJson`. -/
def appFromJson (v : Value) : Option AppIdentity :=
  match v.findObject (utf8 "app") with
  | none => none
  | some app =>
    let processName := (app.getString (utf8 "process_name")).getD []
    let windowClass := (app.getString (utf8 "window_class")).getD []
    if processName.isEmpty && windowClass.isEmpty then none else some ⟨processName, windowClass⟩

/-! ## The handshake -/

/-- `kHandshakeProtocolVersion`. -/
def handshakeProtocolVersion : ℤ := 1

/-- `HandshakeRequest`. -/
structure HandshakeRequest where
  tipVersion : Bytes
  protocolVersion : ℤ
  capabilities : List Bytes
  clientId : Bytes
  handshakeToken : Bytes

/-- The text of a string. -/
def Json.Value.string? : Value → Option Bytes
  | .string text => some text
  | _ => none

/-- `ParseHandshakeRequest`. -/
def parseHandshakeRequest (json : Bytes) : Option HandshakeRequest := do
  let v ← parseObject json
  let tip ← v.getString (utf8 "tip_version")
  let version := (v.getInt (utf8 "protocol_version")).getD handshakeProtocolVersion
  some {
    tipVersion := tip
    protocolVersion := castInt version
    capabilities := ((v.getArray (utf8 "capabilities")).getD []).filterMap Value.string?
    clientId := (v.getString (utf8 "client_id")).getD []
    handshakeToken := (v.getString (utf8 "handshake_token")).getD [] }

/-! ## The observations -/

/-- `CommitObservationRequest`. -/
structure CommitObservationRequest where
  reading : Bytes
  chosen : CandidateField
  shown : List CandidateField
  leftContext : Bytes
  timestampMs : UInt64
  observationId : Bytes
  secure : Bool
  learningAllowed : Bool
  app : Option AppIdentity
deriving DecidableEq

/-- `ParseCommitObservationRequest`. -/
def parseCommitObservationRequest (json : Bytes) : Option CommitObservationRequest := do
  let v ← parseObject json
  let reading ← v.getString (utf8 "reading")
  let chosen ← v.find (utf8 "chosen")
  let chosen ← candidateFromJson chosen
  some {
    reading := reading
    chosen := chosen
    shown := ((v.getArray (utf8 "shown")).getD []).filterMap candidateFromJson
    leftContext := (v.getString (utf8 "left_context")).getD []
    timestampMs := UInt64.ofNat ((v.getUInt (utf8 "timestamp_ms")).getD 0)
    observationId := (v.getString (utf8 "observation_id")).getD []
    secure := (v.getBool (utf8 "secure")).getD true
    learningAllowed := (v.getBool (utf8 "learning_allowed")).getD false
    app := appFromJson v }

/-- `ObservedSegment`. -/
structure ObservedSegment where
  reading : Bytes
  chosen : CandidateField
  shown : List CandidateField
  isAutoPunctuation : Bool
deriving DecidableEq

/-- An element of the `segments` of an observation. Unlike the candidates of one
commit, every alternative has to be a candidate. -/
def observedSegmentFromJson (item : Value) : Option ObservedSegment := do
  let reading ← item.getString (utf8 "reading")
  let chosen ← item.find (utf8 "chosen")
  let chosen ← candidateFromJson chosen
  let isAutoPunctuation := (item.getBool (utf8 "is_auto_punctuation")).getD false
  if chosen.surface.isEmpty then none
  else if reading.isEmpty && !isAutoPunctuation then none
  else
    let shown ← ((item.getArray (utf8 "shown")).getD []).mapM candidateFromJson
    some ⟨reading, chosen, shown, isAutoPunctuation⟩

/-- `CommitSegmentsObservationRequest`. -/
structure CommitSegmentsObservationRequest where
  segments : List ObservedSegment
  leftContext : Bytes
  timestampMs : UInt64
  observationId : Bytes
  secure : Bool
  learningAllowed : Bool
  app : Option AppIdentity
deriving DecidableEq

/-- `ParseCommitSegmentsObservationRequest`. -/
def parseCommitSegmentsObservationRequest (json : Bytes) :
    Option CommitSegmentsObservationRequest := do
  let v ← parseObject json
  let segments ← v.getArray (utf8 "segments")
  if segments.isEmpty then none
  else
    let segments ← segments.mapM observedSegmentFromJson
    some {
      segments := segments
      leftContext := (v.getString (utf8 "left_context")).getD []
      timestampMs := UInt64.ofNat ((v.getUInt (utf8 "timestamp_ms")).getD 0)
      observationId := (v.getString (utf8 "observation_id")).getD []
      secure := (v.getBool (utf8 "secure")).getD true
      learningAllowed := (v.getBool (utf8 "learning_allowed")).getD false
      app := appFromJson v }

/-- `CommitCorrectionRequest`. -/
structure CommitCorrectionRequest where
  kind : Bytes
  reading : Bytes
  rejectedSurface : Bytes
  selectedSurface : Option Bytes
  leftContext : Bytes
  timestampMs : UInt64
  observationId : Bytes
  secure : Bool
  learningAllowed : Bool
  app : Option AppIdentity
deriving DecidableEq

/-- Whether the kind of a correction agrees with what was selected instead. -/
def correctionAgrees (kind rejected : Bytes) (selected : Option Bytes) : Bool :=
  if kind = utf8 "undo" then selected.isNone
  else if kind = utf8 "reconvert" then
    selected.any (fun surface => !surface.isEmpty && surface != rejected)
  else false

/-- `ParseCommitCorrectionRequest`. -/
def parseCommitCorrectionRequest (json : Bytes) : Option CommitCorrectionRequest := do
  let v ← parseObject json
  let kind ← v.getString (utf8 "kind")
  let reading ← v.getString (utf8 "reading")
  let rejected ← v.getString (utf8 "rejected_surface")
  let selected := v.getString (utf8 "selected_surface")
  if reading.isEmpty || rejected.isEmpty then none
  else if !correctionAgrees kind rejected selected then none
  else
    some {
      kind := kind
      reading := reading
      rejectedSurface := rejected
      selectedSurface := selected
      leftContext := (v.getString (utf8 "left_context")).getD []
      timestampMs := UInt64.ofNat ((v.getUInt (utf8 "timestamp_ms")).getD 0)
      observationId := (v.getString (utf8 "observation_id")).getD []
      secure := (v.getBool (utf8 "secure")).getD true
      learningAllowed := (v.getBool (utf8 "learning_allowed")).getD false
      app := appFromJson v }

/-- `ObserveTypoRequest`. -/
structure ObserveTypoRequest where
  wrongReading : Bytes
  correctReading : Bytes
  timestampMs : UInt64
  secure : Bool
  learningAllowed : Bool
deriving DecidableEq

/-- `ParseObserveTypoRequest`. -/
def parseObserveTypoRequest (json : Bytes) : Option ObserveTypoRequest := do
  let v ← parseObject json
  let wrong ← v.getString (utf8 "wrong_reading")
  let correct ← v.getString (utf8 "correct_reading")
  some {
    wrongReading := wrong
    correctReading := correct
    timestampMs := UInt64.ofNat ((v.getUInt (utf8 "timestamp_ms")).getD 0)
    secure := (v.getBool (utf8 "secure")).getD true
    learningAllowed := (v.getBool (utf8 "learning_allowed")).getD false }

/-! ## The members that authorize learning -/

/-- **A payload that may be learned from**: an object whose `secure` is the
boolean `false` and whose `learning_allowed` is the boolean `true`. -/
def ReportsOpen (json : Bytes) : Prop :=
  ∃ v, parse json = some v ∧ v.find (utf8 "secure") = some (.bool false)
    ∧ v.find (utf8 "learning_allowed") = some (.bool true)

/-- A boolean member that is read as what its default is not was given so. -/
theorem find_of_getBool {v : Value} {key : Bytes} {value : Bool}
    (h : (v.getBool key).getD (!value) = value) : v.find key = some (.bool value) := by
  unfold Value.getBool at h
  split at h
  · rename_i b hfind
    rw [hfind]
    exact congrArg (fun b => some (Value.bool b)) h
  · cases value <;> simp at h

/-- **The two members of a text that was read.** -/
theorem reportsOpen_of_getBool {json : Bytes} {v : Value} (hv : parseObject json = some v)
    (hsecure : (v.getBool (utf8 "secure")).getD true = false)
    (hallowed : (v.getBool (utf8 "learning_allowed")).getD false = true) : ReportsOpen json := by
  unfold parseObject at hv
  have hparse : parse json = some v := (Option.filter_eq_some_iff.mp hv).1
  exact ⟨v, hparse, find_of_getBool hsecure, find_of_getBool hallowed⟩

/-- A commit that is read as open says so. -/
theorem CommitObservationRequest.reportsOpen {json : Bytes} {p : CommitObservationRequest}
    (h : parseCommitObservationRequest json = some p) (hsecure : p.secure = false)
    (hallowed : p.learningAllowed = true) : ReportsOpen json := by
  unfold parseCommitObservationRequest at h
  simp only [Option.bind_eq_bind, Option.bind_eq_some_iff, Option.some.injEq] at h
  obtain ⟨v, hv, reading, -, found, -, chosen, -, rfl⟩ := h
  exact reportsOpen_of_getBool hv hsecure hallowed

/-- A commit of segments that is read as open says so. -/
theorem CommitSegmentsObservationRequest.reportsOpen {json : Bytes}
    {p : CommitSegmentsObservationRequest}
    (h : parseCommitSegmentsObservationRequest json = some p) (hsecure : p.secure = false)
    (hallowed : p.learningAllowed = true) : ReportsOpen json := by
  unfold parseCommitSegmentsObservationRequest at h
  simp only [Option.bind_eq_bind, Option.bind_eq_some_iff] at h
  obtain ⟨v, hv, items, -, h⟩ := h
  split at h
  · cases h
  · simp only [Option.bind_eq_some_iff, Option.some.injEq] at h
    obtain ⟨segments, -, rfl⟩ := h
    exact reportsOpen_of_getBool hv hsecure hallowed

/-- A correction that is read as open says so. -/
theorem CommitCorrectionRequest.reportsOpen {json : Bytes} {p : CommitCorrectionRequest}
    (h : parseCommitCorrectionRequest json = some p) (hsecure : p.secure = false)
    (hallowed : p.learningAllowed = true) : ReportsOpen json := by
  unfold parseCommitCorrectionRequest at h
  simp only [Option.bind_eq_bind, Option.bind_eq_some_iff] at h
  obtain ⟨v, hv, kind, -, reading, -, rejected, -, h⟩ := h
  split at h
  · cases h
  · split at h
    · cases h
    · cases h
      exact reportsOpen_of_getBool hv hsecure hallowed

/-- A typo that is read as open says so. -/
theorem ObserveTypoRequest.reportsOpen {json : Bytes} {p : ObserveTypoRequest}
    (h : parseObserveTypoRequest json = some p) (hsecure : p.secure = false)
    (hallowed : p.learningAllowed = true) : ReportsOpen json := by
  unfold parseObserveTypoRequest at h
  simp only [Option.bind_eq_bind, Option.bind_eq_some_iff, Option.some.injEq] at h
  obtain ⟨v, hv, wrong, -, correct, -, rfl⟩ := h
  exact reportsOpen_of_getBool hv hsecure hallowed

end AzooKey.Ipc

import AzooKey.Ipc.JsonRecord
import AzooKey.Ipc.Payloads

/-!
# The payloads of the queries, and what is written

`ipc/src/Payloads.cpp`: the messages by which candidates are asked for and
answered, with their readers, and the writers of these messages and of the
observations. A member whose value is the reader's default is in most places
left out, so that a message keeps the shape it had before the member was
added; the privacy of an event is written in full by some messages and only
when it is open by others.
-/

namespace AzooKey.Ipc

open Json

/-! ## Candidates -/

/-- The members of a segment. -/
def liveSegmentFields (segment : LiveSegment) : List (Bytes × Option Value) :=
  [(utf8 "start_char", some (.ofUInt64 segment.startChar.toUInt64)),
    (utf8 "end_char", some (.ofUInt64 segment.endChar.toUInt64)),
    (utf8 "score", some (.ofDouble segment.score)),
    (utf8 "auto_punctuation", some (.bool segment.autoPunctuation)),
    (utf8 "surface", some (.string segment.surface)),
    (utf8 "reading", some (.string segment.reading)),
    (utf8 "pos", some (.ofUInt64 segment.pos.toUInt64)),
    (utf8 "head_pos", some (.ofUInt64 segment.headPos.toUInt64)),
    (utf8 "sem", some (.ofUInt64 segment.sem.toUInt64)),
    (utf8 "head_sem", some (.ofUInt64 segment.headSem.toUInt64)),
    (utf8 "tag", unlessZero segment.tag)]

/-- An element that `LiveSegmentsToJson` writes. -/
def liveSegmentToJson (segment : LiveSegment) : Value := record (liveSegmentFields segment)

/-- `LiveSegmentsToJson`, left out when there are no segments. -/
def liveSegmentsToJson (segments : List LiveSegment) : Option Value :=
  unlessNone (segments.map liveSegmentToJson)

/-- The members of a candidate. -/
def candidateFields (c : CandidateField) : List (Bytes × Option Value) :=
  [(utf8 "surface", some (.string c.surface)),
    (utf8 "reading", some (.string c.reading)),
    (utf8 "score", some (.ofDouble c.score)),
    (utf8 "source", some (.string c.source)),
    (utf8 "description", unlessEmpty c.description),
    (utf8 "tag", unlessZero c.tag),
    (utf8 "segments", liveSegmentsToJson c.segments)]

/-- `CandidateToJson`. -/
def candidateToJson (c : CandidateField) : Value := record (candidateFields c)

/-- An array of candidates. -/
def candidatesToJson (cs : List CandidateField) : Value := .array (cs.map candidateToJson)

/-- The members of an application. -/
def appFields (app : AppIdentity) : List (Bytes × Option Value) :=
  [(utf8 "process_name", some (.string app.processName)),
    (utf8 "window_class", some (.string app.windowClass))]

/-- `AppToJson`. -/
def appToJson (app : Option AppIdentity) : Option Value := app.map (fun a => record (appFields a))

/-! ## QueryCandidates -/

/-- `kMaxAltReadings`. -/
def maxAltReadings : ℕ := 7

/-- `AltReadingsToJson`. -/
def altReadingsToJson (readings : List Bytes) : Option Value := unlessNone (readings.map .string)

/-- A string that is not empty. -/
def nonEmptyString : Value → Option Bytes
  | .string text => if text.isEmpty then none else some text
  | _ => none

/-- `AltReadingsFromJson`. -/
def altReadingsFromJson (v : Value) : List Bytes :=
  (((v.getArray (utf8 "alt_readings")).getD []).filterMap nonEmptyString).take maxAltReadings

/-- `QueryCandidatesRequest`. -/
structure QueryCandidatesRequest where
  reading : Bytes := []
  leftContext : Bytes := []
  maxCandidates : UInt32 := 10
  live : Bool := false
  autoPunctuation : Bool := false
  punctuationStyle : Bytes := utf8 "ja"
  emojiTrigger : Bytes := []
  secure : Bool := true
  learningAllowed : Bool := false
  app : Option AppIdentity := none
  rawRomaji : Bytes := []
  englishCandidates : Bool := false
  mixedEnglish : Bool := false
  altReadings : List Bytes := []
deriving DecidableEq

/-- The members of a request for candidates. -/
def queryCandidatesRequestFields (p : QueryCandidatesRequest) : List (Bytes × Option Value) :=
  [(utf8 "reading", some (.string p.reading)),
    (utf8 "left_context", some (.string p.leftContext)),
    (utf8 "max_candidates", some (.ofUInt64 p.maxCandidates.toUInt64)),
    (utf8 "live", some (.bool p.live)),
    (utf8 "auto_punctuation", some (.bool p.autoPunctuation)),
    (utf8 "punctuation_style", some (.string p.punctuationStyle)),
    (utf8 "emoji_trigger", unlessEmpty p.emojiTrigger),
    (utf8 "secure", some (.bool p.secure)),
    (utf8 "learning_allowed", some (.bool p.learningAllowed)),
    (utf8 "app", appToJson p.app),
    (utf8 "raw_romaji", unlessEmpty p.rawRomaji),
    (utf8 "english_candidates", onlyTrue p.englishCandidates),
    (utf8 "mixed_english", onlyTrue p.mixedEnglish),
    (utf8 "alt_readings", altReadingsToJson p.altReadings)]

/-- `BuildQueryCandidatesRequest`. -/
def buildQueryCandidatesRequest (p : QueryCandidatesRequest) : Bytes :=
  stringify (record (queryCandidatesRequestFields p))

/-- `ParseQueryCandidatesRequest`. -/
def parseQueryCandidatesRequest (json : Bytes) : Option QueryCandidatesRequest := do
  let v ← parseObject json
  let reading ← v.getString (utf8 "reading")
  some {
    reading := reading
    leftContext := (v.getString (utf8 "left_context")).getD []
    maxCandidates := ((v.getUInt (utf8 "max_candidates")).map UInt32.ofNat).getD 10
    live := (v.getBool (utf8 "live")).getD false
    autoPunctuation := (v.getBool (utf8 "auto_punctuation")).getD false
    punctuationStyle := (v.getString (utf8 "punctuation_style")).getD (utf8 "ja")
    emojiTrigger := (v.getString (utf8 "emoji_trigger")).getD []
    secure := (v.getBool (utf8 "secure")).getD true
    learningAllowed := (v.getBool (utf8 "learning_allowed")).getD false
    app := appFromJson v
    rawRomaji := (v.getString (utf8 "raw_romaji")).getD []
    englishCandidates := (v.getBool (utf8 "english_candidates")).getD false
    mixedEnglish := (v.getBool (utf8 "mixed_english")).getD false
    altReadings := altReadingsFromJson v }

/-- `QueryCandidatesResponse`. -/
structure QueryCandidatesResponse where
  candidates : List CandidateField := []
  segments : List LiveSegment := []
  isPartial : Bool := false
  ok : Bool := true
  error : Option Bytes := none
  correctedReading : Bytes := []
deriving DecidableEq

/-- The members of an answer with candidates. -/
def queryCandidatesResponseFields (p : QueryCandidatesResponse) : List (Bytes × Option Value) :=
  [(utf8 "ok", onlyFalse p.ok),
    (utf8 "error", p.error.map .string),
    (utf8 "candidates", some (candidatesToJson p.candidates)),
    (utf8 "partial", some (.bool p.isPartial)),
    (utf8 "segments", liveSegmentsToJson p.segments),
    (utf8 "corrected_reading", unlessEmpty p.correctedReading)]

/-- `BuildQueryCandidatesResponse`. -/
def buildQueryCandidatesResponse (p : QueryCandidatesResponse) : Bytes :=
  stringify (record (queryCandidatesResponseFields p))

/-- `ParseQueryCandidatesResponse`: an element that is no candidate is passed
over. -/
def parseQueryCandidatesResponse (json : Bytes) : Option QueryCandidatesResponse := do
  let v ← parseObject json
  some {
    ok := (v.getBool (utf8 "ok")).getD true
    error := v.getString (utf8 "error")
    candidates := ((v.getArray (utf8 "candidates")).getD []).filterMap candidateFromJson
    isPartial := (v.getBool (utf8 "partial")).getD false
    segments := liveSegmentsFromJson v
    correctedReading := (v.getString (utf8 "corrected_reading")).getD [] }

/-! ## QueryLiveConversion -/

/-- `QueryLiveConversionRequest`. -/
structure QueryLiveConversionRequest where
  kana : Bytes := []
  context : Bytes := []
  autoPunctuation : Bool := false
  punctuationStyle : Bytes := utf8 "ja"
  rawRomaji : Bytes := []
  mixedEnglish : Bool := false
  secure : Bool := true
deriving DecidableEq

/-- The members of a request for a live conversion. -/
def queryLiveConversionRequestFields (p : QueryLiveConversionRequest) :
    List (Bytes × Option Value) :=
  [(utf8 "kana", some (.string p.kana)),
    (utf8 "context", some (.string p.context)),
    (utf8 "auto_punctuation", some (.bool p.autoPunctuation)),
    (utf8 "punctuation_style", some (.string p.punctuationStyle)),
    (utf8 "raw_romaji", unlessEmpty p.rawRomaji),
    (utf8 "mixed_english", onlyTrue p.mixedEnglish),
    (utf8 "secure", onlyFalse p.secure)]

/-- `BuildQueryLiveConversionRequest`. -/
def buildQueryLiveConversionRequest (p : QueryLiveConversionRequest) : Bytes :=
  stringify (record (queryLiveConversionRequestFields p))

/-- `ParseQueryLiveConversionRequest`. -/
def parseQueryLiveConversionRequest (json : Bytes) : Option QueryLiveConversionRequest := do
  let v ← parseObject json
  let kana ← v.getString (utf8 "kana")
  let context ← v.getString (utf8 "context")
  some {
    kana := kana
    context := context
    autoPunctuation := (v.getBool (utf8 "auto_punctuation")).getD false
    punctuationStyle := (v.getString (utf8 "punctuation_style")).getD (utf8 "ja")
    rawRomaji := (v.getString (utf8 "raw_romaji")).getD []
    mixedEnglish := (v.getBool (utf8 "mixed_english")).getD false
    secure := (v.getBool (utf8 "secure")).getD true }

/-- `QueryLiveConversionResponse`. -/
structure QueryLiveConversionResponse where
  surface : Bytes := []
  confidence : Double := .finite (.zero false)
  segments : List LiveSegment := []
deriving DecidableEq

/-- The members of an answer with a live conversion. -/
def queryLiveConversionResponseFields (p : QueryLiveConversionResponse) :
    List (Bytes × Option Value) :=
  [(utf8 "surface", some (.string p.surface)),
    (utf8 "confidence", some (.ofDouble p.confidence)),
    (utf8 "segments", liveSegmentsToJson p.segments)]

/-- `BuildQueryLiveConversionResponse`. -/
def buildQueryLiveConversionResponse (p : QueryLiveConversionResponse) : Bytes :=
  stringify (record (queryLiveConversionResponseFields p))

/-- Whether a confidence is no finite number from zero to one. -/
def confidenceOutside (confidence : Double) : Bool :=
  !confidence.isFinite || confidence.ieeeLt (.finite (.zero false))
    || Double.ieeeLt (.finite (.ofInt 1 Binary64.natAbs_one_lt)) confidence

/-- `ParseQueryLiveConversionResponse`. -/
def parseQueryLiveConversionResponse (json : Bytes) : Option QueryLiveConversionResponse := do
  let v ← parseObject json
  let surface ← v.getString (utf8 "surface")
  let confidence ← v.getNumber (utf8 "confidence")
  if confidenceOutside confidence then none
  else
    some {
      surface := surface
      confidence := confidence
      segments := liveSegmentsFromJson v }

/-! ## QueryBatchConversion -/

/-- `QueryBatchConversionRequest`. -/
structure QueryBatchConversionRequest where
  reading : Bytes := []
  rawRomaji : Bytes := []
  mode : Bytes := utf8 "neural"
  autoPunctuation : Bool := false
  maxCandidates : UInt32 := 10
  aiAllowed : Bool := false
  externalAiAllowed : Bool := false
  aiBackend : Bytes := []
  englishCandidates : Bool := false
  secure : Bool := true
deriving DecidableEq

/-- The members of a request for a batch conversion. -/
def queryBatchConversionRequestFields (p : QueryBatchConversionRequest) :
    List (Bytes × Option Value) :=
  [(utf8 "reading", some (.string p.reading)),
    (utf8 "raw_romaji", unlessEmpty p.rawRomaji),
    (utf8 "ai_allowed", some (.bool p.aiAllowed)),
    (utf8 "external_ai_allowed", some (.bool p.externalAiAllowed)),
    (utf8 "ai_backend", unlessEmpty p.aiBackend),
    (utf8 "mode", some (.string p.mode)),
    (utf8 "auto_punctuation", some (.bool p.autoPunctuation)),
    (utf8 "max_candidates", some (.ofUInt64 p.maxCandidates.toUInt64)),
    (utf8 "english_candidates", onlyTrue p.englishCandidates),
    (utf8 "secure", onlyFalse p.secure)]

/-- `BuildQueryBatchConversionRequest`. -/
def buildQueryBatchConversionRequest (p : QueryBatchConversionRequest) : Bytes :=
  stringify (record (queryBatchConversionRequestFields p))

/-- Whether the receiver knows a backend; an empty name keeps its own setting. -/
def isKnownBackend (backend : Bytes) : Bool :=
  backend.isEmpty || backend = utf8 "none" || backend = utf8 "openai"
    || backend = utf8 "local-zenzai"

/-- `ParseQueryBatchConversionRequest`. -/
def parseQueryBatchConversionRequest (json : Bytes) : Option QueryBatchConversionRequest := do
  let v ← parseObject json
  let reading ← v.getString (utf8 "reading")
  let aiAllowed := (v.getBool (utf8 "ai_allowed")).getD false
  let aiBackend := (v.getString (utf8 "ai_backend")).getD []
  if !isKnownBackend aiBackend then none
  else
    some {
      reading := reading
      rawRomaji := (v.getString (utf8 "raw_romaji")).getD []
      aiAllowed := aiAllowed
      externalAiAllowed := aiAllowed && (v.getBool (utf8 "external_ai_allowed")).getD false
      aiBackend := aiBackend
      mode := (v.getString (utf8 "mode")).getD (utf8 "neural")
      autoPunctuation := (v.getBool (utf8 "auto_punctuation")).getD false
      maxCandidates := ((v.getUInt (utf8 "max_candidates")).map UInt32.ofNat).getD 10
      englishCandidates := (v.getBool (utf8 "english_candidates")).getD false
      secure := (v.getBool (utf8 "secure")).getD true }

/-- `BatchConversionSegment`. -/
structure BatchConversionSegment where
  reading : Bytes
  candidates : List CandidateField
deriving DecidableEq

/-- The members of a segment of a batch. -/
def batchSegmentFields (segment : BatchConversionSegment) : List (Bytes × Option Value) :=
  [(utf8 "reading", some (.string segment.reading)),
    (utf8 "candidates", some (candidatesToJson segment.candidates))]

/-- `BatchSegmentToJson`. -/
def batchSegmentToJson (segment : BatchConversionSegment) : Value :=
  record (batchSegmentFields segment)

/-- `BatchSegmentFromJson`. -/
def batchSegmentFromJson (v : Value) : Option BatchConversionSegment := do
  let reading ← v.getString (utf8 "reading")
  some {
    reading := reading
    candidates := ((v.getArray (utf8 "candidates")).getD []).filterMap candidateFromJson }

/-- `QueryBatchConversionResponse`. -/
structure QueryBatchConversionResponse where
  segments : List BatchConversionSegment := []
  fullSurface : Bytes := []
  isPartial : Bool := false
  canceled : Bool := false
  errorClass : Option Bytes := none
deriving DecidableEq

/-- The members of an answer with a batch conversion. -/
def queryBatchConversionResponseFields (p : QueryBatchConversionResponse) :
    List (Bytes × Option Value) :=
  [(utf8 "segments", some (.array (p.segments.map batchSegmentToJson))),
    (utf8 "full_surface", some (.string p.fullSurface)),
    (utf8 "partial", some (.bool p.isPartial)),
    (utf8 "canceled", some (.bool p.canceled)),
    (utf8 "error_class", p.errorClass.map .string)]

/-- `BuildQueryBatchConversionResponse`. -/
def buildQueryBatchConversionResponse (p : QueryBatchConversionResponse) : Bytes :=
  stringify (record (queryBatchConversionResponseFields p))

/-- `ParseQueryBatchConversionResponse`. -/
def parseQueryBatchConversionResponse (json : Bytes) : Option QueryBatchConversionResponse := do
  let v ← parseObject json
  some {
    segments := ((v.getArray (utf8 "segments")).getD []).filterMap batchSegmentFromJson
    fullSurface := (v.getString (utf8 "full_surface")).getD []
    isPartial := (v.getBool (utf8 "partial")).getD false
    canceled := (v.getBool (utf8 "canceled")).getD false
    errorClass := v.getString (utf8 "error_class") }

/-! ## The observations -/

/-- The members of a commit. -/
def commitObservationRequestFields (p : CommitObservationRequest) : List (Bytes × Option Value) :=
  [(utf8 "reading", some (.string p.reading)),
    (utf8 "chosen", some (candidateToJson p.chosen)),
    (utf8 "shown", some (candidatesToJson p.shown)),
    (utf8 "left_context", some (.string p.leftContext)),
    (utf8 "timestamp_ms", some (.ofUInt64 p.timestampMs)),
    (utf8 "observation_id", some (.string p.observationId)),
    (utf8 "secure", some (.bool p.secure)),
    (utf8 "learning_allowed", some (.bool p.learningAllowed)),
    (utf8 "app", appToJson p.app)]

/-- `BuildCommitObservationRequest`. -/
def buildCommitObservationRequest (p : CommitObservationRequest) : Bytes :=
  stringify (record (commitObservationRequestFields p))

/-- The members of an observed segment. -/
def observedSegmentFields (segment : ObservedSegment) : List (Bytes × Option Value) :=
  [(utf8 "reading", some (.string segment.reading)),
    (utf8 "chosen", some (candidateToJson segment.chosen)),
    (utf8 "shown", some (candidatesToJson segment.shown)),
    (utf8 "is_auto_punctuation", some (.bool segment.isAutoPunctuation))]

/-- An element of the `segments` that are observed. -/
def observedSegmentToJson (segment : ObservedSegment) : Value :=
  record (observedSegmentFields segment)

/-- The members of a commit of segments. -/
def commitSegmentsObservationRequestFields (p : CommitSegmentsObservationRequest) :
    List (Bytes × Option Value) :=
  [(utf8 "segments", some (.array (p.segments.map observedSegmentToJson))),
    (utf8 "left_context", some (.string p.leftContext)),
    (utf8 "timestamp_ms", some (.ofUInt64 p.timestampMs)),
    (utf8 "observation_id", some (.string p.observationId)),
    (utf8 "secure", some (.bool p.secure)),
    (utf8 "learning_allowed", some (.bool p.learningAllowed)),
    (utf8 "app", appToJson p.app)]

/-- `BuildCommitSegmentsObservationRequest`. -/
def buildCommitSegmentsObservationRequest (p : CommitSegmentsObservationRequest) : Bytes :=
  stringify (record (commitSegmentsObservationRequestFields p))

/-- The members of a correction. -/
def commitCorrectionRequestFields (p : CommitCorrectionRequest) : List (Bytes × Option Value) :=
  [(utf8 "kind", some (.string p.kind)),
    (utf8 "reading", some (.string p.reading)),
    (utf8 "rejected_surface", some (.string p.rejectedSurface)),
    (utf8 "selected_surface", p.selectedSurface.map .string),
    (utf8 "left_context", some (.string p.leftContext)),
    (utf8 "timestamp_ms", some (.ofUInt64 p.timestampMs)),
    (utf8 "observation_id", some (.string p.observationId)),
    (utf8 "secure", some (.bool p.secure)),
    (utf8 "learning_allowed", some (.bool p.learningAllowed)),
    (utf8 "app", appToJson p.app)]

/-- `BuildCommitCorrectionRequest`. -/
def buildCommitCorrectionRequest (p : CommitCorrectionRequest) : Bytes :=
  stringify (record (commitCorrectionRequestFields p))

end AzooKey.Ipc

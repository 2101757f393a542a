import AzooKey.Ipc.PayloadWriters

/-!
# What is written is what is read

A payload that satisfies what its reader asks for is written as a text from
which the reader makes the same payload, with all its candidates, segments and
readings: none of the elements that the readers pass over is one that a writer
writes, and every member that is left out is read as the value for which it
was left out.

The one loss is the length of the text, which the writers do not look at and
of which the JSON reader takes `kMaxJsonInputBytes`. `InverseWithin` states
both halves: within the limit the payload is read back, and beyond it nothing
is read.
-/

namespace AzooKey.Ipc

open Json

/-! ## Well-formed payloads -/

/-- **A segment that its reader takes.** -/
structure LiveSegment.WellFormed (s : LiveSegment) : Prop where
  order : s.startChar ≤ s.endChar
  score : Keeps s.score
  surface : ValidUtf8 s.surface
  reading : ValidUtf8 s.reading
  punctuation : s.autoPunctuation = true → s.reading = []

/-- A candidate whose text is valid, with segments that are. -/
structure CandidateField.WellFormed (c : CandidateField) : Prop where
  surface : ValidUtf8 c.surface
  reading : ValidUtf8 c.reading
  score : Keeps c.score
  source : ValidUtf8 c.source
  description : ValidUtf8 c.description
  segments : ∀ s ∈ c.segments, s.WellFormed

/-- An application that has a name. -/
structure AppIdentity.WellFormed (a : AppIdentity) : Prop where
  processName : ValidUtf8 a.processName
  windowClass : ValidUtf8 a.windowClass
  named : a.processName ≠ [] ∨ a.windowClass ≠ []

/-- **A request for candidates that its reader takes.** -/
structure QueryCandidatesRequest.WellFormed (p : QueryCandidatesRequest) : Prop where
  reading : ValidUtf8 p.reading
  leftContext : ValidUtf8 p.leftContext
  punctuationStyle : ValidUtf8 p.punctuationStyle
  emojiTrigger : ValidUtf8 p.emojiTrigger
  app : ∀ a ∈ p.app, a.WellFormed
  rawRomaji : ValidUtf8 p.rawRomaji
  altReadings : ∀ r ∈ p.altReadings, ValidUtf8 r ∧ r ≠ []
  altReadings_length : p.altReadings.length ≤ maxAltReadings

/-- An answer with candidates whose text is valid. -/
structure QueryCandidatesResponse.WellFormed (p : QueryCandidatesResponse) : Prop where
  candidates : ∀ c ∈ p.candidates, c.WellFormed
  segments : ∀ s ∈ p.segments, s.WellFormed
  error : ∀ text ∈ p.error, ValidUtf8 text
  correctedReading : ValidUtf8 p.correctedReading

/-- A request for a live conversion whose text is valid. -/
structure QueryLiveConversionRequest.WellFormed (p : QueryLiveConversionRequest) : Prop where
  kana : ValidUtf8 p.kana
  context : ValidUtf8 p.context
  punctuationStyle : ValidUtf8 p.punctuationStyle
  rawRomaji : ValidUtf8 p.rawRomaji

/-- An answer with a live conversion: the confidence is from zero to one. -/
structure QueryLiveConversionResponse.WellFormed (p : QueryLiveConversionResponse) : Prop where
  surface : ValidUtf8 p.surface
  confidence : Keeps p.confidence
  zero_le : Double.ieeeLe (.finite (.zero false)) p.confidence = true
  le_one : p.confidence.ieeeLe (.finite (.ofInt 1 (by norm_num))) = true
  segments : ∀ s ∈ p.segments, s.WellFormed

/-- A request for a batch conversion: the backend is known, and an external one
is allowed only where any is. -/
structure QueryBatchConversionRequest.WellFormed (p : QueryBatchConversionRequest) : Prop where
  reading : ValidUtf8 p.reading
  rawRomaji : ValidUtf8 p.rawRomaji
  mode : ValidUtf8 p.mode
  aiBackend : ValidUtf8 p.aiBackend
  aiBackend_known : isKnownBackend p.aiBackend = true
  externalAiAllowed : p.externalAiAllowed = true → p.aiAllowed = true

/-- A segment of a batch whose text is valid. -/
structure BatchConversionSegment.WellFormed (s : BatchConversionSegment) : Prop where
  reading : ValidUtf8 s.reading
  candidates : ∀ c ∈ s.candidates, c.WellFormed

/-- An answer with a batch conversion whose text is valid. -/
structure QueryBatchConversionResponse.WellFormed (p : QueryBatchConversionResponse) : Prop where
  segments : ∀ s ∈ p.segments, s.WellFormed
  fullSurface : ValidUtf8 p.fullSurface
  errorClass : ∀ text ∈ p.errorClass, ValidUtf8 text

/-- A commit whose text is valid. -/
structure CommitObservationRequest.WellFormed (p : CommitObservationRequest) : Prop where
  reading : ValidUtf8 p.reading
  chosen : p.chosen.WellFormed
  shown : ∀ c ∈ p.shown, c.WellFormed
  leftContext : ValidUtf8 p.leftContext
  observationId : ValidUtf8 p.observationId
  app : ∀ a ∈ p.app, a.WellFormed

/-- An observed segment: something was chosen, and only an inserted mark has no
reading. -/
structure ObservedSegment.WellFormed (s : ObservedSegment) : Prop where
  reading : ValidUtf8 s.reading
  chosen : s.chosen.WellFormed
  chosen_surface : s.chosen.surface ≠ []
  shown : ∀ c ∈ s.shown, c.WellFormed
  punctuation : s.reading = [] → s.isAutoPunctuation = true

/-- **A commit of segments**, of which there is one. -/
structure CommitSegmentsObservationRequest.WellFormed (p : CommitSegmentsObservationRequest) :
    Prop where
  segments : ∀ s ∈ p.segments, s.WellFormed
  segments_ne : p.segments ≠ []
  leftContext : ValidUtf8 p.leftContext
  observationId : ValidUtf8 p.observationId
  app : ∀ a ∈ p.app, a.WellFormed

/-- **A correction** whose kind agrees with what was selected. -/
structure CommitCorrectionRequest.WellFormed (p : CommitCorrectionRequest) : Prop where
  kind : ValidUtf8 p.kind
  reading : ValidUtf8 p.reading
  reading_ne : p.reading ≠ []
  rejectedSurface : ValidUtf8 p.rejectedSurface
  rejectedSurface_ne : p.rejectedSurface ≠ []
  selectedSurface : ∀ text ∈ p.selectedSurface, ValidUtf8 text
  agrees : correctionAgrees p.kind p.rejectedSurface p.selectedSurface = true
  leftContext : ValidUtf8 p.leftContext
  observationId : ValidUtf8 p.observationId
  app : ∀ a ∈ p.app, a.WellFormed

/-! ## Candidates -/

/-- A byte is read as it was written. -/
theorem readByte_eq {v : Value} {field : Bytes} {n : UInt8}
    (h : (v.getUInt field).getD 0 = n.toNat) : readByte v field = n := by
  have hlt := n.toNat_lt
  unfold readByte
  simp only [h]
  rw [if_pos (by omega), UInt8.ofNat_toNat]

/-- A byte that is always written. -/
theorem readByte_of_getUInt {v : Value} {field : Bytes} {n : UInt8}
    (h : v.getUInt field = some n.toUInt64.toNat) : readByte v field = n :=
  readByte_eq (by rw [h]; exact UInt8.toNat_toUInt64 n)

/-- The keys of a segment. -/
theorem fieldKeys_liveSegment (s : LiveSegment) :
    FieldKeys ((liveSegmentFields s).map Prod.fst) := by
  simp only [liveSegmentFields, List.map_cons, List.map_nil]
  decide

/-- **A segment travels.** -/
theorem travels_liveSegment {s : LiveSegment} (h : s.WellFormed) :
    Travels liveSegmentFromJson 1 (liveSegmentToJson s) s := by
  refine .of_record (fieldKeys_liveSegment s) (fun room => ?_) (fun room w hback => ?_)
  · simp only [liveSegmentFields, List.forall_mem_cons, List.not_mem_nil, false_implies,
      implies_true, and_true]
    exact ⟨.ofUInt64 _, .ofUInt64 _, .ofDouble h.score, .bool _, .string h.surface,
      .string h.reading, .ofUInt64 _, .ofUInt64 _, .ofUInt64 _, .ofUInt64 _, .unlessZero _⟩
  · have hstart : w.getUInt (utf8 "start_char") = some s.startChar.toUInt64.toNat :=
      hback.getUInt (by simp [liveSegmentFields])
    have hend : w.getUInt (utf8 "end_char") = some s.endChar.toUInt64.toNat :=
      hback.getUInt (by simp [liveSegmentFields])
    have hscore : w.getNumber (utf8 "score") = some s.score :=
      hback.getNumber h.score (by simp [liveSegmentFields])
    have hauto : w.getBool (utf8 "auto_punctuation") = some s.autoPunctuation :=
      hback.getBool (by simp [liveSegmentFields])
    have hsurface : w.getString (utf8 "surface") = some s.surface :=
      hback.getString (by simp [liveSegmentFields])
    have hreading : w.getString (utf8 "reading") = some s.reading :=
      hback.getString (by simp [liveSegmentFields])
    have hpos : readByte w (utf8 "pos") = s.pos :=
      readByte_of_getUInt (hback.getUInt (by simp [liveSegmentFields]))
    have hheadPos : readByte w (utf8 "head_pos") = s.headPos :=
      readByte_of_getUInt (hback.getUInt (by simp [liveSegmentFields]))
    have hsem : readByte w (utf8 "sem") = s.sem :=
      readByte_of_getUInt (hback.getUInt (by simp [liveSegmentFields]))
    have hheadSem : readByte w (utf8 "head_sem") = s.headSem :=
      readByte_of_getUInt (hback.getUInt (by simp [liveSegmentFields]))
    have htag : readByte w (utf8 "tag") = s.tag :=
      readByte_eq (hback.getUInt_getD (by simp [liveSegmentFields]))
    have horder : s.startChar.toNat ≤ s.endChar.toNat := h.order
    have hlt₁ := s.startChar.toNat_lt
    have hlt₂ := s.endChar.toNat_lt
    have hpunct : (s.autoPunctuation && !s.reading.isEmpty) = false := by
      cases hp : s.autoPunctuation with
      | false => rfl
      | true => rw [h.punctuation hp]; rfl
    unfold liveSegmentFromJson
    simp only [hstart, hend, hscore, hsurface, hauto, hreading, hpos, hheadPos, hsem, hheadSem,
      htag, UInt32.toNat_toUInt64, Option.getD_some, hpunct, Bool.false_eq_true, if_false]
    rw [if_neg (by omega), UInt32.ofNat_toNat, UInt32.ofNat_toNat]

section Members

variable {room : ℕ} {fields : List (Bytes × Option Value)} {w : Value} {key : Bytes}

/-- Segments are written. -/
theorem written_liveSegments {segments : List LiveSegment} (h : ∀ s ∈ segments, s.WellFormed) :
    Written (room + 2) (liveSegmentsToJson segments) :=
  .unlessNone (exists_prints_of_travels (fun s hs => travels_liveSegment (h s hs)) (by omega))

/-- **Segments are read back**, none of them passed over. -/
theorem liveSegmentsFromJson_eq {segments : List LiveSegment} (h : ∀ s ∈ segments, s.WellFormed)
    (hback : ReadBack room fields w)
    (hmem : (utf8 "segments", liveSegmentsToJson segments) ∈ fields) :
    liveSegmentsFromJson w = segments := by
  obtain ⟨inner, hws⟩ := hback.getArray_getD hmem
  exact filterMap_of_forall₂ (forall₂_of_travels (fun s hs => travels_liveSegment (h s hs)) hws)

/-- The keys of a candidate. -/
theorem fieldKeys_candidate (c : CandidateField) :
    FieldKeys ((candidateFields c).map Prod.fst) := by
  simp only [candidateFields, List.map_cons, List.map_nil]
  decide

/-- **A candidate travels.** -/
theorem travels_candidate {c : CandidateField} (h : c.WellFormed) :
    Travels candidateFromJson 3 (candidateToJson c) c := by
  refine .of_record (fieldKeys_candidate c) (fun room => ?_) (fun room w hback => ?_)
  · simp only [candidateFields, List.forall_mem_cons, List.not_mem_nil, false_implies,
      implies_true, and_true]
    exact ⟨.string h.surface, .string h.reading, .ofDouble h.score, .string h.source,
      .unlessEmpty h.description, .unlessZero _, written_liveSegments h.segments⟩
  · have hsurface : w.getString (utf8 "surface") = some c.surface :=
      hback.getString (by simp [candidateFields])
    have hreading : w.getString (utf8 "reading") = some c.reading :=
      hback.getString (by simp [candidateFields])
    have hscore : w.getNumber (utf8 "score") = some c.score :=
      hback.getNumber h.score (by simp [candidateFields])
    have hsource : w.getString (utf8 "source") = some c.source :=
      hback.getString (by simp [candidateFields])
    have hdescription : (w.getString (utf8 "description")).getD [] = c.description :=
      hback.getString_getD (by simp [candidateFields])
    have htag : readByte w (utf8 "tag") = c.tag :=
      readByte_eq (hback.getUInt_getD (by simp [candidateFields]))
    have hsegments : liveSegmentsFromJson w = c.segments :=
      liveSegmentsFromJson_eq h.segments hback (by simp [candidateFields])
    unfold candidateFromJson
    simp only [hsurface, hreading, hscore, hsource, hdescription, htag, hsegments,
      Option.getD_some]

/-- Candidates are written. -/
theorem written_candidates {cs : List CandidateField} (h : ∀ c ∈ cs, c.WellFormed) :
    Written (room + 4) (some (candidatesToJson cs)) :=
  .array (exists_prints_of_travels (fun c hc => travels_candidate (h c hc)) (by omega))

/-- **Candidates are read back**, each of them. -/
theorem exists_getArray_candidates {cs : List CandidateField} (h : ∀ c ∈ cs, c.WellFormed)
    (hback : ReadBack room fields w) (hmem : (key, some (candidatesToJson cs)) ∈ fields) :
    ∃ ws, w.getArray key = some ws
      ∧ List.Forall₂ (fun c w => candidateFromJson w = some c) cs ws := by
  obtain ⟨inner, ws, hfind, hws⟩ := hback.getArray hmem
  exact ⟨ws, hfind, forall₂_of_travels (fun c hc => travels_candidate (h c hc)) hws⟩

/-- Candidates are read back, none of them passed over. -/
theorem filterMap_candidates {cs : List CandidateField} (h : ∀ c ∈ cs, c.WellFormed)
    (hback : ReadBack room fields w) (hmem : (key, some (candidatesToJson cs)) ∈ fields) :
    ((w.getArray key).getD []).filterMap candidateFromJson = cs := by
  obtain ⟨ws, hfind, hws⟩ := exists_getArray_candidates h hback hmem
  rw [hfind]
  exact filterMap_of_forall₂ hws

/-- The candidate that was chosen. -/
theorem exists_find_candidate {c : CandidateField} (h : c.WellFormed)
    (hback : ReadBack room fields w) (hmem : (key, some (candidateToJson c)) ∈ fields) :
    ∃ w', w.find key = some w' ∧ candidateFromJson w' = some c := by
  obtain ⟨w', hfind, hprints⟩ := hback.exists_find hmem
  exact ⟨w', hfind, (travels_candidate h).reads room w' hprints⟩

/-- The keys of an application. -/
theorem fieldKeys_app (a : AppIdentity) : FieldKeys ((appFields a).map Prod.fst) := by
  simp only [appFields, List.map_cons, List.map_nil]
  decide

/-- An application is written. -/
theorem written_app {app : Option AppIdentity} (h : ∀ a ∈ app, a.WellFormed) :
    Written (room + 1) (appToJson app) := by
  cases app with
  | none => exact .none
  | some a =>
    refine .some (exists_prints_record (fieldKeys_app a) ?_)
    simp only [appFields, List.forall_mem_cons, List.not_mem_nil, false_implies, implies_true,
      and_true]
    exact ⟨.string (h a rfl).processName, .string (h a rfl).windowClass⟩

/-- **An application is read back.** -/
theorem appFromJson_eq {app : Option AppIdentity} (h : ∀ a ∈ app, a.WellFormed)
    (hback : ReadBack room fields w) (hmem : (utf8 "app", appToJson app) ∈ fields) :
    appFromJson w = app := by
  unfold appFromJson
  cases app with
  | none => rw [Value.findObject, hback.find_none hmem]
  | some a =>
    obtain ⟨w', hfind, hprints⟩ := hback.exists_find hmem
    obtain ⟨inner, -, hinner⟩ := readBack_of_prints (fieldKeys_app a) hprints
    have hprocess : w'.getString (utf8 "process_name") = some a.processName :=
      hinner.getString (by simp [appFields])
    have hwindow : w'.getString (utf8 "window_class") = some a.windowClass :=
      hinner.getString (by simp [appFields])
    have hnamed : (a.processName.isEmpty && a.windowClass.isEmpty) = false := by
      rcases (h a rfl).named with hn | hn <;> simp [hn]
    have hobject : w.findObject (utf8 "app") = some w' := by
      cases w' with
      | object ms => rw [Value.findObject, hfind]
      | _ => cases hinner.isObject
    simp only [hobject, hprocess, hwindow, Option.getD_some, hnamed, Bool.false_eq_true, if_false]

end Members

/-! ## Messages -/

/-- **A message is read back within the limit**: the text of a record is read
as what its members are read as, unless it is longer than the reader takes. -/
theorem bind_parseObject_record {α : Type} {fields : List (Bytes × Option Value)}
    {read : Value → Option α} {a : α} (hkeys : FieldKeys (fields.map Prod.fst))
    (hwritten : ∀ field ∈ fields, Written 63 field.2)
    (hreads : ∀ room w, ReadBack room fields w → read w = some a) :
    (parseObject (stringify (record fields)) >>= read)
      = if (stringify (record fields)).length ≤ maxJsonInputBytes then some a else none := by
  obtain ⟨w, hw⟩ := exists_prints_record hkeys hwritten
  obtain ⟨inner, -, hback⟩ := readBack_of_prints hkeys hw
  unfold parseObject
  rw [parse_stringify (show Prints maxJsonNestDepth (record fields) w from hw)]
  split
  · rw [Option.filter_some, if_pos hback.isObject]
    exact hreads inner w hback
  · rfl

/-- A string that is not empty travels. -/
theorem travels_altReading {r : Bytes} (h : ValidUtf8 r ∧ r ≠ []) :
    Travels nonEmptyString 0 (.string r) r where
  written := fun room => exists_prints_string _ h.1
  reads := fun room w hw => by
    rw [eq_of_prints_string hw, nonEmptyString, if_neg (by simpa using h.2)]

/-- The other readings are read back. -/
theorem altReadingsFromJson_eq {readings : List Bytes} (h : ∀ r ∈ readings, ValidUtf8 r ∧ r ≠ [])
    (hlength : readings.length ≤ maxAltReadings) {room : ℕ} {fields : List (Bytes × Option Value)}
    {w : Value} (hback : ReadBack room fields w)
    (hmem : (utf8 "alt_readings", altReadingsToJson readings) ∈ fields) :
    altReadingsFromJson w = readings := by
  obtain ⟨inner, hws⟩ := hback.getArray_getD hmem
  have hread := forall₂_of_travels (fun r hr => travels_altReading (h r hr)) hws
  unfold altReadingsFromJson
  rw [filterMap_of_forall₂ hread, List.take_of_length_le hlength]

/-- The keys of a request for candidates. -/
theorem fieldKeys_queryCandidatesRequest (p : QueryCandidatesRequest) :
    FieldKeys ((queryCandidatesRequestFields p).map Prod.fst) := by
  simp only [queryCandidatesRequestFields, List.map_cons, List.map_nil]
  decide

/-- **A request for candidates is read back.** -/
theorem parse_buildQueryCandidatesRequest {p : QueryCandidatesRequest} (h : p.WellFormed) :
    parseQueryCandidatesRequest (buildQueryCandidatesRequest p)
      = if (buildQueryCandidatesRequest p).length ≤ maxJsonInputBytes then some p else none := by
  refine bind_parseObject_record (fieldKeys_queryCandidatesRequest p) ?_ (fun room w hback => ?_)
  · simp only [queryCandidatesRequestFields, List.forall_mem_cons, List.not_mem_nil,
      false_implies, implies_true, and_true]
    have halt : Written 63 (altReadingsToJson p.altReadings) :=
      .unlessNone (exists_prints_of_travels (fun r hr => travels_altReading (h.altReadings r hr))
        (Nat.zero_le 62))
    exact ⟨.string h.reading, .string h.leftContext, .ofUInt64 _, .bool _, .bool _,
      .string h.punctuationStyle, .unlessEmpty h.emojiTrigger, .bool _, .bool _,
      written_app h.app, .unlessEmpty h.rawRomaji, .onlyTrue _, .onlyTrue _, halt⟩
  · have hreading : w.getString (utf8 "reading") = some p.reading :=
      hback.getString (by simp [queryCandidatesRequestFields])
    have hcontext : w.getString (utf8 "left_context") = some p.leftContext :=
      hback.getString (by simp [queryCandidatesRequestFields])
    have hmax : w.getUInt (utf8 "max_candidates") = some p.maxCandidates.toUInt64.toNat :=
      hback.getUInt (by simp [queryCandidatesRequestFields])
    have hlive : w.getBool (utf8 "live") = some p.live :=
      hback.getBool (by simp [queryCandidatesRequestFields])
    have hauto : w.getBool (utf8 "auto_punctuation") = some p.autoPunctuation :=
      hback.getBool (by simp [queryCandidatesRequestFields])
    have hstyle : w.getString (utf8 "punctuation_style") = some p.punctuationStyle :=
      hback.getString (by simp [queryCandidatesRequestFields])
    have hemoji : (w.getString (utf8 "emoji_trigger")).getD [] = p.emojiTrigger :=
      hback.getString_getD (by simp [queryCandidatesRequestFields])
    have hsecure : w.getBool (utf8 "secure") = some p.secure :=
      hback.getBool (by simp [queryCandidatesRequestFields])
    have hallowed : w.getBool (utf8 "learning_allowed") = some p.learningAllowed :=
      hback.getBool (by simp [queryCandidatesRequestFields])
    have happ : appFromJson w = p.app :=
      appFromJson_eq h.app hback (by simp [queryCandidatesRequestFields])
    have hromaji : (w.getString (utf8 "raw_romaji")).getD [] = p.rawRomaji :=
      hback.getString_getD (by simp [queryCandidatesRequestFields])
    have henglish : (w.getBool (utf8 "english_candidates")).getD false = p.englishCandidates :=
      hback.getBool_getD_false (by simp [queryCandidatesRequestFields])
    have hmixed : (w.getBool (utf8 "mixed_english")).getD false = p.mixedEnglish :=
      hback.getBool_getD_false (by simp [queryCandidatesRequestFields])
    have halt : altReadingsFromJson w = p.altReadings :=
      altReadingsFromJson_eq h.altReadings h.altReadings_length hback
        (by simp [queryCandidatesRequestFields])
    simp only [hreading, hcontext, hmax, hlive, hauto, hstyle, hemoji, hsecure, hallowed, happ,
      hromaji, henglish, hmixed, halt, Option.getD_some, Option.map_some, Option.bind_eq_bind,
      Option.bind_some, UInt32.toNat_toUInt64, UInt32.ofNat_toNat]

/-- The keys of an answer with candidates. -/
theorem fieldKeys_queryCandidatesResponse (p : QueryCandidatesResponse) :
    FieldKeys ((queryCandidatesResponseFields p).map Prod.fst) := by
  simp only [queryCandidatesResponseFields, List.map_cons, List.map_nil]
  decide

/-- **An answer with candidates is read back.** -/
theorem parse_buildQueryCandidatesResponse {p : QueryCandidatesResponse} (h : p.WellFormed) :
    parseQueryCandidatesResponse (buildQueryCandidatesResponse p)
      = if (buildQueryCandidatesResponse p).length ≤ maxJsonInputBytes then some p else none := by
  refine bind_parseObject_record (fieldKeys_queryCandidatesResponse p) ?_ (fun room w hback => ?_)
  · simp only [queryCandidatesResponseFields, List.forall_mem_cons, List.not_mem_nil,
      false_implies, implies_true, and_true]
    exact ⟨.onlyFalse _, .map_string h.error, written_candidates h.candidates, .bool _,
      written_liveSegments h.segments, .unlessEmpty h.correctedReading⟩
  · have hok : (w.getBool (utf8 "ok")).getD true = p.ok :=
      hback.getBool_getD_true (by simp [queryCandidatesResponseFields])
    have herror : w.getString (utf8 "error") = p.error :=
      hback.getString_map (by simp [queryCandidatesResponseFields])
    have hcandidates : ((w.getArray (utf8 "candidates")).getD []).filterMap candidateFromJson
        = p.candidates :=
      filterMap_candidates h.candidates hback (by simp [queryCandidatesResponseFields])
    have hpartial : w.getBool (utf8 "partial") = some p.isPartial :=
      hback.getBool (by simp [queryCandidatesResponseFields])
    have hsegments : liveSegmentsFromJson w = p.segments :=
      liveSegmentsFromJson_eq h.segments hback (by simp [queryCandidatesResponseFields])
    have hcorrected : (w.getString (utf8 "corrected_reading")).getD [] = p.correctedReading :=
      hback.getString_getD (by simp [queryCandidatesResponseFields])
    simp only [hok, herror, hcandidates, hpartial, hsegments, hcorrected, Option.getD_some]

/-- The keys of a request for a live conversion. -/
theorem fieldKeys_queryLiveConversionRequest (p : QueryLiveConversionRequest) :
    FieldKeys ((queryLiveConversionRequestFields p).map Prod.fst) := by
  simp only [queryLiveConversionRequestFields, List.map_cons, List.map_nil]
  decide

/-- **A request for a live conversion is read back.** -/
theorem parse_buildQueryLiveConversionRequest {p : QueryLiveConversionRequest}
    (h : p.WellFormed) :
    parseQueryLiveConversionRequest (buildQueryLiveConversionRequest p)
      = if (buildQueryLiveConversionRequest p).length ≤ maxJsonInputBytes then some p
        else none := by
  refine bind_parseObject_record (fieldKeys_queryLiveConversionRequest p) ?_
    (fun room w hback => ?_)
  · simp only [queryLiveConversionRequestFields, List.forall_mem_cons, List.not_mem_nil,
      false_implies, implies_true, and_true]
    exact ⟨.string h.kana, .string h.context, .bool _, .string h.punctuationStyle,
      .unlessEmpty h.rawRomaji, .onlyTrue _, .onlyFalse _⟩
  · have hkana : w.getString (utf8 "kana") = some p.kana :=
      hback.getString (by simp [queryLiveConversionRequestFields])
    have hcontext : w.getString (utf8 "context") = some p.context :=
      hback.getString (by simp [queryLiveConversionRequestFields])
    have hauto : w.getBool (utf8 "auto_punctuation") = some p.autoPunctuation :=
      hback.getBool (by simp [queryLiveConversionRequestFields])
    have hstyle : w.getString (utf8 "punctuation_style") = some p.punctuationStyle :=
      hback.getString (by simp [queryLiveConversionRequestFields])
    have hromaji : (w.getString (utf8 "raw_romaji")).getD [] = p.rawRomaji :=
      hback.getString_getD (by simp [queryLiveConversionRequestFields])
    have hmixed : (w.getBool (utf8 "mixed_english")).getD false = p.mixedEnglish :=
      hback.getBool_getD_false (by simp [queryLiveConversionRequestFields])
    have hsecure : (w.getBool (utf8 "secure")).getD true = p.secure :=
      hback.getBool_getD_true (by simp [queryLiveConversionRequestFields])
    simp only [hkana, hcontext, hauto, hstyle, hromaji, hmixed, hsecure, Option.getD_some,
      Option.bind_eq_bind, Option.bind_some]

/-- A confidence from zero to one is taken. -/
theorem confidenceOutside_eq_false {x : Double} (hx : Keeps x)
    (hzero : Double.ieeeLe (.finite (.zero false)) x = true)
    (hone : x.ieeeLe (.finite (.ofInt 1 (by norm_num))) = true) : confidenceOutside x = false := by
  obtain ⟨hfinite, -⟩ := hx
  cases x with
  | infinity _ => cases hfinite
  | nan => cases hfinite
  | finite b =>
    simp only [Double.ieeeLe, Double.ieeeLt, Double.ieeeEq, Bool.or_eq_true, decide_eq_true_eq]
      at hzero hone
    unfold confidenceOutside
    simp only [Double.isFinite, Double.ieeeLt, Bool.not_true, Bool.false_or, Bool.or_eq_false_iff,
      decide_eq_false_iff_not, not_lt]
    exact ⟨by rcases hzero with h | h <;> linarith, by rcases hone with h | h <;> linarith⟩

/-- The keys of an answer with a live conversion. -/
theorem fieldKeys_queryLiveConversionResponse (p : QueryLiveConversionResponse) :
    FieldKeys ((queryLiveConversionResponseFields p).map Prod.fst) := by
  simp only [queryLiveConversionResponseFields, List.map_cons, List.map_nil]
  decide

/-- **An answer with a live conversion is read back.** -/
theorem parse_buildQueryLiveConversionResponse {p : QueryLiveConversionResponse}
    (h : p.WellFormed) :
    parseQueryLiveConversionResponse (buildQueryLiveConversionResponse p)
      = if (buildQueryLiveConversionResponse p).length ≤ maxJsonInputBytes then some p
        else none := by
  refine bind_parseObject_record (fieldKeys_queryLiveConversionResponse p) ?_
    (fun room w hback => ?_)
  · simp only [queryLiveConversionResponseFields, List.forall_mem_cons, List.not_mem_nil,
      false_implies, implies_true, and_true]
    exact ⟨.string h.surface, .ofDouble h.confidence, written_liveSegments h.segments⟩
  · have hsurface : w.getString (utf8 "surface") = some p.surface :=
      hback.getString (by simp [queryLiveConversionResponseFields])
    have hconfidence : w.getNumber (utf8 "confidence") = some p.confidence :=
      hback.getNumber h.confidence (by simp [queryLiveConversionResponseFields])
    have hsegments : liveSegmentsFromJson w = p.segments :=
      liveSegmentsFromJson_eq h.segments hback (by simp [queryLiveConversionResponseFields])
    have hinside := confidenceOutside_eq_false h.confidence h.zero_le h.le_one
    simp only [hsurface, hconfidence, hsegments, hinside, Option.bind_eq_bind, Option.bind_some,
      Bool.false_eq_true, if_false]

/-- The keys of a request for a batch conversion. -/
theorem fieldKeys_queryBatchConversionRequest (p : QueryBatchConversionRequest) :
    FieldKeys ((queryBatchConversionRequestFields p).map Prod.fst) := by
  simp only [queryBatchConversionRequestFields, List.map_cons, List.map_nil]
  decide

/-- **A request for a batch conversion is read back.** -/
theorem parse_buildQueryBatchConversionRequest {p : QueryBatchConversionRequest}
    (h : p.WellFormed) :
    parseQueryBatchConversionRequest (buildQueryBatchConversionRequest p)
      = if (buildQueryBatchConversionRequest p).length ≤ maxJsonInputBytes then some p
        else none := by
  refine bind_parseObject_record (fieldKeys_queryBatchConversionRequest p) ?_
    (fun room w hback => ?_)
  · simp only [queryBatchConversionRequestFields, List.forall_mem_cons, List.not_mem_nil,
      false_implies, implies_true, and_true]
    exact ⟨.string h.reading, .unlessEmpty h.rawRomaji, .bool _, .bool _,
      .unlessEmpty h.aiBackend, .string h.mode, .bool _, .ofUInt64 _, .onlyTrue _, .onlyFalse _⟩
  · have hreading : w.getString (utf8 "reading") = some p.reading :=
      hback.getString (by simp [queryBatchConversionRequestFields])
    have hromaji : (w.getString (utf8 "raw_romaji")).getD [] = p.rawRomaji :=
      hback.getString_getD (by simp [queryBatchConversionRequestFields])
    have hai : w.getBool (utf8 "ai_allowed") = some p.aiAllowed :=
      hback.getBool (by simp [queryBatchConversionRequestFields])
    have hexternal : w.getBool (utf8 "external_ai_allowed") = some p.externalAiAllowed :=
      hback.getBool (by simp [queryBatchConversionRequestFields])
    have hbackend : (w.getString (utf8 "ai_backend")).getD [] = p.aiBackend :=
      hback.getString_getD (by simp [queryBatchConversionRequestFields])
    have hmode : w.getString (utf8 "mode") = some p.mode :=
      hback.getString (by simp [queryBatchConversionRequestFields])
    have hauto : w.getBool (utf8 "auto_punctuation") = some p.autoPunctuation :=
      hback.getBool (by simp [queryBatchConversionRequestFields])
    have hmax : w.getUInt (utf8 "max_candidates") = some p.maxCandidates.toUInt64.toNat :=
      hback.getUInt (by simp [queryBatchConversionRequestFields])
    have henglish : (w.getBool (utf8 "english_candidates")).getD false = p.englishCandidates :=
      hback.getBool_getD_false (by simp [queryBatchConversionRequestFields])
    have hsecure : (w.getBool (utf8 "secure")).getD true = p.secure :=
      hback.getBool_getD_true (by simp [queryBatchConversionRequestFields])
    have hboth : (p.aiAllowed && p.externalAiAllowed) = p.externalAiAllowed := by
      cases hp : p.externalAiAllowed with
      | false => exact Bool.and_false _
      | true => rw [h.externalAiAllowed hp]; rfl
    simp only [hreading, hromaji, hai, hexternal, hbackend, hmode, hauto, hmax, henglish, hsecure,
      hboth, h.aiBackend_known, Option.getD_some, Option.map_some, Option.bind_eq_bind,
      Option.bind_some, UInt32.toNat_toUInt64, UInt32.ofNat_toNat, Bool.not_true,
      Bool.false_eq_true, if_false]

/-- The keys of a segment of a batch. -/
theorem fieldKeys_batchSegment (s : BatchConversionSegment) :
    FieldKeys ((batchSegmentFields s).map Prod.fst) := by
  simp only [batchSegmentFields, List.map_cons, List.map_nil]
  decide

/-- **A segment of a batch travels.** -/
theorem travels_batchSegment {s : BatchConversionSegment} (h : s.WellFormed) :
    Travels batchSegmentFromJson 5 (batchSegmentToJson s) s := by
  refine .of_record (fieldKeys_batchSegment s) (fun room => ?_) (fun room w hback => ?_)
  · simp only [batchSegmentFields, List.forall_mem_cons, List.not_mem_nil, false_implies,
      implies_true, and_true]
    exact ⟨.string h.reading, written_candidates h.candidates⟩
  · have hreading : w.getString (utf8 "reading") = some s.reading :=
      hback.getString (by simp [batchSegmentFields])
    have hcandidates : ((w.getArray (utf8 "candidates")).getD []).filterMap candidateFromJson
        = s.candidates :=
      filterMap_candidates h.candidates hback (by simp [batchSegmentFields])
    unfold batchSegmentFromJson
    simp only [hreading, hcandidates, Option.bind_eq_bind, Option.bind_some]

/-- The keys of an answer with a batch conversion. -/
theorem fieldKeys_queryBatchConversionResponse (p : QueryBatchConversionResponse) :
    FieldKeys ((queryBatchConversionResponseFields p).map Prod.fst) := by
  simp only [queryBatchConversionResponseFields, List.map_cons, List.map_nil]
  decide

/-- **An answer with a batch conversion is read back.** -/
theorem parse_buildQueryBatchConversionResponse {p : QueryBatchConversionResponse}
    (h : p.WellFormed) :
    parseQueryBatchConversionResponse (buildQueryBatchConversionResponse p)
      = if (buildQueryBatchConversionResponse p).length ≤ maxJsonInputBytes then some p
        else none := by
  have htravels : ∀ s ∈ p.segments, Travels batchSegmentFromJson 5 (batchSegmentToJson s) s :=
    fun s hs => travels_batchSegment (h.segments s hs)
  refine bind_parseObject_record (fieldKeys_queryBatchConversionResponse p) ?_
    (fun room w hback => ?_)
  · simp only [queryBatchConversionResponseFields, List.forall_mem_cons, List.not_mem_nil,
      false_implies, implies_true, and_true]
    have hsegments : Written 63 (some (.array (p.segments.map batchSegmentToJson))) :=
      .array (exists_prints_of_travels htravels (by omega))
    exact ⟨hsegments, .string h.fullSurface, .bool _, .bool _, .map_string h.errorClass⟩
  · obtain ⟨inner, ws, hfind, hws⟩ : ∃ inner ws, w.getArray (utf8 "segments") = some ws
        ∧ List.Forall₂ (Prints inner) (p.segments.map batchSegmentToJson) ws :=
      hback.getArray (by simp [queryBatchConversionResponseFields])
    have hsegments : ws.filterMap batchSegmentFromJson = p.segments :=
      filterMap_of_forall₂ (forall₂_of_travels htravels hws)
    have hsurface : w.getString (utf8 "full_surface") = some p.fullSurface :=
      hback.getString (by simp [queryBatchConversionResponseFields])
    have hpartial : w.getBool (utf8 "partial") = some p.isPartial :=
      hback.getBool (by simp [queryBatchConversionResponseFields])
    have hcanceled : w.getBool (utf8 "canceled") = some p.canceled :=
      hback.getBool (by simp [queryBatchConversionResponseFields])
    have herror : w.getString (utf8 "error_class") = p.errorClass :=
      hback.getString_map (by simp [queryBatchConversionResponseFields])
    simp only [hfind, hsegments, hsurface, hpartial, hcanceled, herror, Option.getD_some]

/-! ## Observations -/

/-- The keys of a commit. -/
theorem fieldKeys_commitObservationRequest (p : CommitObservationRequest) :
    FieldKeys ((commitObservationRequestFields p).map Prod.fst) := by
  simp only [commitObservationRequestFields, List.map_cons, List.map_nil]
  decide

/-- **A commit is read back.** -/
theorem parse_buildCommitObservationRequest {p : CommitObservationRequest} (h : p.WellFormed) :
    parseCommitObservationRequest (buildCommitObservationRequest p)
      = if (buildCommitObservationRequest p).length ≤ maxJsonInputBytes then some p
        else none := by
  refine bind_parseObject_record (fieldKeys_commitObservationRequest p) ?_
    (fun room w hback => ?_)
  · simp only [commitObservationRequestFields, List.forall_mem_cons, List.not_mem_nil,
      false_implies, implies_true, and_true]
    exact ⟨.string h.reading, .some ((travels_candidate h.chosen).exists_prints (by omega)),
      written_candidates h.shown, .string h.leftContext, .ofUInt64 _, .string h.observationId,
      .bool _, .bool _, written_app h.app⟩
  · have hreading : w.getString (utf8 "reading") = some p.reading :=
      hback.getString (by simp [commitObservationRequestFields])
    obtain ⟨w', hfind, hchosen⟩ : ∃ w', w.find (utf8 "chosen") = some w'
        ∧ candidateFromJson w' = some p.chosen :=
      exists_find_candidate h.chosen hback (by simp [commitObservationRequestFields])
    have hshown : ((w.getArray (utf8 "shown")).getD []).filterMap candidateFromJson = p.shown :=
      filterMap_candidates h.shown hback (by simp [commitObservationRequestFields])
    have hcontext : w.getString (utf8 "left_context") = some p.leftContext :=
      hback.getString (by simp [commitObservationRequestFields])
    have htime : w.getUInt (utf8 "timestamp_ms") = some p.timestampMs.toNat :=
      hback.getUInt (by simp [commitObservationRequestFields])
    have hid : w.getString (utf8 "observation_id") = some p.observationId :=
      hback.getString (by simp [commitObservationRequestFields])
    have hsecure : w.getBool (utf8 "secure") = some p.secure :=
      hback.getBool (by simp [commitObservationRequestFields])
    have hallowed : w.getBool (utf8 "learning_allowed") = some p.learningAllowed :=
      hback.getBool (by simp [commitObservationRequestFields])
    have happ : appFromJson w = p.app :=
      appFromJson_eq h.app hback (by simp [commitObservationRequestFields])
    simp only [hreading, hfind, hchosen, hshown, hcontext, htime, hid, hsecure, hallowed, happ,
      Option.getD_some, Option.bind_eq_bind, Option.bind_some, UInt64.ofNat_toNat]

/-- The keys of an observed segment. -/
theorem fieldKeys_observedSegment (s : ObservedSegment) :
    FieldKeys ((observedSegmentFields s).map Prod.fst) := by
  simp only [observedSegmentFields, List.map_cons, List.map_nil]
  decide

/-- **An observed segment travels.** -/
theorem travels_observedSegment {s : ObservedSegment} (h : s.WellFormed) :
    Travels observedSegmentFromJson 5 (observedSegmentToJson s) s := by
  refine .of_record (fieldKeys_observedSegment s) (fun room => ?_) (fun room w hback => ?_)
  · simp only [observedSegmentFields, List.forall_mem_cons, List.not_mem_nil, false_implies,
      implies_true, and_true]
    exact ⟨.string h.reading, .some ((travels_candidate h.chosen).exists_prints (by omega)),
      written_candidates h.shown, .bool _⟩
  · have hreading : w.getString (utf8 "reading") = some s.reading :=
      hback.getString (by simp [observedSegmentFields])
    obtain ⟨w', hfind, hchosen⟩ : ∃ w', w.find (utf8 "chosen") = some w'
        ∧ candidateFromJson w' = some s.chosen :=
      exists_find_candidate h.chosen hback (by simp [observedSegmentFields])
    obtain ⟨ws, hshown, hws⟩ : ∃ ws, w.getArray (utf8 "shown") = some ws
        ∧ List.Forall₂ (fun c w => candidateFromJson w = some c) s.shown ws :=
      exists_getArray_candidates h.shown hback (by simp [observedSegmentFields])
    have hauto : w.getBool (utf8 "is_auto_punctuation") = some s.isAutoPunctuation :=
      hback.getBool (by simp [observedSegmentFields])
    have hsurface : s.chosen.surface.isEmpty = false := by simpa using h.chosen_surface
    have hmark : (s.reading.isEmpty && !s.isAutoPunctuation) = false := by
      cases hr : s.reading.isEmpty with
      | false => rfl
      | true => rw [h.punctuation (List.isEmpty_iff.mp hr)]; rfl
    unfold observedSegmentFromJson
    simp only [hreading, hfind, hchosen, hshown, hauto, hsurface, hmark, mapM_of_forall₂ hws,
      Option.getD_some, Option.bind_eq_bind, Option.bind_some, Bool.false_eq_true, if_false]

/-- The keys of a commit of segments. -/
theorem fieldKeys_commitSegmentsObservationRequest (p : CommitSegmentsObservationRequest) :
    FieldKeys ((commitSegmentsObservationRequestFields p).map Prod.fst) := by
  simp only [commitSegmentsObservationRequestFields, List.map_cons, List.map_nil]
  decide

/-- **A commit of segments is read back.** -/
theorem parse_buildCommitSegmentsObservationRequest {p : CommitSegmentsObservationRequest}
    (h : p.WellFormed) :
    parseCommitSegmentsObservationRequest (buildCommitSegmentsObservationRequest p)
      = if (buildCommitSegmentsObservationRequest p).length ≤ maxJsonInputBytes then some p
        else none := by
  have htravels : ∀ s ∈ p.segments,
      Travels observedSegmentFromJson 5 (observedSegmentToJson s) s :=
    fun s hs => travels_observedSegment (h.segments s hs)
  refine bind_parseObject_record (fieldKeys_commitSegmentsObservationRequest p) ?_
    (fun room w hback => ?_)
  · simp only [commitSegmentsObservationRequestFields, List.forall_mem_cons, List.not_mem_nil,
      false_implies, implies_true, and_true]
    have hsegments : Written 63 (some (.array (p.segments.map observedSegmentToJson))) :=
      .array (exists_prints_of_travels htravels (by omega))
    exact ⟨hsegments, .string h.leftContext, .ofUInt64 _, .string h.observationId, .bool _,
      .bool _, written_app h.app⟩
  · obtain ⟨inner, ws, hfind, hws⟩ : ∃ inner ws, w.getArray (utf8 "segments") = some ws
        ∧ List.Forall₂ (Prints inner) (p.segments.map observedSegmentToJson) ws :=
      hback.getArray (by simp [commitSegmentsObservationRequestFields])
    have hread := forall₂_of_travels htravels hws
    have hne : ws.isEmpty = false := by
      have hlength := hread.length_eq
      have hpos := List.length_pos_iff.mpr h.segments_ne
      cases ws with
      | nil => rw [hlength] at hpos; exact absurd hpos (by simp)
      | cons _ _ => rfl
    have hcontext : w.getString (utf8 "left_context") = some p.leftContext :=
      hback.getString (by simp [commitSegmentsObservationRequestFields])
    have htime : w.getUInt (utf8 "timestamp_ms") = some p.timestampMs.toNat :=
      hback.getUInt (by simp [commitSegmentsObservationRequestFields])
    have hid : w.getString (utf8 "observation_id") = some p.observationId :=
      hback.getString (by simp [commitSegmentsObservationRequestFields])
    have hsecure : w.getBool (utf8 "secure") = some p.secure :=
      hback.getBool (by simp [commitSegmentsObservationRequestFields])
    have hallowed : w.getBool (utf8 "learning_allowed") = some p.learningAllowed :=
      hback.getBool (by simp [commitSegmentsObservationRequestFields])
    have happ : appFromJson w = p.app :=
      appFromJson_eq h.app hback (by simp [commitSegmentsObservationRequestFields])
    simp only [hfind, hne, mapM_of_forall₂ hread, hcontext, htime, hid, hsecure, hallowed, happ,
      Option.getD_some, Option.bind_eq_bind, Option.bind_some, UInt64.ofNat_toNat,
      Bool.false_eq_true, if_false]

/-- The keys of a correction. -/
theorem fieldKeys_commitCorrectionRequest (p : CommitCorrectionRequest) :
    FieldKeys ((commitCorrectionRequestFields p).map Prod.fst) := by
  simp only [commitCorrectionRequestFields, List.map_cons, List.map_nil]
  decide

/-- **A correction is read back.** -/
theorem parse_buildCommitCorrectionRequest {p : CommitCorrectionRequest} (h : p.WellFormed) :
    parseCommitCorrectionRequest (buildCommitCorrectionRequest p)
      = if (buildCommitCorrectionRequest p).length ≤ maxJsonInputBytes then some p else none := by
  refine bind_parseObject_record (fieldKeys_commitCorrectionRequest p) ?_
    (fun room w hback => ?_)
  · simp only [commitCorrectionRequestFields, List.forall_mem_cons, List.not_mem_nil,
      false_implies, implies_true, and_true]
    exact ⟨.string h.kind, .string h.reading, .string h.rejectedSurface,
      .map_string h.selectedSurface, .string h.leftContext, .ofUInt64 _, .string h.observationId,
      .bool _, .bool _, written_app h.app⟩
  · have hkind : w.getString (utf8 "kind") = some p.kind :=
      hback.getString (by simp [commitCorrectionRequestFields])
    have hreading : w.getString (utf8 "reading") = some p.reading :=
      hback.getString (by simp [commitCorrectionRequestFields])
    have hrejected : w.getString (utf8 "rejected_surface") = some p.rejectedSurface :=
      hback.getString (by simp [commitCorrectionRequestFields])
    have hselected : w.getString (utf8 "selected_surface") = p.selectedSurface :=
      hback.getString_map (by simp [commitCorrectionRequestFields])
    have hcontext : w.getString (utf8 "left_context") = some p.leftContext :=
      hback.getString (by simp [commitCorrectionRequestFields])
    have htime : w.getUInt (utf8 "timestamp_ms") = some p.timestampMs.toNat :=
      hback.getUInt (by simp [commitCorrectionRequestFields])
    have hid : w.getString (utf8 "observation_id") = some p.observationId :=
      hback.getString (by simp [commitCorrectionRequestFields])
    have hsecure : w.getBool (utf8 "secure") = some p.secure :=
      hback.getBool (by simp [commitCorrectionRequestFields])
    have hallowed : w.getBool (utf8 "learning_allowed") = some p.learningAllowed :=
      hback.getBool (by simp [commitCorrectionRequestFields])
    have happ : appFromJson w = p.app :=
      appFromJson_eq h.app hback (by simp [commitCorrectionRequestFields])
    have hnonempty : (p.reading.isEmpty || p.rejectedSurface.isEmpty) = false := by
      simp [h.reading_ne, h.rejectedSurface_ne]
    simp only [hkind, hreading, hrejected, hselected, hcontext, htime, hid, hsecure, hallowed,
      happ, hnonempty, h.agrees, Option.getD_some, Option.bind_eq_bind, Option.bind_some,
      UInt64.ofNat_toNat, Bool.not_true, Bool.false_eq_true, if_false]

/-! ## All of them -/

/-- **A writer and a reader that are inverse up to the limit**: what is written
is read back when its text is not too long, and not read at all otherwise. -/
def InverseWithin {α : Type} (WellFormed : α → Prop) (build : α → Bytes)
    (parse : Bytes → Option α) : Prop :=
  ∀ p, WellFormed p →
    parse (build p) = if (build p).length ≤ maxJsonInputBytes then some p else none

/-- **The writers and readers of the payloads are inverse up to the limit.** -/
theorem payloadCodecs_inverseWithin :
    InverseWithin QueryCandidatesRequest.WellFormed buildQueryCandidatesRequest
        parseQueryCandidatesRequest
      ∧ InverseWithin QueryCandidatesResponse.WellFormed buildQueryCandidatesResponse
        parseQueryCandidatesResponse
      ∧ InverseWithin QueryLiveConversionRequest.WellFormed buildQueryLiveConversionRequest
        parseQueryLiveConversionRequest
      ∧ InverseWithin QueryLiveConversionResponse.WellFormed buildQueryLiveConversionResponse
        parseQueryLiveConversionResponse
      ∧ InverseWithin QueryBatchConversionRequest.WellFormed buildQueryBatchConversionRequest
        parseQueryBatchConversionRequest
      ∧ InverseWithin QueryBatchConversionResponse.WellFormed buildQueryBatchConversionResponse
        parseQueryBatchConversionResponse
      ∧ InverseWithin CommitObservationRequest.WellFormed buildCommitObservationRequest
        parseCommitObservationRequest
      ∧ InverseWithin CommitSegmentsObservationRequest.WellFormed
        buildCommitSegmentsObservationRequest parseCommitSegmentsObservationRequest
      ∧ InverseWithin CommitCorrectionRequest.WellFormed buildCommitCorrectionRequest
        parseCommitCorrectionRequest := by
  refine ⟨?_, ?_, ?_, ?_, ?_, ?_, ?_, ?_, ?_⟩
  · exact fun p h => parse_buildQueryCandidatesRequest h
  · exact fun p h => parse_buildQueryCandidatesResponse h
  · exact fun p h => parse_buildQueryLiveConversionRequest h
  · exact fun p h => parse_buildQueryLiveConversionResponse h
  · exact fun p h => parse_buildQueryBatchConversionRequest h
  · exact fun p h => parse_buildQueryBatchConversionResponse h
  · exact fun p h => parse_buildCommitObservationRequest h
  · exact fun p h => parse_buildCommitSegmentsObservationRequest h
  · exact fun p h => parse_buildCommitCorrectionRequest h

/-- A commit of one segment whose candidate has a segment of its own. -/
def nestedCommit : CommitSegmentsObservationRequest :=
  let segment : LiveSegment :=
    ⟨0, 2, .finite (.ofInt 1 Binary64.natAbs_one_lt), false, utf8 "日本", utf8 "にほん", 1, 2, 3, 4, 0⟩
  let candidate : CandidateField :=
    ⟨utf8 "日本", utf8 "にほん", .finite (.ofInt (-2) Binary64.natAbs_neg_two_lt), utf8 "dict", [], 4,
      [segment]⟩
  { segments := [⟨utf8 "にほん", candidate, [candidate], false⟩]
    leftContext := []
    timestampMs := 18446744073709551615
    observationId := utf8 "a-1"
    secure := false
    learningAllowed := true
    app := some ⟨utf8 "notepad.exe", []⟩ }

/-- **A nested commit is read back.** -/
theorem payloadCodecs_inverseWithin_nestedCommit : nestedCommit.WellFormed
    ∧ parseCommitSegmentsObservationRequest (buildCommitSegmentsObservationRequest nestedCommit)
      = some nestedCommit := by
  have hwell : nestedCommit.WellFormed := by
    have hnihon : ValidUtf8 (utf8 "日本") := .append (s := utf8 "日") (t := utf8 "本")
      (.of_isScalar (by decide)) (.of_isScalar (by decide))
    have hkana : ValidUtf8 (utf8 "にほん") :=
      .append (s := utf8 "に") (t := utf8 "ほん") (.of_isScalar (by decide))
        (.append (s := utf8 "ほ") (t := utf8 "ん") (.of_isScalar (by decide))
          (.of_isScalar (by decide)))
    have hone : Keeps (.finite (.ofInt 1 (by norm_num))) := by decide
    have htwo : Keeps (.finite (.ofInt (-2) (by norm_num))) := by decide
    have hempty : ValidUtf8 [] := .of_all_ascii rfl
    have hcandidate : (nestedCommit.segments.map ObservedSegment.chosen)[0].WellFormed :=
      ⟨hnihon, hkana, htwo, .of_all_ascii (by decide), hempty,
        List.forall_mem_singleton.mpr
          ⟨by decide, hone, hnihon, hkana, fun h => absurd h (by decide)⟩⟩
    refine ⟨List.forall_mem_singleton.mpr ⟨hkana, hcandidate, by decide,
      List.forall_mem_singleton.mpr hcandidate, fun h => absurd h (by decide)⟩,
      List.cons_ne_nil _ _, hempty, .of_all_ascii (by decide), fun a ha => ?_⟩
    cases ha
    exact ⟨.of_all_ascii (by decide), hempty, .inl (by decide)⟩
  have hlength : (buildCommitSegmentsObservationRequest nestedCommit).length
      ≤ maxJsonInputBytes := by decide +kernel
  have hread := payloadCodecs_inverseWithin.2.2.2.2.2.2.2.1 nestedCommit hwell
  rw [if_pos hlength] at hread
  exact ⟨hwell, hread⟩

/-- A request whose reading alone is longer than the reader takes. -/
def longRequest : QueryCandidatesRequest :=
  { reading := List.replicate (maxJsonInputBytes + 1) 0x61 }

/-- **A request that is too long is written and not read.** -/
theorem not_parse_build_longRequest : longRequest.WellFormed
    ∧ parseQueryCandidatesRequest (buildQueryCandidatesRequest longRequest) ≠ some longRequest := by
  have hreading : ValidUtf8 longRequest.reading := by
    refine .of_all_ascii (List.all_eq_true.mpr (fun c hc => ?_))
    rw [List.eq_of_mem_replicate hc]
    rfl
  have hempty : ValidUtf8 [] := .of_all_ascii rfl
  have hwell : longRequest.WellFormed :=
    ⟨hreading, hempty, .of_all_ascii (by decide), hempty, (fun _ h => by cases h), hempty,
      (fun _ h => by cases h), Nat.zero_le _⟩
  refine ⟨hwell, ?_⟩
  rw [parse_buildQueryCandidatesRequest hwell, if_neg ?_]
  · simp
  · have hmem : (utf8 "reading", some (.string longRequest.reading))
        ∈ queryCandidatesRequestFields longRequest := List.mem_cons_self
    have hlength : longRequest.reading.length ≤ (buildQueryCandidatesRequest longRequest).length :=
      length_le_stringify_record (fieldKeys_queryCandidatesRequest longRequest).1 hmem
    have hlong : longRequest.reading.length = maxJsonInputBytes + 1 := List.length_replicate
    omega

end AzooKey.Ipc

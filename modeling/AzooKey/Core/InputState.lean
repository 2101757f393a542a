import AzooKey.Core.RomajiKanaConverter

/-!
# The input state machine

`core/src/InputState.cpp`, with the actions of `ClientAction.h` and the
events of `UserAction.h`. A state answers a key event, or the arrival of
candidates, with the actions the frontend has to apply and the next state.

Two things of the source are undefined behaviour when they go wrong: an
index past the end of the candidates, and the remainder by their number when
there are none. Both are `none` here, so that a proof that a handler answers
`some` is a proof that neither happens. `HandleEvent` takes a hint about the
document and ignores it, and the hint is left out.
-/

namespace AzooKey.Core

/-- `UserAction`. -/
inductive UserAction
  | input | inputAlnum
  | backspace | delete | forward | backward | up | down | lineHead | lineEnd
  | startConversion | nextCandidate | prevCandidate | selectByDigit | commit | cancel
  | toggleHankaku | toggleHiraKata | startUnicodeInput | startAlnumDouble | startKanaDouble
  | forget
  | toggleDebugWindow | toggleAlnum
  | commitHiragana | commitKatakana | commitHalfwidthKatakana | commitFullwidthRoman
  | commitHalfwidthRoman
deriving DecidableEq, Repr

/-- `UserActionEvent`. The modifiers are read by no handler. -/
structure UserActionEvent where
  action : UserAction := .input
  codepoint : ℕ := 0
  digit : ℤ := 0
deriving DecidableEq, Repr

/-- The fields of `Candidate` that the state machine reads. -/
structure Candidate where
  surface : Bytes
  reading : Bytes
deriving DecidableEq, Repr

/-- `InputModeToggle`. -/
inductive InputModeToggle
  | hankaku | hiraKata
deriving DecidableEq, Repr

/-- `ReplaceSuggestionMode`. -/
inductive ReplaceSuggestionMode
  | magicConversion | replaceSuggestion
deriving DecidableEq, Repr

/-- `ClientAction`. -/
inductive ClientAction
  | appendToMarkedText (text : Bytes)
  | replaceMarkedText (text : Bytes)
  | commitMarkedText
  | cancelMarkedText
  | showCandidateWindow (candidates : List Candidate) (selectedIndex : ℕ)
  | hideCandidateWindow
  | showPredictionWindow (candidates : List Candidate)
  | hidePredictionWindow
  | replaceSelectedText (text : Bytes)
  | playBeep
  | queryCandidates (reading : Bytes) (forWindow : Bool)
  | updateCandidateSelection (index : ℕ)
  | observeCommit (reading surface : Bytes)
  | toggleInputMode (toggle : InputModeToggle)
  | showReplaceSuggestionPrompt (mode : ReplaceSuggestionMode)
  | submitReplaceSuggestion
  | hideReplaceSuggestionPrompt
  | forgetLastCommit
  | toggleDebugWindow
deriving DecidableEq, Repr

/-- `InputStateKind`. -/
inductive InputStateKind
  | idle | composing | previewing | selecting | replaceSuggestion | unicodeInput
deriving DecidableEq, Repr

/-- `InputState`. -/
structure InputState where
  kind : InputStateKind := .idle
  kana : Bytes := []
  romaji : RomajiKanaConverter := {}
  candidates : List Candidate := []
  selectedIndex : ℕ := 0
  awaitingCandidates : Bool := false
  unicodeHex : Bytes := []
  liveConversion : Bool := false
  punctuationConversion : Bool := false
  replaceSuggestionMode : ReplaceSuggestionMode := .magicConversion

/-- `HandleResult`: the actions, in the order the frontend applies them, and
the next state. -/
structure HandleResult where
  actions : List ClientAction
  next : InputState

/-- `kUnicodePrefix`. -/
def unicodePrefix : Bytes := utf8 "U+"

/-- `IsAsciiLetter`. -/
def isAsciiLetter (cp : ℕ) : Bool := (0x61 ≤ cp && cp ≤ 0x7a) || (0x41 ≤ cp && cp ≤ 0x5a)

/-- `HexDigit`: the digit, in upper case. -/
def hexDigit (cp : ℕ) : Option UInt8 :=
  if 0x30 ≤ cp && cp ≤ 0x39 then some (UInt8.ofNat cp)
  else if 0x61 ≤ cp && cp ≤ 0x66 then some (UInt8.ofNat (cp - 0x61 + 0x41))
  else if 0x41 ≤ cp && cp ≤ 0x46 then some (UInt8.ofNat cp)
  else none

/-- The number that upper-case hexadecimal digits name. -/
def hexValue (hex : Bytes) : ℕ :=
  hex.foldl (fun value c => value * 16 + (if c ≤ 0x39 then c.toNat - 0x30 else c.toNat - 0x41 + 10)) 0

/-- `ParseUnicodeScalar`. -/
def parseUnicodeScalar (hex : Bytes) : Option ℕ :=
  if hex.isEmpty then none
  else if 0x10FFFF < hexValue hex || (0xD800 ≤ hexValue hex && hexValue hex ≤ 0xDFFF) then none
  else some (hexValue hex)

/-- `IsSentenceMark`: 、 。 ？ ！. -/
def isSentenceMark (cp : ℕ) : Bool :=
  cp = 0x3001 || cp = 0x3002 || cp = 0xff1f || cp = 0xff01

/-- `IsDigit`, half or full width. -/
def isDigit (cp : ℕ) : Bool := (0x30 ≤ cp && cp ≤ 0x39) || (0xff10 ≤ cp && cp ≤ 0xff19)

/-- `kMaxUnicodeHexDigits`. -/
def maxUnicodeHexDigits : ℕ := 8

namespace InputState

/-- The kinds that show a reading. -/
def Active (s : InputState) : Prop := s.kind = .composing ∨ s.kind = .previewing

instance (s : InputState) : Decidable s.Active := inferInstanceAs (Decidable (_ ∨ _))

/-- `Reading`: the confirmed kana and the preview of pending romaji. -/
def reading (s : InputState) : Bytes := s.kana ++ s.romaji.previewPending

/-- `WithLiveConversion`. -/
def withLiveConversion (s : InputState) (enabled : Bool) : InputState :=
  { s with liveConversion := enabled }

/-- `WithPunctuationConversion`. -/
def withPunctuationConversion (s : InputState) (enabled : Bool) : InputState :=
  { s with punctuationConversion := enabled }

/-- `ResetComposition`. -/
def resetComposition (s : InputState) : InputState :=
  { s with
    kind := .idle
    kana := []
    romaji := s.romaji.reset
    candidates := []
    selectedIndex := 0
    awaitingCandidates := false
    unicodeHex := [] }

/-- `Reset`. -/
def reset (s : InputState) : InputState := s.resetComposition

/-- `WithComposition`. -/
def withComposition (s : InputState) (confirmedKana : Bytes) (pendingRomaji : RomajiKanaConverter) :
    InputState :=
  { s.reset with
    kana := confirmedKana
    romaji := pendingRomaji
    kind := if !confirmedKana.isEmpty || pendingRomaji.hasPending then .composing else .idle }

/-- `WithCorrectedReading`. -/
def withCorrectedReading (s : InputState) (confirmedKana : Bytes) : InputState :=
  if confirmedKana.isEmpty || !(s.Active || s.kind = .selecting) then s
  else { s with kana := confirmedKana, romaji := s.romaji.reset }

/-- The decoding loop of `PunctuationConversionReading`: whether the text is
sentence marks alone, and its last codepoint. -/
def scanReading (punctuationOnly : Bool) (last : ℕ) (text : Bytes) : Option (Bool × ℕ) :=
  match _h : decodeNextUtf8 text with
  | none => some (punctuationOnly, last)
  | some d =>
    if !d.ok then none
    else scanReading (punctuationOnly && isSentenceMark d.codepoint) d.codepoint d.rest
termination_by text.length
decreasing_by exact decodeNextUtf8_rest_lt _h

/-- `PunctuationConversionReading`: the reading that a sentence mark converts
and commits. -/
def punctuationConversionReading (s : InputState) (event : UserActionEvent) : Option Bytes :=
  if !s.punctuationConversion || event.action != .input || !isSentenceMark event.codepoint
      || !(s.Active || s.kind = .selecting) then none
  else
    let reading := s.kana ++ s.romaji.flush.2
    match scanReading true 0 reading with
    | none => none
    | some (punctuationOnly, last) =>
      if punctuationOnly then none
      else if s.kind != .selecting && isDigit last then none
      else some reading

/-- `AppendInput`. -/
def appendInput (s : InputState) (event : UserActionEvent) : InputState :=
  let cp := event.codepoint
  if cp = 0 then s
  else if event.action = .input && cp ≤ 0x7f
      && (isAsciiLetter cp || cp = 0x2d || (cp = 0x27 && s.romaji.separatesNWithApostrophe)
        || s.romaji.canContinueCustomWith (UInt8.ofNat cp)) then
    let r := s.romaji.feed (UInt8.ofNat cp)
    { s with kana := s.kana ++ r.2, romaji := r.1 }
  else
    let r := s.romaji.flush
    { s with kana := appendUtf8 (s.kana ++ r.2) cp, romaji := r.1 }

/-- A UTF-8 continuation byte. -/
def isContinuation (c : UInt8) : Bool := c &&& 0xC0 = 0x80

/-- `EraseLastUnit`: a step of the romaji preview, otherwise one codepoint. -/
def eraseLastUnit (s : InputState) : InputState :=
  if s.romaji.hasPending then { s with romaji := s.romaji.popPendingPreview }
  else { s with kana := ((s.kana.reverse.dropWhile isContinuation).drop 1).reverse }

/-- `AfterReadingChanged`. -/
def afterReadingChanged (s : InputState) : HandleResult :=
  let s' := { s with candidates := [], awaitingCandidates := false }
  if s'.reading.isEmpty then ⟨[.cancelMarkedText], s'.resetComposition⟩
  else ⟨[.replaceMarkedText s'.reading, .queryCandidates s'.reading false], s'⟩

/-- `StartConversion`. -/
def startConversion (s : InputState) : HandleResult :=
  let flushed := s.romaji.flush
  let s' := { s with romaji := flushed.1, kana := s.kana ++ flushed.2 }
  let shown := if flushed.2.isEmpty then [] else [ClientAction.replaceMarkedText s'.kana]
  if s'.kana.isEmpty then ⟨shown, s'⟩
  else ⟨shown ++ [.queryCandidates s'.kana true],
    { s' with candidates := [], awaitingCandidates := true }⟩

/-- `OpenCandidates`. -/
def openCandidates (s : InputState) : Option HandleResult :=
  match s.candidates.head? with
  | none => none
  | some front =>
    some ⟨[.showCandidateWindow s.candidates 0, .replaceMarkedText front.surface],
      { s with kind := .selecting, selectedIndex := 0, awaitingCandidates := false }⟩

/-- `CommitCandidate`. A nonzero `punctuation` is committed after the
candidate. -/
def commitCandidate (s : InputState) (index punctuation : ℕ) : Option HandleResult :=
  match s.candidates[index]? with
  | none => none
  | some candidate =>
    let flushed := s.romaji.flush
    let text := if punctuation = 0 then candidate.surface
      else appendUtf8 candidate.surface punctuation
    some ⟨[.hideCandidateWindow, .replaceMarkedText text, .commitMarkedText,
        .observeCommit (s.kana ++ flushed.2) candidate.surface],
      { s with romaji := flushed.1 }.resetComposition⟩

/-- `CommitAsIs`. -/
def commitAsIs (s : InputState) : HandleResult :=
  let flushed := s.romaji.flush
  let kana := s.kana ++ flushed.2
  ⟨if kana.isEmpty then [] else [.replaceMarkedText kana, .commitMarkedText],
    { s with romaji := flushed.1 }.resetComposition⟩

/-- The kind a reading gets when it is opened. -/
def readingKind (s : InputState) : InputStateKind :=
  if s.liveConversion then .previewing else .composing

/-- `HandleIdle`. -/
def handleIdle (s : InputState) (event : UserActionEvent) : HandleResult :=
  match event.action with
  | .input | .inputAlnum =>
    let next := s.appendInput event
    if next.reading.isEmpty then ⟨[], s⟩
    else { next with kind := next.readingKind }.afterReadingChanged
  | .startUnicodeInput =>
    ⟨[.replaceMarkedText unicodePrefix], { s with kind := .unicodeInput, unicodeHex := [] }⟩
  | .startAlnumDouble =>
    ⟨[.showReplaceSuggestionPrompt .magicConversion],
      { s with kind := .replaceSuggestion, replaceSuggestionMode := .magicConversion }⟩
  | .startKanaDouble =>
    ⟨[.showReplaceSuggestionPrompt .replaceSuggestion],
      { s with kind := .replaceSuggestion, replaceSuggestionMode := .replaceSuggestion }⟩
  | _ => ⟨[], s⟩

/-- A result followed by `U+` and the mode for Unicode input. -/
def thenUnicodeInput (r : HandleResult) : HandleResult :=
  ⟨r.actions ++ [.replaceMarkedText unicodePrefix], { r.next with kind := .unicodeInput }⟩

/-- A result followed by the event as if it came from its next state in
Idle. -/
def thenIdle (r : HandleResult) (event : UserActionEvent) : HandleResult :=
  let resumed := r.next.handleIdle event
  ⟨r.actions ++ resumed.actions, resumed.next⟩

/-- Whether the first cached candidate is one of the reading. -/
def cachedFirst (s : InputState) (reading : Bytes) : Bool :=
  match s.candidates with
  | [] => false
  | front :: _ => front.reading = reading

/-- `HandleComposing`. -/
def handleComposing (s : InputState) (event : UserActionEvent) : Option HandleResult :=
  match event.action with
  | .input | .inputAlnum =>
    if (s.punctuationConversionReading event).any s.cachedFirst then
      s.commitCandidate 0 event.codepoint
    else
      let next := s.appendInput event
      let next := if next.liveConversion then { next with kind := .previewing } else next
      some next.afterReadingChanged
  | .backspace => some s.eraseLastUnit.afterReadingChanged
  | .startConversion | .nextCandidate | .prevCandidate => some s.startConversion
  | .commit => some s.commitAsIs
  | .cancel => some ⟨[.cancelMarkedText], s.resetComposition⟩
  | .startUnicodeInput => some (thenUnicodeInput s.commitAsIs)
  | _ => some ⟨[], s⟩

/-- The selection moved to an index that is taken modulo the number of
candidates. -/
def moveSelection (s : InputState) (index : ℕ) : Option HandleResult :=
  if s.candidates.length = 0 then none
  else
    match s.candidates[index % s.candidates.length]? with
    | none => none
    | some candidate =>
      some ⟨[.updateCandidateSelection (index % s.candidates.length),
          .replaceMarkedText candidate.surface],
        { s with selectedIndex := index % s.candidates.length }⟩

/-- `HandleSelecting`. -/
def handleSelecting (s : InputState) (event : UserActionEvent) : Option HandleResult :=
  let count := s.candidates.length
  match event.action with
  | .input | .inputAlnum =>
    if (s.punctuationConversionReading event).isSome then
      s.commitCandidate s.selectedIndex event.codepoint
    else (s.commitCandidate s.selectedIndex 0).map (thenIdle · event)
  | .backspace =>
    let r := { s with kind := s.readingKind, selectedIndex := 0 }.eraseLastUnit.afterReadingChanged
    some ⟨.hideCandidateWindow :: r.actions, r.next⟩
  | .startConversion | .nextCandidate | .down => s.moveSelection (s.selectedIndex + 1)
  | .prevCandidate | .up => s.moveSelection (s.selectedIndex + count - 1)
  | .selectByDigit =>
    if 1 ≤ event.digit ∧ event.digit ≤ count then s.commitCandidate (event.digit - 1).toNat 0
    else some ⟨[], s⟩
  | .commit => s.commitCandidate s.selectedIndex 0
  | .cancel => some ⟨[.hideCandidateWindow, .cancelMarkedText], s.resetComposition⟩
  | .startUnicodeInput => (s.commitCandidate s.selectedIndex 0).map thenUnicodeInput
  | _ => some ⟨[], s⟩

/-- `HandleReplaceSuggestion`. -/
def handleReplaceSuggestion (s : InputState) (event : UserActionEvent) : HandleResult :=
  match event.action with
  | .commit => ⟨[.submitReplaceSuggestion], s.resetComposition⟩
  | .cancel => ⟨[.hideReplaceSuggestionPrompt], s.resetComposition⟩
  | _ => ⟨[], s⟩

/-- The lambda `finish` of `HandleUnicodeInput`: whether the mode ended, the
actions and the state. -/
def finish (s : InputState) (beepOnInvalid : Bool) : Bool × HandleResult :=
  if s.unicodeHex.isEmpty then (true, ⟨[.cancelMarkedText], s.resetComposition⟩)
  else
    match parseUnicodeScalar s.unicodeHex with
    | none => (false, ⟨if beepOnInvalid then [.playBeep] else [], s⟩)
    | some scalar =>
      (true, ⟨[.replaceMarkedText (appendUtf8 [] scalar), .commitMarkedText], s.resetComposition⟩)

/-- The typed character of `HandleUnicodeInput`: a digit is collected, any
other ends the mode and is typed in Idle. -/
def handleHexInput (s : InputState) (event : UserActionEvent) : HandleResult :=
  match hexDigit event.codepoint with
  | some digit =>
    if maxUnicodeHexDigits ≤ s.unicodeHex.length then ⟨[.playBeep], s⟩
    else
      ⟨[.replaceMarkedText (unicodePrefix ++ (s.unicodeHex ++ [digit]))],
        { s with unicodeHex := s.unicodeHex ++ [digit] }⟩
  | none =>
    let finished := s.finish false
    let ended : HandleResult := if finished.1 then finished.2
      else ⟨finished.2.actions ++ [.playBeep, .cancelMarkedText], s.resetComposition⟩
    thenIdle ended event

/-- `HandleUnicodeInput`. -/
def handleUnicodeInput (s : InputState) (event : UserActionEvent) : HandleResult :=
  match event.action with
  | .input | .inputAlnum => s.handleHexInput event
  | .backspace =>
    if s.unicodeHex.isEmpty then ⟨[.cancelMarkedText], s.resetComposition⟩
    else
      ⟨[.replaceMarkedText (unicodePrefix ++ s.unicodeHex.dropLast)],
        { s with unicodeHex := s.unicodeHex.dropLast }⟩
  | .commit => (s.finish true).2
  | .cancel => ⟨[.cancelMarkedText], s.resetComposition⟩
  | _ => ⟨[], s⟩

/-- **`HandleEvent`.** -/
def handleEvent (s : InputState) (event : UserActionEvent) : Option HandleResult :=
  match event.action with
  | .toggleDebugWindow => some ⟨[.toggleDebugWindow], s⟩
  | .toggleHankaku => some ⟨[.toggleInputMode .hankaku], s⟩
  | .toggleHiraKata => some ⟨[.toggleInputMode .hiraKata], s⟩
  | .forget => some ⟨[.forgetLastCommit], s⟩
  | _ =>
    match s.kind with
    | .idle => some (s.handleIdle event)
    | .composing | .previewing => s.handleComposing event
    | .selecting => s.handleSelecting event
    | .replaceSuggestion => some (s.handleReplaceSuggestion event)
    | .unicodeInput => some (s.handleUnicodeInput event)

/-- **`HandleCandidatesArrived`.** -/
def handleCandidatesArrived (s : InputState) (candidates : List Candidate) :
    Option HandleResult :=
  if s.Active then
    let next := { s with candidates := candidates }
    if next.awaitingCandidates then
      let next := { next with awaitingCandidates := false }
      if next.candidates.isEmpty then some ⟨[], next⟩ else next.openCandidates
    else some ⟨[], next⟩
  else some ⟨[], s⟩

end InputState

end AzooKey.Core

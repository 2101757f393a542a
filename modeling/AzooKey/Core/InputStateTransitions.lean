import AzooKey.Core.InputState
import AzooKey.Lib.Run

/-!
# What a step of the input state machine can do

The handlers branch on six kinds of state and some thirty actions, but the
steps they make are few: nothing visible happens; the reading changes and is
queried again; the conversion starts; a composition ends, by a commit or a
cancellation, and the same key may then open something new. `Outcome` lists
them once. `call_outcome` says that the machine takes one of them from every
state that satisfies the invariant `Inv` – in particular it takes one, so
that no event indexes a missing candidate or divides by their number when
there are none – and `Outcome.inv` that the invariant survives. Every other
property of the runs is then a case analysis on `Outcome`, not on the
handlers.
-/

namespace AzooKey.Core

/-- A call that answers with actions. -/
inductive Call
  | event (event : UserActionEvent)
  | arrived (candidates : List Candidate)

/-- **The public operations of `InputState`.** -/
inductive Op
  | call (call : Call)
  | withComposition (confirmedKana : Bytes) (pendingRomaji : RomajiKanaConverter)
  | withCorrectedReading (confirmedKana : Bytes)
  | withLiveConversion (enabled : Bool)
  | withPunctuationConversion (enabled : Bool)
  | reset

/-- The actions that change neither the marked text, nor the candidates shown
or asked for, nor what is learned. -/
def ClientAction.Inert : ClientAction → Prop
  | .hideCandidateWindow | .playBeep | .toggleInputMode _ | .showReplaceSuggestionPrompt _
  | .submitReplaceSuggestion | .hideReplaceSuggestionPrompt | .forgetLastCommit
  | .toggleDebugWindow => True
  | _ => False

namespace InputState

/-- The answer to a call. -/
def call (s : InputState) : Call → Option HandleResult
  | .event event => s.handleEvent event
  | .arrived candidates => s.handleCandidatesArrived candidates

/-- The answer to an operation. Those that only make a new state emit no
action. -/
def apply (s : InputState) : Op → Option HandleResult
  | .call c => s.call c
  | .withComposition kana romaji => some ⟨[], s.withComposition kana romaji⟩
  | .withCorrectedReading kana => some ⟨[], s.withCorrectedReading kana⟩
  | .withLiveConversion enabled => some ⟨[], s.withLiveConversion enabled⟩
  | .withPunctuationConversion enabled => some ⟨[], s.withPunctuationConversion enabled⟩
  | .reset => some ⟨[], s.reset⟩

/-- **The invariant of the state machine.** -/
structure Inv (s : InputState) : Prop where
  /-- A selection points at a candidate. -/
  selected : s.kind = .selecting → s.selectedIndex < s.candidates.length
  /-- Where nothing is selected the index is zero. -/
  unselected : s.kind ≠ .selecting → s.selectedIndex = 0
  /-- Only a reading waits for candidates. -/
  awaiting : s.awaitingCandidates = true → s.Active
  /-- Hexadecimal digits are collected in their own mode alone. -/
  hexMode : s.kind ≠ .unicodeInput → s.unicodeHex = []
  /-- At most eight digits are collected. -/
  hexLength : s.unicodeHex.length ≤ maxUnicodeHexDigits
  /-- The other kinds hold no composition. -/
  blank : s.kind = .idle ∨ s.kind = .replaceSuggestion ∨ s.kind = .unicodeInput →
    s.kana = [] ∧ s.romaji.pending = [] ∧ s.candidates = []

/-- The initial state satisfies the invariant. -/
theorem inv_init : Inv {} where
  selected h := absurd h (by simp)
  unselected _ := rfl
  awaiting h := absurd h (by simp)
  hexMode _ := rfl
  hexLength := Nat.zero_le _
  blank _ := ⟨rfl, rfl, rfl⟩

/-- A reset state satisfies the invariant. -/
theorem inv_resetComposition (s : InputState) : s.resetComposition.Inv where
  selected h := absurd h (by simp [resetComposition])
  unselected _ := rfl
  awaiting h := absurd h (by simp [resetComposition])
  hexMode _ := rfl
  hexLength := Nat.zero_le _
  blank _ := ⟨rfl, rfl, rfl⟩

/-- A state that shows a reading satisfies the invariant when nothing is
selected and no digit is collected. -/
theorem inv_of_active {s : InputState} (hk : s.Active) (hi : s.selectedIndex = 0)
    (hx : s.unicodeHex = []) : s.Inv where
  selected h := by rcases hk with hk | hk <;> simp [hk] at h
  unselected _ := hi
  awaiting _ := hk
  hexMode _ := hx
  hexLength := by rw [hx]; exact Nat.zero_le _
  blank h := by rcases hk with hk | hk <;> simp [hk] at h

/-- A selecting state satisfies the invariant when its index is one of a
candidate, it does not wait, and no digit is collected. -/
theorem inv_of_selecting {s : InputState} (hk : s.kind = .selecting)
    (hi : s.selectedIndex < s.candidates.length) (ha : s.awaitingCandidates = false)
    (hx : s.unicodeHex = []) : s.Inv where
  selected _ := hi
  unselected h := absurd hk h
  awaiting h := absurd h (by simp [ha])
  hexMode _ := hx
  hexLength := by rw [hx]; exact Nat.zero_le _
  blank h := by simp [hk] at h

/-- A state that shows a reading or candidates is in neither other mode. -/
theorem Active.ne {s : InputState} (h : s.Active) :
    s.kind ≠ .selecting ∧ s.kind ≠ .unicodeInput ∧ s.kind ≠ .idle := by
  rcases h with h | h <;> simp [h]

/-- **A composition ends**: the actions that end it, and the blank state it
leaves. -/
inductive Ending (s : InputState) (event : UserActionEvent) :
    List ClientAction → InputState → Prop
  /-- There was none. -/
  | none : s.kind = .idle → Ending s event [] s
  /-- It is cancelled. -/
  | cancelled (before : List ClientAction) (romaji : RomajiKanaConverter) :
      (∀ a ∈ before, a.Inert) →
      Ending s event (before ++ [.cancelMarkedText]) { s with romaji := romaji }.resetComposition
  /-- The reading is committed as it is. -/
  | asIs : s.Active → event.action = .commit ∨ event.action = .startUnicodeInput →
      Ending s event s.commitAsIs.actions s.commitAsIs.next
  /-- A candidate is committed: the selected one, or the first cached one when
  it is one of the reading, together with the mark that was typed. -/
  | picked (candidate : Candidate) (mark : Bytes) :
      s.kind = .selecting ∧ candidate ∈ s.candidates
        ∨ s.Active ∧ candidate ∈ s.candidates
          ∧ candidate.reading = s.kana ++ s.romaji.flush.2 →
      mark = [] ∨ isSentenceMark event.codepoint = true ∧ mark = encodeUtf8 event.codepoint →
      Ending s event
        [.hideCandidateWindow, .replaceMarkedText (candidate.surface ++ mark), .commitMarkedText,
          .observeCommit (s.kana ++ s.romaji.flush.2) candidate.surface]
        { s with romaji := s.romaji.flush.1 }.resetComposition
  /-- A scalar is committed by its number. -/
  | scalar {text : Bytes} : s.kind = .unicodeInput →
      Ending s event [.replaceMarkedText text, .commitMarkedText] s.resetComposition
  /-- The prompt is closed. -/
  | prompt {actions : List ClientAction} : s.kind = .replaceSuggestion →
      (∀ a ∈ actions, a.Inert) → Ending s event actions s.resetComposition

/-- **What one step does.** -/
inductive Outcome (s : InputState) : Call → List ClientAction → InputState → Prop
  /-- Nothing changes. -/
  | inert {event : UserActionEvent} {actions : List ClientAction} :
      (∀ a ∈ actions, a.Inert) → Outcome s (.event event) actions s
  /-- Candidates that arrive too late are dropped. -/
  | ignored {candidates : List Candidate} : ¬ s.Active → Outcome s (.arrived candidates) [] s
  /-- Candidates are cached. -/
  | cached {candidates : List Candidate} : s.Active →
      s.awaitingCandidates = false ∨ candidates = [] →
      Outcome s (.arrived candidates) []
        { s with candidates := candidates, awaitingCandidates := false }
  /-- The candidates that were waited for open the window. -/
  | opened {front : Candidate} {others : List Candidate} : s.Active →
      s.awaitingCandidates = true →
      Outcome s (.arrived (front :: others))
        [.showCandidateWindow (front :: others) 0, .replaceMarkedText front.surface]
        { s with
          kind := .selecting
          candidates := front :: others
          selectedIndex := 0
          awaitingCandidates := false }
  /-- The selection moves. -/
  | moved {event : UserActionEvent} {index : ℕ} {candidate : Candidate} :
      s.kind = .selecting → s.candidates[index]? = some candidate →
      Outcome s (.event event)
        [.updateCandidateSelection index, .replaceMarkedText candidate.surface]
        { s with selectedIndex := index }
  /-- The reading changes. -/
  | edited {event : UserActionEvent} {before : List ClientAction} {next : InputState} :
      s.Active ∨ s.kind = .selecting → (∀ a ∈ before, a.Inert) →
      next.Active → next.candidates = [] → next.selectedIndex = 0 →
      next.awaitingCandidates = false → next.unicodeHex = [] → next.reading ≠ [] →
      Outcome s (.event event)
        (before ++ [.replaceMarkedText next.reading, .queryCandidates next.reading false]) next
  /-- The conversion starts. -/
  | converted {event : UserActionEvent} : s.Active →
      event.action = .startConversion ∨ event.action = .nextCandidate
        ∨ event.action = .prevCandidate →
      Outcome s (.event event) s.startConversion.actions s.startConversion.next
  /-- A digit is collected, or taken back. -/
  | digits {event : UserActionEvent} {hex : Bytes} : s.kind = .unicodeInput →
      hex.length ≤ maxUnicodeHexDigits →
      Outcome s (.event event) [.replaceMarkedText (unicodePrefix ++ hex)]
        { s with unicodeHex := hex }
  /-- A composition ends, and nothing follows. -/
  | ended {event : UserActionEvent} {actions : List ClientAction} {next : InputState} :
      Ending s event actions next → event.action ≠ .startUnicodeInput →
      Outcome s (.event event) actions next
  /-- A composition ends, and the key opens a reading. -/
  | typed {event : UserActionEvent} {actions : List ClientAction} {blank next : InputState} :
      Ending s event actions blank →
      next.Active → next.candidates = [] → next.selectedIndex = 0 →
      next.awaitingCandidates = false → next.unicodeHex = [] → next.reading ≠ [] →
      Outcome s (.event event)
        (actions ++ [.replaceMarkedText next.reading, .queryCandidates next.reading false]) next
  /-- A composition ends, and Unicode input begins. -/
  | unicode {event : UserActionEvent} {actions : List ClientAction} {blank : InputState} :
      Ending s event actions blank →
      Outcome s (.event event) (actions ++ [.replaceMarkedText unicodePrefix])
        { blank with kind := .unicodeInput, unicodeHex := [] }
  /-- The prompt opens. -/
  | prompted {event : UserActionEvent} {mode : ReplaceSuggestionMode} : s.kind = .idle →
      Outcome s (.event event) [.showReplaceSuggestionPrompt mode]
        { s with kind := .replaceSuggestion, replaceSuggestionMode := mode }

/-- What an ended composition leaves is a blank Idle state. -/
theorem Ending.inv {s next : InputState} {event : UserActionEvent}
    {actions : List ClientAction} (hs : s.Inv) (h : Ending s event actions next) :
    next.Inv ∧ next.kind = .idle := by
  cases h with
  | none hk => exact ⟨hs, hk⟩
  | cancelled => exact ⟨inv_resetComposition _, rfl⟩
  | asIs => exact ⟨inv_resetComposition _, rfl⟩
  | picked => exact ⟨inv_resetComposition _, rfl⟩
  | scalar => exact ⟨inv_resetComposition _, rfl⟩
  | prompt => exact ⟨inv_resetComposition _, rfl⟩

/-- A blank state of another kind satisfies the invariant. -/
theorem Inv.of_idle {s : InputState} (hs : s.Inv) (hk : s.kind = .idle) {kind : InputStateKind}
    (hkind : kind = .replaceSuggestion ∨ kind = .unicodeInput) (mode : ReplaceSuggestionMode) :
    ({ s with kind := kind, unicodeHex := [], replaceSuggestionMode := mode } : InputState).Inv where
  selected h := by rcases hkind with h' | h' <;> simp [h'] at h
  unselected _ := hs.unselected (by simp [hk])
  awaiting h := by rcases hs.awaiting h with h' | h' <;> simp [hk] at h'
  hexMode _ := rfl
  hexLength := Nat.zero_le _
  blank _ := hs.blank (Or.inl hk)

/-- **Every outcome keeps the invariant.** -/
theorem Outcome.inv {s next : InputState} {call : Call} {actions : List ClientAction}
    (hs : s.Inv) (h : Outcome s call actions next) : next.Inv := by
  cases h with
  | inert => exact hs
  | ignored => exact hs
  | cached hk =>
    exact inv_of_active hk (hs.unselected hk.ne.1) (hs.hexMode hk.ne.2.1)
  | opened hk =>
    exact inv_of_selecting rfl (Nat.succ_pos _) rfl (hs.hexMode hk.ne.2.1)
  | moved hk hget =>
    refine inv_of_selecting hk (List.getElem?_eq_some_iff.mp hget).1 ?_ (hs.hexMode (by simp [hk]))
    by_contra ha
    exact (hs.awaiting (by simpa using ha)).ne.1 hk
  | edited _ _ hk _ hi _ hx => exact inv_of_active hk hi hx
  | converted hk =>
    have hi := hs.unselected hk.ne.1
    have hx := hs.hexMode hk.ne.2.1
    unfold startConversion
    dsimp only
    split
    · exact inv_of_active hk hi hx
    · exact inv_of_active hk hi hx
  | digits hk hlen =>
    exact ⟨fun h => by simp [hk] at h, fun _ => hs.unselected (by simp [hk]), hs.awaiting,
      fun h => absurd hk h, hlen, fun _ => hs.blank (Or.inr (Or.inr hk))⟩
  | ended hend => exact (hend.inv hs).1
  | typed _ hk _ hi _ hx => exact inv_of_active hk hi hx
  | unicode hend =>
    obtain ⟨hinv, hk⟩ := hend.inv hs
    exact hinv.of_idle hk (Or.inr rfl) _
  | prompted hk =>
    have hx := hs.hexMode (by simp [hk])
    have hinv := hs.of_idle hk (Or.inl rfl) ‹_›
    rw [← hx] at hinv
    exact hinv

/-! ## The handlers take these steps -/

/-- Typing changes the kana and the romaji alone. -/
theorem appendInput_eq (s : InputState) (event : UserActionEvent) :
    ∃ kana romaji, s.appendInput event = { s with kana := kana, romaji := romaji } := by
  unfold appendInput
  dsimp only
  split
  · exact ⟨s.kana, s.romaji, rfl⟩
  · split
    · exact ⟨_, _, rfl⟩
    · exact ⟨_, _, rfl⟩

/-- Erasing changes the kana and the romaji alone. -/
theorem eraseLastUnit_eq (s : InputState) :
    ∃ kana romaji, s.eraseLastUnit = { s with kana := kana, romaji := romaji } := by
  unfold eraseLastUnit
  split
  · exact ⟨s.kana, _, rfl⟩
  · exact ⟨_, s.romaji, rfl⟩

/-- The kind of an opened reading is one that shows a reading. -/
theorem readingKind_cases (s : InputState) :
    s.readingKind = .composing ∨ s.readingKind = .previewing := by
  unfold readingKind
  split
  · exact Or.inr rfl
  · exact Or.inl rfl

/-- A changed reading is shown and queried, or cancelled when it is empty. -/
theorem outcome_afterReadingChanged {s : InputState} (hs : s.Inv)
    (hk : s.Active ∨ s.kind = .selecting) {event : UserActionEvent}
    (hne : event.action ≠ .startUnicodeInput) (before : List ClientAction)
    (hbefore : ∀ a ∈ before, a.Inert) {kind : InputStateKind}
    (hkind : kind = .composing ∨ kind = .previewing) {index : ℕ} (hindex : index = 0)
    (kana : Bytes) (romaji : RomajiKanaConverter) :
    let next := { s with kind := kind, kana := kana, romaji := romaji, selectedIndex := index }
    Outcome s (.event event) (before ++ next.afterReadingChanged.actions)
      next.afterReadingChanged.next := by
  intro next
  have hx : s.unicodeHex = [] := hs.hexMode (by
    rcases hk with hk | hk
    · exact hk.ne.2.1
    · simp [hk])
  unfold afterReadingChanged
  dsimp only
  split
  · exact Outcome.ended (Ending.cancelled before romaji hbefore) hne
  · rename_i hreading
    exact Outcome.edited hk hbefore hkind rfl hindex rfl hx
      (by simpa [List.isEmpty_iff] using hreading)

/-- A key typed into a blank state opens a reading, or does nothing. -/
theorem outcome_thenIdle {s blank : InputState} {event : UserActionEvent}
    {actions : List ClientAction} (hs : s.Inv) (hend : Ending s event actions blank)
    (hinput : event.action = .input ∨ event.action = .inputAlnum) :
    Outcome s (.event event) (actions ++ (blank.handleIdle event).actions)
      (blank.handleIdle event).next := by
  obtain ⟨hinv, hk⟩ := hend.inv hs
  obtain ⟨kana, romaji, happend⟩ := appendInput_eq blank event
  have hidle : blank.handleIdle event
      = if (blank.appendInput event).reading.isEmpty then ⟨[], blank⟩
        else { blank.appendInput event with
          kind := (blank.appendInput event).readingKind }.afterReadingChanged := by
    unfold handleIdle
    rcases hinput with h | h <;> rw [h]
  rw [hidle]
  split
  · rw [List.append_nil]
    exact Outcome.ended hend (by rcases hinput with h | h <;> simp [h])
  · rename_i hreading
    have hreading' : (blank.appendInput event).reading ≠ [] := by
      simpa [List.isEmpty_iff] using hreading
    rw [happend] at hreading' ⊢
    unfold afterReadingChanged
    dsimp only
    split
    · rename_i hnil
      exact absurd (List.isEmpty_iff.mp hnil) hreading'
    · exact Outcome.typed hend (readingKind_cases _) rfl (hinv.unselected (by simp [hk])) rfl
        (hinv.hexMode (by simp [hk])) hreading'

/-- An event in Idle. -/
theorem outcome_handleIdle {s : InputState} (hs : s.Inv) (hk : s.kind = .idle)
    (event : UserActionEvent) :
    Outcome s (.event event) (s.handleIdle event).actions (s.handleIdle event).next := by
  by_cases hinput : event.action = .input ∨ event.action = .inputAlnum
  · exact outcome_thenIdle hs (Ending.none hk) hinput
  · unfold handleIdle
    split
    · exact absurd (Or.inl ‹_›) hinput
    · exact absurd (Or.inr ‹_›) hinput
    · exact Outcome.unicode (Ending.none hk)
    · exact Outcome.prompted hk
    · exact Outcome.prompted hk
    · exact Outcome.inert (by simp)

/-- A committed candidate ends the composition. -/
theorem ending_commitCandidate {s : InputState} (event : UserActionEvent) {index punctuation : ℕ}
    {candidate : Candidate} (hget : s.candidates[index]? = some candidate)
    (hwhy : s.kind = .selecting
      ∨ s.Active ∧ candidate.reading = s.kana ++ s.romaji.flush.2)
    (hmark : punctuation = 0
      ∨ isSentenceMark event.codepoint = true ∧ punctuation = event.codepoint) :
    ∃ r, s.commitCandidate index punctuation = some r ∧ Ending s event r.actions r.next := by
  have hmem : candidate ∈ s.candidates := List.mem_of_getElem? hget
  unfold commitCandidate
  rw [hget]
  refine ⟨_, rfl, ?_⟩
  have hend : Ending s event _ _ := Ending.picked candidate
    (if punctuation = 0 then [] else encodeUtf8 punctuation)
    (hwhy.imp (fun h => ⟨h, hmem⟩) (fun h => ⟨h.1, hmem, h.2⟩)) (by
      rcases hmark with h | ⟨h, rfl⟩
      · exact Or.inl (if_pos h)
      · refine Or.inr ⟨h, if_neg (fun h0 => ?_)⟩
        rw [h0] at h
        exact absurd h (by decide))
  have htext : (if punctuation = 0 then candidate.surface
      else appendUtf8 candidate.surface punctuation)
      = candidate.surface ++ (if punctuation = 0 then [] else encodeUtf8 punctuation) := by
    split
    · rw [List.append_nil]
    · rfl
  dsimp only
  rw [htext]
  exact hend

/-- A sentence mark that converts is one. -/
theorem isSentenceMark_of_punctuation {s : InputState} {event : UserActionEvent} {reading : Bytes}
    (h : s.punctuationConversionReading event = some reading) :
    isSentenceMark event.codepoint = true ∧ reading = s.kana ++ s.romaji.flush.2 := by
  unfold punctuationConversionReading at h
  split at h
  · exact absurd h (by simp)
  · rename_i hguard
    have hmark : isSentenceMark event.codepoint = true := by
      simp only [Bool.or_eq_true, not_or, Bool.not_eq_true', Bool.not_eq_false] at hguard
      exact hguard.1.2
    refine ⟨hmark, ?_⟩
    dsimp only at h
    split at h
    · exact absurd h (by simp)
    · split at h
      · exact absurd h (by simp)
      · split at h
        · exact absurd h (by simp)
        · exact (Option.some.inj h).symm

/-- An event while a reading is shown. -/
theorem outcome_handleComposing {s : InputState} (hs : s.Inv) (hk : s.Active)
    (event : UserActionEvent) :
    ∃ r, s.handleComposing event = some r ∧ Outcome s (.event event) r.actions r.next := by
  have hidx : s.selectedIndex = 0 := hs.unselected hk.ne.1
  have htyped : event.action ≠ .startUnicodeInput →
      ∃ r, (if (s.punctuationConversionReading event).any s.cachedFirst then
          s.commitCandidate 0 event.codepoint
        else
          let next := s.appendInput event
          let next := if next.liveConversion then { next with kind := .previewing } else next
          some next.afterReadingChanged) = some r
        ∧ Outcome s (.event event) r.actions r.next := by
    intro hne
    split
    · rename_i hany
      obtain ⟨reading, hreading, hcached⟩ := (Option.any_eq_true _ _).mp hany
      obtain ⟨hmark, hflush⟩ := isSentenceMark_of_punctuation hreading
      unfold cachedFirst at hcached
      split at hcached
      · exact absurd hcached (by simp)
      · rename_i front others hcands
        obtain ⟨r, hr, hend⟩ := ending_commitCandidate event
          (show s.candidates[0]? = some front by simp [hcands])
          (Or.inr ⟨hk, by rw [of_decide_eq_true hcached, hflush]⟩) (Or.inr ⟨hmark, rfl⟩)
        exact ⟨r, hr, Outcome.ended hend hne⟩
    · obtain ⟨kana, romaji, happend⟩ := appendInput_eq s event
      refine ⟨_, rfl, ?_⟩
      rw [happend]
      split
      · exact outcome_afterReadingChanged hs (Or.inl hk) hne [] (by simp)
          (Or.inr rfl) hidx kana romaji
      · exact outcome_afterReadingChanged hs (Or.inl hk) hne [] (by simp)
          hk hidx kana romaji
  unfold handleComposing
  split
  · exact htyped (by simp [*])
  · exact htyped (by simp [*])
  · obtain ⟨kana, romaji, herase⟩ := eraseLastUnit_eq s
    refine ⟨_, rfl, ?_⟩
    rw [herase]
    exact outcome_afterReadingChanged hs (Or.inl hk) (by simp [*]) [] (by simp)
      hk hidx kana romaji
  · exact ⟨_, rfl, Outcome.converted hk (by simp [*])⟩
  · exact ⟨_, rfl, Outcome.converted hk (by simp [*])⟩
  · exact ⟨_, rfl, Outcome.converted hk (by simp [*])⟩
  · exact ⟨_, rfl, Outcome.ended (Ending.asIs hk (by simp [*])) (by simp [*])⟩
  · exact ⟨_, rfl, Outcome.ended (Ending.cancelled [] s.romaji (by simp))
      (by simp [*])⟩
  · exact ⟨_, rfl, Outcome.unicode (Ending.asIs hk (by simp [*]))⟩
  · exact ⟨_, rfl, Outcome.inert (by simp)⟩

/-- A moved selection points at a candidate when there is one. -/
theorem outcome_moveSelection {s : InputState} (hk : s.kind = .selecting)
    (hpos : 0 < s.candidates.length) (event : UserActionEvent) (index : ℕ) :
    ∃ r, s.moveSelection index = some r ∧ Outcome s (.event event) r.actions r.next := by
  have hlt : index % s.candidates.length < s.candidates.length := Nat.mod_lt _ hpos
  unfold moveSelection
  rw [if_neg hpos.ne', List.getElem?_eq_getElem hlt]
  exact ⟨_, rfl, Outcome.moved hk (List.getElem?_eq_getElem hlt)⟩

/-- An event while candidates are shown. -/
theorem outcome_handleSelecting {s : InputState} (hs : s.Inv) (hk : s.kind = .selecting)
    (event : UserActionEvent) :
    ∃ r, s.handleSelecting event = some r ∧ Outcome s (.event event) r.actions r.next := by
  have hlt : s.selectedIndex < s.candidates.length := hs.selected hk
  have hget := List.getElem?_eq_getElem hlt
  have hpos : 0 < s.candidates.length := Nat.zero_lt_of_lt hlt
  have hcommit : ∃ r, s.commitCandidate s.selectedIndex 0 = some r
      ∧ Ending s event r.actions r.next :=
    ending_commitCandidate event hget (Or.inl hk) (Or.inl rfl)
  have htyped : event.action = .input ∨ event.action = .inputAlnum →
      ∃ r, (if (s.punctuationConversionReading event).isSome then
          s.commitCandidate s.selectedIndex event.codepoint
        else (s.commitCandidate s.selectedIndex 0).map (thenIdle · event)) = some r
        ∧ Outcome s (.event event) r.actions r.next := by
    intro hinput
    split
    · rename_i hsome
      obtain ⟨reading, hreading⟩ := Option.isSome_iff_exists.mp hsome
      obtain ⟨r, hr, hend⟩ := ending_commitCandidate event hget (Or.inl hk)
        (Or.inr ⟨(isSentenceMark_of_punctuation hreading).1, rfl⟩)
      exact ⟨r, hr, Outcome.ended hend (by rcases hinput with h | h <;> simp [h])⟩
    · obtain ⟨r, hr, hend⟩ := hcommit
      exact ⟨_, by rw [hr]; rfl, outcome_thenIdle hs hend hinput⟩
  unfold handleSelecting
  dsimp only
  split
  · exact htyped (Or.inl ‹_›)
  · exact htyped (Or.inr ‹_›)
  · obtain ⟨kana, romaji, herase⟩ := eraseLastUnit_eq
      { s with kind := s.readingKind, selectedIndex := 0 }
    refine ⟨_, rfl, ?_⟩
    rw [herase]
    exact outcome_afterReadingChanged hs (Or.inr hk) (by simp [*])
      [.hideCandidateWindow] (by simp [ClientAction.Inert]) (readingKind_cases s) rfl
      kana romaji
  · exact outcome_moveSelection hk hpos event _
  · exact outcome_moveSelection hk hpos event _
  · exact outcome_moveSelection hk hpos event _
  · exact outcome_moveSelection hk hpos event _
  · exact outcome_moveSelection hk hpos event _
  · split
    · rename_i hdigit
      have hindex : (event.digit - 1).toNat < s.candidates.length := by omega
      obtain ⟨r, hr, hend⟩ := ending_commitCandidate event
        (List.getElem?_eq_getElem hindex) (Or.inl hk) (Or.inl rfl)
      exact ⟨r, hr, Outcome.ended hend (by simp [*])⟩
    · exact ⟨_, rfl, Outcome.inert (by simp)⟩
  · obtain ⟨r, hr, hend⟩ := hcommit
    exact ⟨r, hr, Outcome.ended hend (by simp [*])⟩
  · exact ⟨_, rfl, Outcome.ended (Ending.cancelled [.hideCandidateWindow]
      s.romaji (by simp [ClientAction.Inert])) (by simp [*])⟩
  · obtain ⟨r, hr, hend⟩ := hcommit
    have hx : r.next.unicodeHex = [] :=
      (hend.inv hs).1.hexMode (by simp [(hend.inv hs).2])
    refine ⟨_, by rw [hr]; rfl, ?_⟩
    have h := Outcome.unicode hend
    rw [← hx] at h
    exact h
  · exact ⟨_, rfl, Outcome.inert (by simp)⟩

/-- An event while the prompt is open. -/
theorem outcome_handleReplaceSuggestion {s : InputState} (hk : s.kind = .replaceSuggestion)
    (event : UserActionEvent) :
    Outcome s (.event event) (s.handleReplaceSuggestion event).actions
      (s.handleReplaceSuggestion event).next := by
  unfold handleReplaceSuggestion
  split
  · exact Outcome.ended (Ending.prompt hk (by simp [ClientAction.Inert])) (by simp [*])
  · exact Outcome.ended (Ending.prompt hk (by simp [ClientAction.Inert])) (by simp [*])
  · exact Outcome.inert (by simp)

/-- Finishing Unicode input ends it, or leaves the state and beeps. -/
theorem finish_cases {s : InputState} (hk : s.kind = .unicodeInput) (event : UserActionEvent)
    (beepOnInvalid : Bool) :
    ((s.finish beepOnInvalid).1 = true
        ∧ Ending s event (s.finish beepOnInvalid).2.actions (s.finish beepOnInvalid).2.next)
      ∨ ((s.finish beepOnInvalid).1 = false ∧ (s.finish beepOnInvalid).2.next = s
        ∧ ∀ a ∈ (s.finish beepOnInvalid).2.actions, a.Inert) := by
  unfold finish
  split
  · exact Or.inl ⟨rfl, Ending.cancelled [] s.romaji (by simp)⟩
  · split
    · refine Or.inr ⟨rfl, rfl, ?_⟩
      cases beepOnInvalid <;> simp [ClientAction.Inert]
    · exact Or.inl ⟨rfl, Ending.scalar hk⟩

/-- A character typed during Unicode input. -/
theorem outcome_handleHexInput {s : InputState} (hs : s.Inv) (hk : s.kind = .unicodeInput)
    {event : UserActionEvent} (hinput : event.action = .input ∨ event.action = .inputAlnum) :
    Outcome s (.event event) (s.handleHexInput event).actions (s.handleHexInput event).next := by
  unfold handleHexInput
  split
  · split
    · exact Outcome.inert (by simp [ClientAction.Inert])
    · exact Outcome.digits hk (by rw [List.length_append, List.length_singleton]; omega)
  · rcases finish_cases hk event false with ⟨hfin, hend⟩ | ⟨hfin, -, hinert⟩
    · simp only [hfin, if_true]
      exact outcome_thenIdle hs hend hinput
    · have hend : Ending s event ((s.finish false).2.actions ++ [.playBeep, .cancelMarkedText])
          s.resetComposition := by
        have h : Ending s event _ _ := Ending.cancelled
          ((s.finish false).2.actions ++ [.playBeep]) s.romaji (by
            intro a ha
            rcases List.mem_append.mp ha with ha | ha
            · exact hinert a ha
            · rw [List.mem_singleton.mp ha]; trivial)
        rwa [List.append_assoc] at h
      simp only [hfin, Bool.false_eq_true, if_false]
      exact outcome_thenIdle hs hend hinput

/-- An event during Unicode input. -/
theorem outcome_handleUnicodeInput {s : InputState} (hs : s.Inv) (hk : s.kind = .unicodeInput)
    (event : UserActionEvent) :
    Outcome s (.event event) (s.handleUnicodeInput event).actions
      (s.handleUnicodeInput event).next := by
  have hcancel : Ending s event [.cancelMarkedText] s.resetComposition :=
    Ending.cancelled [] s.romaji (by simp)
  unfold handleUnicodeInput
  split
  · exact outcome_handleHexInput hs hk (Or.inl ‹_›)
  · exact outcome_handleHexInput hs hk (Or.inr ‹_›)
  · split
    · exact Outcome.ended hcancel (by simp [*])
    · refine Outcome.digits hk ?_
      rw [List.length_dropLast]
      exact (Nat.sub_le _ _).trans hs.hexLength
  · rcases finish_cases hk event true with ⟨-, hend⟩ | ⟨-, hnext, hinert⟩
    · exact Outcome.ended hend (by simp [*])
    · rw [hnext]
      exact Outcome.inert hinert
  · exact Outcome.ended hcancel (by simp [*])
  · exact Outcome.inert (by simp)

/-- The arrival of candidates. -/
theorem outcome_handleCandidatesArrived {s : InputState} (candidates : List Candidate) :
    ∃ r, s.handleCandidatesArrived candidates = some r
      ∧ Outcome s (.arrived candidates) r.actions r.next := by
  unfold handleCandidatesArrived
  split
  · rename_i hk
    dsimp only
    split
    · rename_i hawait
      cases candidates with
      | nil => exact ⟨_, rfl, Outcome.cached hk (Or.inr rfl)⟩
      | cons front others => exact ⟨_, rfl, Outcome.opened hk hawait⟩
    · rename_i hawait
      have hawait' : s.awaitingCandidates = false := by simpa using hawait
      refine ⟨_, rfl, ?_⟩
      have h : Outcome s (.arrived candidates) _ _ := Outcome.cached hk (Or.inl hawait')
      rw [← hawait'] at h
      exact h
  · exact ⟨_, rfl, Outcome.ignored ‹_›⟩

/-- **Every call takes a step, and the step is one of the outcomes.** -/
theorem call_outcome {s : InputState} (hs : s.Inv) (call : Call) :
    ∃ r, s.call call = some r ∧ Outcome s call r.actions r.next := by
  cases call with
  | arrived candidates => exact outcome_handleCandidatesArrived candidates
  | event event =>
    change ∃ r, s.handleEvent event = some r ∧ _
    unfold handleEvent
    split
    · exact ⟨_, rfl, Outcome.inert (by simp [ClientAction.Inert])⟩
    · exact ⟨_, rfl, Outcome.inert (by simp [ClientAction.Inert])⟩
    · exact ⟨_, rfl, Outcome.inert (by simp [ClientAction.Inert])⟩
    · exact ⟨_, rfl, Outcome.inert (by simp [ClientAction.Inert])⟩
    · split
      · exact ⟨_, rfl, outcome_handleIdle hs ‹_› event⟩
      · exact outcome_handleComposing hs (Or.inl ‹_›) event
      · exact outcome_handleComposing hs (Or.inr ‹_›) event
      · exact outcome_handleSelecting hs ‹_› event
      · exact ⟨_, rfl, outcome_handleReplaceSuggestion ‹_› event⟩
      · exact ⟨_, rfl, outcome_handleUnicodeInput hs ‹_› event⟩

/-- The operations that emit nothing keep the invariant. -/
theorem Inv.withComposition {s : InputState} (kana : Bytes) (romaji : RomajiKanaConverter) :
    (s.withComposition kana romaji).Inv := by
  unfold InputState.withComposition
  split
  · exact inv_of_active (Or.inl rfl) rfl rfl
  · rename_i hblank
    simp only [Bool.or_eq_true, Bool.not_eq_true', List.isEmpty_eq_false_iff, not_or, not_not,
      RomajiKanaConverter.hasPending] at hblank
    exact ⟨fun h => absurd h (by simp), fun _ => rfl, fun h => absurd h (by simp [reset,
      resetComposition]), fun _ => rfl, Nat.zero_le _, fun _ => ⟨hblank.1, hblank.2, rfl⟩⟩

/-- A corrected reading keeps the invariant. -/
theorem Inv.withCorrectedReading {s : InputState} (hs : s.Inv) (kana : Bytes) :
    (s.withCorrectedReading kana).Inv := by
  unfold InputState.withCorrectedReading
  split
  · exact hs
  · rename_i hguard
    have hk : s.Active ∨ s.kind = .selecting := by
      simp only [Bool.or_eq_true, Bool.not_eq_true', not_or, Bool.not_eq_false,
        decide_eq_true_eq] at hguard
      exact hguard.2
    rcases hk with hk | hk
    · exact inv_of_active hk (hs.unselected hk.ne.1) (hs.hexMode hk.ne.2.1)
    · refine inv_of_selecting hk (hs.selected hk) ?_ (hs.hexMode (by simp [hk]))
      by_contra hawait
      exact (hs.awaiting (by simpa using hawait)).ne.1 hk

/-- **Every operation takes a step and keeps the invariant.** -/
theorem apply_inv {s : InputState} (hs : s.Inv) (op : Op) :
    ∃ r, s.apply op = some r ∧ r.next.Inv := by
  cases op with
  | call c =>
    obtain ⟨r, hr, hout⟩ := call_outcome hs c
    exact ⟨r, hr, hout.inv hs⟩
  | withComposition kana romaji => exact ⟨_, rfl, Inv.withComposition kana romaji⟩
  | withCorrectedReading kana => exact ⟨_, rfl, hs.withCorrectedReading kana⟩
  | withLiveConversion enabled => exact ⟨_, rfl, ⟨hs.1, hs.2, hs.3, hs.4, hs.5, hs.6⟩⟩
  | withPunctuationConversion enabled => exact ⟨_, rfl, ⟨hs.1, hs.2, hs.3, hs.4, hs.5, hs.6⟩⟩
  | reset => exact ⟨_, rfl, inv_resetComposition s⟩

/-- The state after an operation. -/
def applyState (s : InputState) (op : Op) : Option InputState := (s.apply op).map HandleResult.next

/-- **The invariant of every reachable state.** Any sequence of public
operations on the initial state goes through, so that no event indexes a
missing candidate or divides by a candidate count of zero, and ends in a
state in which a selection points at a candidate, nothing is selected
elsewhere, only a reading waits for candidates, at most eight digits are
collected and only during Unicode input, and the other modes hold no
composition. -/
theorem reachable_inv (ops : List Op) :
    ∃ s, ops.foldlM applyState ({} : InputState) = some s
      ∧ (s.kind = .selecting → s.candidates ≠ [] ∧ s.selectedIndex < s.candidates.length)
      ∧ (s.kind ≠ .selecting → s.selectedIndex = 0)
      ∧ (s.awaitingCandidates = true → s.kind = .composing ∨ s.kind = .previewing)
      ∧ (s.kind ≠ .unicodeInput → s.unicodeHex = []) ∧ s.unicodeHex.length ≤ 8
      ∧ (s.kind = .idle ∨ s.kind = .replaceSuggestion ∨ s.kind = .unicodeInput →
          s.kana = [] ∧ s.romaji.pending = [] ∧ s.candidates = []) := by
  have hstep : ∀ (s : InputState) (op : Op), s.Inv → ∃ s', s.applyState op = some s' ∧ s'.Inv := by
    intro s op hs
    obtain ⟨r, hr, hinv⟩ := apply_inv hs op
    exact ⟨r.next, by rw [applyState, hr]; rfl, hinv⟩
  obtain ⟨s, hrun, hs⟩ := Run.exists_foldlM hstep inv_init ops
  refine ⟨s, hrun, fun hk => ⟨?_, hs.selected hk⟩, hs.unselected, hs.awaiting, hs.hexMode,
    hs.hexLength, hs.blank⟩
  exact List.length_pos_iff.mp (Nat.zero_lt_of_lt (hs.selected hk))

end InputState

end AzooKey.Core

import AzooKey.Core.Utf8
import AzooKey.Lib.Charconv
import AzooKey.Lib.Mealy

/-!
# The rings of the debug window

`tsf-tip/src/DebugLogBuffer.cpp`: two rings of the newest log entries, one for
messages to the host and one for changes of state, and the lines they are rendered
as. What was typed may be shown only if that was allowed when the entry was pushed
and is allowed when it is rendered; otherwise its place is taken by the number of
its code points.

This is a property of two runs. Entries that are `SameShape` have texts of the same
lengths, and agree in everything else. Where an entry was pushed with the gate
closed, the buffer keeps nothing of its texts (`storedOf_sameShape`), and a line that
is rendered with the gate closed shows nothing of them (`renderIpc_alike`).
-/

namespace AzooKey.Tsf

open AzooKey.Core

/-- `kDebugLogCapacity`. -/
def debugLogCapacity : ℕ := 50

/-- `kDebugLogTopCandidates`. -/
def debugLogTopCandidates : ℕ := 3

/-- `DebugIpcLogEntry`. -/
structure DebugIpcLogEntry where
  reqId : UInt64
  messageType : Bytes
  reading : Bytes
  candidates : List Bytes
  latencyMs : UInt32
  staleDropped : Bool
deriving DecidableEq

/-- `DebugStateTransitionEntry`. -/
structure DebugStateTransitionEntry where
  fromState : Bytes
  toState : Bytes
deriving DecidableEq

/-- `StoredIpc`. -/
structure StoredIpc where
  entry : DebugIpcLogEntry
  readingLength : ℕ
  candidateLengths : List ℕ
  bodyRetained : Bool
deriving DecidableEq

/-- The two rings, the oldest entry first. -/
structure DebugLogBuffer where
  ipc : List StoredIpc
  transitions : List DebugStateTransitionEntry
deriving DecidableEq

/-! ## The lines -/

/-- `CodepointLength`: an invalid byte counts as one. -/
def codepointLength (text : Bytes) : ℕ :=
  match h : decodeNextUtf8 text with
  | none => 0
  | some d => codepointLength d.rest + 1
termination_by text.length
decreasing_by exact decodeNextUtf8_rest_lt h

/-- `RedactedText`. -/
def redactedText (length : ℕ) : Bytes := utf8 "<redacted len=" ++ decimalDigits length ++ utf8 ">"

/-- `BodyText`. -/
def bodyText (text : Bytes) (length : ℕ) (showBody : Bool) : Bytes :=
  if !showBody then redactedText length else utf8 "\"" ++ text ++ utf8 "\""

/-- The loop of `RenderIpc` over the candidates: a length whose candidate is not
kept is rendered with no text. -/
def renderCandidates (candidates : List Bytes) (showBody : Bool) : List ℕ → ℕ → Bytes
  | [], _ => []
  | length :: lengths, i =>
    (if i ≠ 0 then utf8 ", " else []) ++ bodyText (candidates.getD i []) length showBody
      ++ renderCandidates candidates showBody lengths (i + 1)

/-- **`RenderIpc`.** -/
def renderIpc (stored : StoredIpc) (bodyAllowed : Bool) : Bytes :=
  let showBody := bodyAllowed && stored.bodyRetained
  let entry := stored.entry
  utf8 "[ipc] req=" ++ decimalDigits entry.reqId.toNat ++ utf8 " " ++ entry.messageType
    ++ utf8 " reading=" ++ bodyText entry.reading stored.readingLength showBody
    ++ utf8 " top" ++ decimalDigits debugLogTopCandidates ++ utf8 "=["
    ++ renderCandidates entry.candidates showBody stored.candidateLengths 0
    ++ utf8 "] latency_ms=" ++ decimalDigits entry.latencyMs.toNat
    ++ (if entry.staleDropped then utf8 " stale_dropped" else [])

/-- `RenderTransition`. -/
def renderTransition (entry : DebugStateTransitionEntry) : Bytes :=
  utf8 "[state] " ++ entry.fromState ++ utf8 " -> " ++ entry.toState

/-! ## The calls -/

/-- The loop that drops the oldest entries of a ring. -/
def trim {α : Type} : List α → List α
  | [] => []
  | entry :: ring => if debugLogCapacity < (entry :: ring).length then trim ring else entry :: ring

/-- What `PushIpc` stores of an entry. -/
def storedOf (entry : DebugIpcLogEntry) (bodyAllowed : Bool) : StoredIpc :=
  let candidates := entry.candidates.take debugLogTopCandidates
  { entry := if bodyAllowed then { entry with candidates := candidates }
      else { entry with reading := [], candidates := [] }
    readingLength := codepointLength entry.reading
    candidateLengths := candidates.map codepointLength
    bodyRetained := bodyAllowed }

namespace DebugLogBuffer

/-- An empty buffer. -/
def empty : DebugLogBuffer := ⟨[], []⟩

/-- **`PushIpc`.** -/
def pushIpc (b : DebugLogBuffer) (entry : DebugIpcLogEntry) (bodyAllowed : Bool) :
    DebugLogBuffer × Bytes :=
  let stored := storedOf entry bodyAllowed
  ({ b with ipc := trim (b.ipc ++ [stored]) }, renderIpc stored bodyAllowed)

/-- **`PushTransition`.** -/
def pushTransition (b : DebugLogBuffer) (entry : DebugStateTransitionEntry) :
    DebugLogBuffer × Bytes :=
  ({ b with transitions := trim (b.transitions ++ [entry]) }, renderTransition entry)

/-- **`RenderLines`.** -/
def renderLines (b : DebugLogBuffer) (bodyAllowed : Bool) : List Bytes :=
  b.ipc.map (fun stored => renderIpc stored bodyAllowed) ++ b.transitions.map renderTransition

/-- A call of the buffer. -/
inductive Call
  | pushIpc (entry : DebugIpcLogEntry) (bodyAllowed : Bool)
  | pushTransition (entry : DebugStateTransitionEntry)
  | renderLines (bodyAllowed : Bool)
  | clear
deriving DecidableEq

/-- A call, with the lines that it returns. -/
def step (b : DebugLogBuffer) : Call → DebugLogBuffer × List Bytes
  | .pushIpc entry bodyAllowed => ((b.pushIpc entry bodyAllowed).1, [(b.pushIpc entry bodyAllowed).2])
  | .pushTransition entry => ((b.pushTransition entry).1, [(b.pushTransition entry).2])
  | .renderLines bodyAllowed => (b, b.renderLines bodyAllowed)
  | .clear => (empty, [])

/-- The buffer after a sequence of calls, and the lines that each of them returned. -/
def run (b : DebugLogBuffer) (calls : List Call) : DebugLogBuffer × List (List Bytes) :=
  Mealy.run step b calls

/-! ## Two runs -/

/-- **Entries that differ in their texts only**, which have the same lengths. -/
structure SameShape (e e' : DebugIpcLogEntry) : Prop where
  reqId : e.reqId = e'.reqId
  messageType : e.messageType = e'.messageType
  reading : codepointLength e.reading = codepointLength e'.reading
  candidates : e.candidates.map codepointLength = e'.candidates.map codepointLength
  latencyMs : e.latencyMs = e'.latencyMs
  staleDropped : e.staleDropped = e'.staleDropped

/-- Calls that differ in texts which are pushed where `Hidden` holds of the gate. -/
inductive Alike (Hidden : Bool → Prop) : Call → Call → Prop
  | same (call : Call) : Alike Hidden call call
  | pushIpc {e e' : DebugIpcLogEntry} {bodyAllowed : Bool} :
      Hidden bodyAllowed → SameShape e e' →
        Alike Hidden (.pushIpc e bodyAllowed) (.pushIpc e' bodyAllowed)

/-- Stored entries that cannot be told apart while the gate is closed. -/
structure StoredAlike (s s' : StoredIpc) : Prop where
  reqId : s.entry.reqId = s'.entry.reqId
  messageType : s.entry.messageType = s'.entry.messageType
  readingLength : s.readingLength = s'.readingLength
  candidateLengths : s.candidateLengths = s'.candidateLengths
  latencyMs : s.entry.latencyMs = s'.entry.latencyMs
  staleDropped : s.entry.staleDropped = s'.entry.staleDropped

/-- **Where the gate is closed nothing of the texts is stored.** -/
theorem storedOf_sameShape {e e' : DebugIpcLogEntry} (h : SameShape e e') :
    storedOf e false = storedOf e' false := by
  obtain ⟨hreq, htype, hreading, hcandidates, hlatency, hstale⟩ := h
  have htop : (e.candidates.take debugLogTopCandidates).map codepointLength
      = (e'.candidates.take debugLogTopCandidates).map codepointLength := by
    rw [List.map_take, List.map_take, hcandidates]
  simp only [storedOf, hreq, htype, hreading, htop, hlatency, hstale]
  rfl

/-- What is stored with the gate open cannot be told apart while it is closed. -/
theorem storedAlike_storedOf {e e' : DebugIpcLogEntry} (h : SameShape e e') (bodyAllowed : Bool) :
    StoredAlike (storedOf e bodyAllowed) (storedOf e' bodyAllowed) := by
  have htop : (e.candidates.take debugLogTopCandidates).map codepointLength
      = (e'.candidates.take debugLogTopCandidates).map codepointLength := by
    rw [List.map_take, List.map_take, h.candidates]
  cases bodyAllowed with
  | false => exact ⟨h.reqId, h.messageType, h.reading, htop, h.latencyMs, h.staleDropped⟩
  | true => exact ⟨h.reqId, h.messageType, h.reading, htop, h.latencyMs, h.staleDropped⟩

/-- With the gate closed the texts are not rendered. -/
theorem renderCandidates_closed (candidates candidates' : List Bytes) (lengths : List ℕ) (i : ℕ) :
    renderCandidates candidates false lengths i = renderCandidates candidates' false lengths i := by
  induction lengths generalizing i with
  | nil => rfl
  | cons length lengths ih =>
    rw [renderCandidates, renderCandidates, ih]
    rfl

/-- **A line that is rendered with the gate closed** does not show the texts. -/
theorem renderIpc_alike {s s' : StoredIpc} (h : StoredAlike s s') :
    renderIpc s false = renderIpc s' false := by
  unfold renderIpc
  dsimp only
  rw [Bool.false_and, Bool.false_and, h.reqId, h.messageType, h.readingLength, h.candidateLengths,
    h.latencyMs, h.staleDropped, renderCandidates_closed s.entry.candidates s'.entry.candidates]
  rfl

/-- The oldest entries are dropped in step. -/
theorem forall₂_trim {R : StoredIpc → StoredIpc → Prop} {l l' : List StoredIpc}
    (h : List.Forall₂ R l l') : List.Forall₂ R (trim l) (trim l') := by
  induction h with
  | nil => exact .nil
  | cons hfirst hrest ih =>
    rw [trim, trim, List.length_cons, List.length_cons, hrest.length_eq]
    split
    · exact ih
    · exact .cons hfirst hrest

/-- Buffers that cannot be told apart while the gate is closed. -/
structure BufferAlike (b b' : DebugLogBuffer) : Prop where
  ipc : List.Forall₂ StoredAlike b.ipc b'.ipc
  transitions : b.transitions = b'.transitions

/-- A buffer is like itself. -/
theorem bufferAlike_refl (b : DebugLogBuffer) : BufferAlike b b :=
  ⟨List.forall₂_same.mpr (fun _ _ => ⟨rfl, rfl, rfl, rfl, rfl, rfl⟩), rfl⟩

/-- **Calls with like texts lead from like buffers to like buffers.** -/
theorem bufferAlike_step {Hidden : Bool → Prop} {b b' : DebugLogBuffer} (hb : BufferAlike b b')
    {call call' : Call} (h : Alike Hidden call call') :
    BufferAlike (b.step call).1 (b'.step call').1 := by
  have hpush : ∀ {e e' : DebugIpcLogEntry} {bodyAllowed : Bool},
      StoredAlike (storedOf e bodyAllowed) (storedOf e' bodyAllowed) →
        BufferAlike (b.pushIpc e bodyAllowed).1 (b'.pushIpc e' bodyAllowed).1 := fun hstored =>
    ⟨forall₂_trim (List.rel_append hb.ipc (.cons hstored .nil)), hb.transitions⟩
  cases h with
  | same call =>
    cases call with
    | pushIpc e bodyAllowed => exact hpush ⟨rfl, rfl, rfl, rfl, rfl, rfl⟩
    | pushTransition e =>
      refine ⟨hb.ipc, ?_⟩
      show trim (b.transitions ++ [e]) = trim (b'.transitions ++ [e])
      rw [hb.transitions]
    | renderLines bodyAllowed => exact hb
    | clear => exact bufferAlike_refl empty
  | pushIpc hidden hshape => exact hpush (storedAlike_storedOf hshape _)

/-- **Like buffers render the same lines with the gate closed.** -/
theorem renderLines_alike {b b' : DebugLogBuffer} (h : BufferAlike b b') :
    b.renderLines false = b'.renderLines false := by
  have hlines : b.ipc.map (fun stored => renderIpc stored false)
      = b'.ipc.map (fun stored => renderIpc stored false) := by
    rw [← List.forall₂_eq_eq_eq, List.forall₂_map_left_iff, List.forall₂_map_right_iff]
    exact h.ipc.imp (fun _ _ hstored => renderIpc_alike hstored)
  unfold renderLines
  rw [hlines, h.transitions]

/-- **Texts that are pushed with the gate closed leave no trace**: a call with such
a text does what it does with another of the same length. -/
theorem step_alike {b : DebugLogBuffer} {call call' : Call} (h : Alike (· = false) call call') :
    b.step call = b.step call' := by
  cases h with
  | same call => rfl
  | pushIpc hidden hshape =>
    subst hidden
    show ((b.pushIpc _ false).1, [(b.pushIpc _ false).2])
      = ((b.pushIpc _ false).1, [(b.pushIpc _ false).2])
    unfold DebugLogBuffer.pushIpc
    rw [storedOf_sameShape hshape]

/-- **Redaction, over two runs.** Runs that differ in texts pushed with the gate
closed return the same lines and leave the same buffer; and after runs that differ
in any texts the lines rendered with the gate closed are the same. -/
theorem renderLines_redacts :
    (∀ b calls calls', List.Forall₂ (Alike (· = false)) calls calls' →
        run b calls = run b calls')
      ∧ ∀ b calls calls', List.Forall₂ (Alike (fun _ => True)) calls calls' →
          (run b calls).1.renderLines false = (run b calls').1.renderLines false := by
  refine ⟨fun b calls calls' h => ?_, fun b calls calls' h => renderLines_alike ?_⟩
  · have hstep : ∀ s t i k, s = t → Alike (· = false) i k →
        (step s i).1 = (step t k).1 ∧ (step s i).2 = (step t k).2 := by
      rintro s _ i k rfl hik
      rw [step_alike hik]
      exact ⟨rfl, rfl⟩
    obtain ⟨hlast, hlines⟩ := Mealy.run_related hstep (rfl : b = b) h
    exact Prod.ext hlast (List.forall₂_eq_eq_eq ▸ hlines)
  · have hstep : ∀ s t i k, BufferAlike s t → Alike (fun _ => True) i k →
        BufferAlike (step s i).1 (step t k).1 ∧ True :=
      fun s t i k hb hik => ⟨bufferAlike_step hb hik, trivial⟩
    exact (@Mealy.run_related _ _ _ step _ _ _ step BufferAlike _ (fun _ _ => True) hstep _ _
      (bufferAlike_refl b) _ _ h).1

/-- A conversion of a reading, with its first candidate. -/
def converted (reading candidate : Bytes) : DebugIpcLogEntry :=
  ⟨7, utf8 "Convert", reading, [candidate], 12, false⟩

/-- **A secret and a meeting**, of the same lengths. Pushed with the gate closed, both
show the same, with the gate open or not; pushed with the gate open they are told
apart, and not while it is closed. -/
theorem renderLines_redacts_secret :
    let secret := converted (utf8 "ひみつ") (utf8 "秘密")
    let meeting := converted (utf8 "かいぎ") (utf8 "会議")
    run empty [.pushIpc secret false, .renderLines true]
        = run empty [.pushIpc meeting false, .renderLines true]
      ∧ run empty [.pushIpc secret true] ≠ run empty [.pushIpc meeting true]
      ∧ (run empty [.pushIpc secret true]).1.renderLines false
        = (run empty [.pushIpc meeting true]).1.renderLines false := by
  intro secret meeting
  have hshape : SameShape secret meeting :=
    ⟨rfl, rfl, by decide +kernel, by decide +kernel, rfl, rfl⟩
  obtain ⟨hclosed, hopen⟩ := renderLines_redacts
  refine ⟨hclosed _ _ _ (.cons (.pushIpc rfl hshape) (.cons (.same _) .nil)), fun h => ?_,
    hopen _ _ _ (.cons (.pushIpc trivial hshape) .nil)⟩
  have hentry := congrArg (fun r => r.1.ipc.map (fun stored => stored.entry.reading)) h
  exact absurd hentry (by decide)

end DebugLogBuffer

end AzooKey.Tsf

import AzooKey.Ipc.Payloads

/-!
# The dispatcher and what it lets through to learning

`inference-host/src/Dispatcher.cpp`: the session of one connection, its
handshake, and the four messages that reach the observation entry points of the
engine. What a text service reports may be learned from only if the service
said in its handshake that it marks secure input, if the report itself says
that it is not secure and may be learned from, and if the privacy policy of the
host does not forbid it. The check is made in each of the handlers.

`Authorized` states this condition without the session: it reads the messages
that came before. `calls_of_authorized` and `calls_of_not_authorized` compare
the dispatcher with it: a message that does not meet the condition reaches no
entry point, and for one that does the calls are a function of the message and
of the observations that were made, `observe`. From that, two sequences of
messages that differ in unauthorized messages only cause the same calls.

The engine is modelled as far as it answers the dispatcher: `CommitObservation`
says whether the observation is new, by the identifiers of the observations
that were applied.
-/

namespace AzooKey.Host

open Ipc Json

/-! ## The engine -/

/-- A call of an observation entry point, with its arguments. -/
inductive Call
  | commitObservation (reading surface : Bytes) (now : UInt64)
      (observationId appName leftContext : Bytes)
  | commitEnglishObservation (rawRomaji surface : Bytes) (now : UInt64) (observationId : Bytes)
  | commitSegmentsObservation (request : CommitSegmentsObservationRequest) (now : UInt64)
  | commitCorrection (reading rejectedSurface : Bytes) (selectedSurface : Option Bytes)
      (now : UInt64) (observationId appName leftContext : Bytes)
  | observeTypo (wrongReading correctReading : Bytes) (now : UInt64)
  | recordRejectedEnglish (shown : List CandidateField) (chosenSurface : Bytes) (now : UInt64)
deriving DecidableEq

/-- `kMaxTrackedObservationIds`. -/
def maxTrackedObservationIds : ℕ := 32 * 64

/-- What the engine remembers of the observations: whether it has a store for
English words, and the identifiers that it applied, the oldest first. -/
structure Engine where
  hasEnglishStore : Bool
  appliedObservationIds : List Bytes

/-- `NoteObservationIdLocked`. -/
def Engine.noteObservationId (e : Engine) (observationId : Bytes) : Bool × Engine :=
  if observationId.isEmpty then (true, e)
  else if observationId ∈ e.appliedObservationIds then (false, e)
  else
    let ids := e.appliedObservationIds ++ [observationId]
    (true, { e with appliedObservationIds := ids.drop (ids.length - maxTrackedObservationIds) })

/-- The engine after a call. Without a store for English words the identifier of
an English observation is not noted. -/
def Engine.after (e : Engine) : Call → Engine
  | .commitObservation _ _ _ observationId _ _ => (e.noteObservationId observationId).2
  | .commitEnglishObservation _ _ _ observationId =>
    if e.hasEnglishStore then (e.noteObservationId observationId).2 else e
  | .commitSegmentsObservation request _ => (e.noteObservationId request.observationId).2
  | .commitCorrection _ _ _ _ observationId _ _ => (e.noteObservationId observationId).2
  | .observeTypo _ _ _ => e
  | .recordRejectedEnglish _ _ _ => e

/-! ## The session -/

/-- The part of `DispatcherConfig` that the handshake compares with. -/
structure DispatcherConfig where
  protocolVersion : ℤ := handshakeProtocolVersion
  handshakeToken : Bytes := []

/-- The part of `PrivacyPolicy` that the handlers read. -/
structure PrivacyPolicy where
  secure : Bool := true
  learningAllowed : Bool := false

/-- The session of a connection. -/
structure Dispatcher where
  clientId : Bytes := []
  authenticated : Bool := false
  clientSupportsSecureFlag : Bool := false

/-- A message as a client sends it, with what the clock says when it is handled
and at a second call of it. -/
structure Message where
  envelope : Envelope
  now : UInt64
  later : UInt64

/-- A message with the privacy policy of the host at that moment; there is none
without a store for settings. -/
structure Arrival extends Message where
  privacy : Option PrivacyPolicy

/-- The policy forbids learning. -/
def Arrival.hostLearningBlocked (m : Arrival) : Bool :=
  m.privacy.any (fun policy => policy.secure || !policy.learningAllowed)

/-- `ConstantTimeEquals`. -/
def constantTimeEquals (left right : Bytes) : Bool :=
  (List.range (max left.length right.length)).foldl
    (fun difference i => difference ||| ((left.getD i 0) ^^^ (right.getD i 0)).toNat)
    (left.length ^^^ right.length) = 0

/-- `RequiresAuthenticatedSession`. -/
def Dispatcher.requiresAuthenticatedSession (config : DispatcherConfig) (d : Dispatcher) : Bool :=
  !config.handshakeToken.isEmpty && !d.authenticated

/-- `LearningAllowed`. -/
def Dispatcher.learningAllowed (d : Dispatcher)
    (secure learningAllowed hostLearningBlocked : Bool) : Bool :=
  d.clientSupportsSecureFlag && !secure && learningAllowed && !hostLearningBlocked

/-- The session that a handshake leaves. -/
def handleHandshake (config : DispatcherConfig) (payload : Bytes) : Dispatcher :=
  match parseHandshakeRequest payload with
  | none => ⟨[], false, false⟩
  | some parsed =>
    let versionOk := parsed.protocolVersion = config.protocolVersion
    let tokenOk := config.handshakeToken.isEmpty
      || constantTimeEquals parsed.handshakeToken config.handshakeToken
    let accepted := versionOk && tokenOk
    { clientId := if accepted then parsed.clientId else []
      authenticated := accepted
      clientSupportsSecureFlag := accepted && parsed.capabilities.contains (utf8 "secure_flag") }

/-! ## The handlers -/

/-- `IsPrintableAsciiWord`. -/
def isPrintableAsciiWord (text : Bytes) : Bool :=
  !text.isEmpty && text.all (fun c => 0x20 < c && c < 0x7f)

/-- `IsEnglishObservation`; the tag of English is 4. -/
def isEnglishObservation (reading : Bytes) (tag : UInt8) : Bool :=
  tag == 4 && isPrintableAsciiWord reading

/-- The name of the process that a request came from. -/
def appName (app : Option AppIdentity) : Bytes := (app.map AppIdentity.processName).getD []

/-- **`HandleCommitObservation`.** -/
def Dispatcher.handleCommitObservation (d : Dispatcher) (e : Engine) (m : Arrival) : List Call :=
  match parseCommitObservationRequest m.envelope.payloadJson with
  | none => []
  | some parsed =>
    if d.learningAllowed parsed.secure parsed.learningAllowed m.hostLearningBlocked then
      if isEnglishObservation parsed.reading parsed.chosen.tag then
        [.commitEnglishObservation parsed.reading parsed.chosen.surface m.now
          parsed.observationId]
      else
        let commit := Call.commitObservation parsed.reading parsed.chosen.surface m.now
          parsed.observationId (appName parsed.app) parsed.leftContext
        if (e.noteObservationId parsed.observationId).1 then
          [commit, .recordRejectedEnglish parsed.shown parsed.chosen.surface m.later]
        else [commit]
    else []

/-- **`HandleCommitCorrection`.** -/
def Dispatcher.handleCommitCorrection (d : Dispatcher) (m : Arrival) : List Call :=
  match parseCommitCorrectionRequest m.envelope.payloadJson with
  | none => []
  | some parsed =>
    if d.learningAllowed parsed.secure parsed.learningAllowed m.hostLearningBlocked then
      [.commitCorrection parsed.reading parsed.rejectedSurface parsed.selectedSurface m.now
        parsed.observationId (appName parsed.app) parsed.leftContext]
    else []

/-- The handler of `CommitSegmentsObservation`, which stands in `Dispatch`. -/
def Dispatcher.handleCommitSegmentsObservation (d : Dispatcher) (m : Arrival) : List Call :=
  match parseCommitSegmentsObservationRequest m.envelope.payloadJson with
  | none => []
  | some parsed =>
    if d.learningAllowed parsed.secure parsed.learningAllowed m.hostLearningBlocked then
      [.commitSegmentsObservation parsed m.now]
    else []

/-- **`HandleObserveTypo`.** -/
def Dispatcher.handleObserveTypo (d : Dispatcher) (m : Arrival) : List Call :=
  match parseObserveTypoRequest m.envelope.payloadJson with
  | none => []
  | some parsed =>
    if d.learningAllowed parsed.secure parsed.learningAllowed m.hostLearningBlocked then
      [.observeTypo parsed.wrongReading parsed.correctReading m.now]
    else []

/-- The calls of the handler of a message; the other messages make none. -/
def Dispatcher.handle (d : Dispatcher) (e : Engine) (m : Arrival) : List Call :=
  match m.envelope.type with
  | .commitObservation => d.handleCommitObservation e m
  | .commitCorrection => d.handleCommitCorrection m
  | .commitSegmentsObservation => d.handleCommitSegmentsObservation m
  | .observeTypo => d.handleObserveTypo m
  | _ => []

/-- A connection: its session and the engine. -/
structure Session where
  dispatcher : Dispatcher
  engine : Engine

/-- **`Dispatch`**: the observation calls of a message, and what it leaves. -/
def Session.dispatch (config : DispatcherConfig) (s : Session) (m : Arrival) :
    List Call × Session :=
  if m.envelope.type = .handshake then
    ([], { s with dispatcher := handleHandshake config m.envelope.payloadJson })
  else if s.dispatcher.requiresAuthenticatedSession config then ([], s)
  else
    let calls := s.dispatcher.handle s.engine m
    (calls, { s with engine := calls.foldl Engine.after s.engine })

/-- The session after a sequence of messages. -/
def Session.run (config : DispatcherConfig) (s : Session) (messages : List Arrival) : Session :=
  messages.foldl (fun s m => (s.dispatch config m).2) s

/-- The observation calls of a sequence of messages. -/
def Session.calls (config : DispatcherConfig) (s : Session) : List Arrival → List Call
  | [] => []
  | m :: messages => (s.dispatch config m).1 ++ (s.dispatch config m).2.calls config messages

/-- The session of a new connection. -/
def Session.start (engine : Engine) : Session := ⟨{}, engine⟩

/-! ## The condition -/

/-- **A handshake that opens a connection to learning**: the version and, when
there is one, the token match, and the client marks secure input. -/
def OpensLearning (config : DispatcherConfig) (payload : Bytes) : Prop :=
  ∃ p, parseHandshakeRequest payload = some p ∧ p.protocolVersion = config.protocolVersion
    ∧ (config.handshakeToken = [] ∨ p.handshakeToken = config.handshakeToken)
    ∧ utf8 "secure_flag" ∈ p.capabilities

/-- The last handshake of some messages. -/
def lastHandshake (messages : List Arrival) : Option Arrival :=
  (messages.filter (fun m => m.envelope.type = .handshake)).getLast?

/-- **A message that may be learned from**, after the messages `before`. -/
structure Authorized (config : DispatcherConfig) (before : List Arrival) (m : Arrival) : Prop where
  handshake : ∃ h, lastHandshake before = some h ∧ OpensLearning config h.envelope.payloadJson
  payload : ReportsOpen m.envelope.payloadJson
  policy : ∀ policy, m.privacy = some policy →
    policy.secure = false ∧ policy.learningAllowed = true

/-- **Two sequences that differ in unauthorized messages only.** A message that
both have may meet another policy, as long as it is authorized in both. -/
inductive DifferUnauthorized (config : DispatcherConfig) : List Arrival → List Arrival → Prop
  | nil : DifferUnauthorized config [] []
  | both {s t : List Arrival} {m m' : Arrival} : DifferUnauthorized config s t →
      Authorized config s m → Authorized config t m' → m.toMessage = m'.toMessage →
      DifferUnauthorized config (s ++ [m]) (t ++ [m'])
  | left {s t : List Arrival} {m : Arrival} : DifferUnauthorized config s t →
      ¬ Authorized config s m → DifferUnauthorized config (s ++ [m]) t
  | right {s t : List Arrival} {m : Arrival} : DifferUnauthorized config s t →
      ¬ Authorized config t m → DifferUnauthorized config s (t ++ [m])

/-! ## The token -/

/-- Or-ing up differences gives none if and only if there is none. -/
theorem foldl_or_eq_zero {α : Type} (f : α → ℕ) (xs : List α) (n : ℕ) :
    xs.foldl (fun d i => d ||| f i) n = 0 ↔ n = 0 ∧ ∀ i ∈ xs, f i = 0 := by
  induction xs generalizing n with
  | nil => simp
  | cons x xs ih =>
    rw [List.foldl_cons, ih, Nat.or_eq_zero_iff, List.forall_mem_cons, and_assoc]

/-- **`ConstantTimeEquals` is equality.** -/
theorem constantTimeEquals_iff (left right : Bytes) :
    constantTimeEquals left right = true ↔ left = right := by
  unfold constantTimeEquals
  rw [decide_eq_true_eq, foldl_or_eq_zero]
  constructor
  · rintro ⟨hlength, hbytes⟩
    have hlength : left.length = right.length := Nat.xor_eq_zero_iff.mp hlength
    refine List.ext_getElem hlength fun i hleft hright => ?_
    have hbyte := hbytes i (List.mem_range.mpr (lt_max_of_lt_left hleft))
    rw [List.getD_eq_getElem _ _ hleft, List.getD_eq_getElem _ _ hright] at hbyte
    have hzero : left[i] ^^^ right[i] = 0 := UInt8.toNat.inj hbyte
    exact UInt8.xor_eq_zero_iff.mp hzero
  · rintro rfl
    simp

/-! ## The session follows the last handshake -/

/-- **The session that a handshake leaves lets reports through if and only if
the handshake opens the connection to learning.** -/
theorem clientSupportsSecureFlag_handleHandshake (config : DispatcherConfig) (payload : Bytes) :
    (handleHandshake config payload).clientSupportsSecureFlag = true
      ↔ OpensLearning config payload := by
  unfold handleHandshake OpensLearning
  cases parseHandshakeRequest payload with
  | none => simp
  | some p =>
    simp only [Bool.and_eq_true, decide_eq_true_eq, Bool.or_eq_true, List.isEmpty_iff,
      constantTimeEquals_iff, List.contains_iff_mem, Option.some.injEq, exists_eq_left', and_assoc]

/-- A session that lets reports through is authenticated. -/
def Dispatcher.Sound (d : Dispatcher) : Prop :=
  d.clientSupportsSecureFlag = true → d.authenticated = true

/-- The session that a handshake leaves is sound. -/
theorem sound_handleHandshake (config : DispatcherConfig) (payload : Bytes) :
    (handleHandshake config payload).Sound := by
  unfold handleHandshake Dispatcher.Sound
  cases parseHandshakeRequest payload with
  | none => simp
  | some p =>
    simp only [Bool.and_eq_true]
    exact fun h => h.1

/-- Only a handshake changes the session. -/
theorem dispatcher_dispatch (config : DispatcherConfig) (s : Session) (m : Arrival) :
    (s.dispatch config m).2.dispatcher
      = if m.envelope.type = .handshake then handleHandshake config m.envelope.payloadJson
        else s.dispatcher := by
  unfold Session.dispatch
  by_cases htype : m.envelope.type = .handshake
  · rw [if_pos htype, if_pos htype]
  · rw [if_neg htype, if_neg htype]
    by_cases hauth : s.dispatcher.requiresAuthenticatedSession config = true
    · rw [if_pos hauth]
    · rw [if_neg hauth]

/-- One message more. -/
theorem run_append (config : DispatcherConfig) (s : Session) (before : List Arrival) (m : Arrival) :
    s.run config (before ++ [m]) = ((s.run config before).dispatch config m).2 := by
  unfold Session.run
  rw [List.foldl_append, List.foldl_cons, List.foldl_nil]

/-- **The session is that of the last handshake.** -/
theorem dispatcher_run (config : DispatcherConfig) (engine : Engine) (before : List Arrival) :
    ((Session.start engine).run config before).dispatcher
      = ((lastHandshake before).map
          (fun h => handleHandshake config h.envelope.payloadJson)).getD {} := by
  induction before using List.reverseRecOn with
  | nil => rfl
  | append_singleton before m ih =>
    rw [run_append, dispatcher_dispatch, ih]
    unfold lastHandshake
    by_cases htype : m.envelope.type = .handshake
    · rw [if_pos htype, List.filter_append, List.filter_singleton]
      simp [htype]
    · rw [if_neg htype, List.filter_append, List.filter_singleton]
      simp [htype]

/-- It is sound. -/
theorem sound_run (config : DispatcherConfig) (engine : Engine) (before : List Arrival) :
    ((Session.start engine).run config before).dispatcher.Sound := by
  rw [dispatcher_run]
  cases lastHandshake before with
  | none => simp [Dispatcher.Sound]
  | some h => exact sound_handleHandshake config _

/-- It lets reports through if and only if the last handshake opens the
connection to learning. -/
theorem clientSupportsSecureFlag_run (config : DispatcherConfig) (engine : Engine)
    (before : List Arrival) :
    ((Session.start engine).run config before).dispatcher.clientSupportsSecureFlag = true
      ↔ ∃ h, lastHandshake before = some h ∧ OpensLearning config h.envelope.payloadJson := by
  rw [dispatcher_run]
  cases lastHandshake before with
  | none => simp
  | some h =>
    rw [Option.map_some, Option.getD_some, clientSupportsSecureFlag_handleHandshake]
    simp

/-! ## The calls of a message -/

/-- `LearningAllowed` needs all of its conditions. -/
theorem learningAllowed_iff (d : Dispatcher) (secure allowed blocked : Bool) :
    d.learningAllowed secure allowed blocked = true
      ↔ d.clientSupportsSecureFlag = true ∧ secure = false ∧ allowed = true ∧ blocked = false := by
  simp [Dispatcher.learningAllowed, and_assoc]

/-- The policy does not forbid learning. -/
theorem hostLearningBlocked_eq_false (m : Arrival) : m.hostLearningBlocked = false
    ↔ ∀ policy, m.privacy = some policy →
      policy.secure = false ∧ policy.learningAllowed = true := by
  unfold Arrival.hostLearningBlocked
  cases m.privacy <;> simp

/-- **What a handler needs to make a call.** -/
theorem of_handle_ne_nil {d : Dispatcher} {e : Engine} {m : Arrival} (h : d.handle e m ≠ []) :
    d.clientSupportsSecureFlag = true ∧ ReportsOpen m.envelope.payloadJson
      ∧ m.hostLearningBlocked = false := by
  -- each handler reads its own payload, and then asks `LearningAllowed`
  have hgate : ∀ {secure allowed : Bool} {calls : List Call},
      (secure = false → allowed = true → ReportsOpen m.envelope.payloadJson) →
      (if d.learningAllowed secure allowed m.hostLearningBlocked then calls else []) ≠ [] →
      d.clientSupportsSecureFlag = true ∧ ReportsOpen m.envelope.payloadJson
        ∧ m.hostLearningBlocked = false := by
    intro secure allowed calls hopen hne
    by_cases hallowed : d.learningAllowed secure allowed m.hostLearningBlocked = true
    · obtain ⟨hflag, hsecure, hlearning, hblocked⟩ := (learningAllowed_iff _ _ _ _).mp hallowed
      exact ⟨hflag, hopen hsecure hlearning, hblocked⟩
    · rw [if_neg hallowed] at hne
      exact absurd rfl hne
  unfold Dispatcher.handle at h
  split at h
  · unfold Dispatcher.handleCommitObservation at h
    split at h
    · exact absurd rfl h
    · rename_i p hp
      exact hgate (CommitObservationRequest.reportsOpen hp) h
  · unfold Dispatcher.handleCommitCorrection at h
    split at h
    · exact absurd rfl h
    · rename_i p hp
      exact hgate (CommitCorrectionRequest.reportsOpen hp) h
  · unfold Dispatcher.handleCommitSegmentsObservation at h
    split at h
    · exact absurd rfl h
    · rename_i p hp
      exact hgate (CommitSegmentsObservationRequest.reportsOpen hp) h
  · unfold Dispatcher.handleObserveTypo at h
    split at h
    · exact absurd rfl h
    · rename_i p hp
      exact hgate (ObserveTypoRequest.reportsOpen hp) h
  · exact absurd rfl h

/-- The calls of a message that the session and the policy let through. -/
def observe (e : Engine) (m : Message) : List Call :=
  Dispatcher.handle ⟨[], true, true⟩ e ⟨m, none⟩

/-- **A handler sees nothing else of the session and of the policy.** -/
theorem handle_eq_observe {d : Dispatcher} {m : Arrival} (e : Engine)
    (hflag : d.clientSupportsSecureFlag = true) (hpolicy : m.hostLearningBlocked = false) :
    d.handle e m = observe e m.toMessage := by
  have hgate : ∀ secure allowed : Bool, d.learningAllowed secure allowed m.hostLearningBlocked
      = Dispatcher.learningAllowed ⟨[], true, true⟩ secure allowed
          (Arrival.hostLearningBlocked ⟨m.toMessage, none⟩) := by
    intro secure allowed
    unfold Dispatcher.learningAllowed
    rw [hflag, hpolicy]
    rfl
  unfold observe Dispatcher.handle Dispatcher.handleCommitObservation
    Dispatcher.handleCommitCorrection Dispatcher.handleCommitSegmentsObservation
    Dispatcher.handleObserveTypo
  simp only [hgate]

section Calls

variable (config : DispatcherConfig) (engine : Engine) (before : List Arrival) (m : Arrival)

/-- **A message that is not authorized makes no call**, and the engine stays as
it is. -/
theorem calls_of_not_authorized (h : ¬ Authorized config before m) :
    (((Session.start engine).run config before).dispatch config m).1 = []
      ∧ (((Session.start engine).run config before).dispatch config m).2.engine
        = ((Session.start engine).run config before).engine := by
  have hnil : ((Session.start engine).run config before).dispatcher.handle
      ((Session.start engine).run config before).engine m = [] := by
    by_contra hne
    obtain ⟨hflag, hopen, hblocked⟩ := of_handle_ne_nil hne
    exact h ⟨(clientSupportsSecureFlag_run config engine before).mp hflag, hopen,
      (hostLearningBlocked_eq_false m).mp hblocked⟩
  unfold Session.dispatch
  by_cases htype : m.envelope.type = .handshake
  · rw [if_pos htype]
    exact ⟨rfl, rfl⟩
  · rw [if_neg htype]
    by_cases hauth : ((Session.start engine).run config before).dispatcher.requiresAuthenticatedSession
        config = true
    · rw [if_pos hauth]
      exact ⟨rfl, rfl⟩
    · rw [if_neg hauth]
      simp only [hnil, List.foldl_nil, and_self]

/-- **The calls of an authorized message** are a function of the message and of
the engine. -/
theorem calls_of_authorized (h : Authorized config before m) :
    (((Session.start engine).run config before).dispatch config m).1
        = observe ((Session.start engine).run config before).engine m.toMessage
      ∧ (((Session.start engine).run config before).dispatch config m).2.engine
        = (observe ((Session.start engine).run config before).engine m.toMessage).foldl
            Engine.after ((Session.start engine).run config before).engine := by
  have hflag := (clientSupportsSecureFlag_run config engine before).mpr h.handshake
  have hobserve := handle_eq_observe ((Session.start engine).run config before).engine hflag
    ((hostLearningBlocked_eq_false m).mpr h.policy)
  unfold Session.dispatch
  by_cases htype : m.envelope.type = .handshake
  · -- a second handshake makes no call, authorized or not
    rw [if_pos htype]
    have hnil : observe ((Session.start engine).run config before).engine m.toMessage = [] := by
      unfold observe Dispatcher.handle
      simp only [htype]
    rw [hnil]
    exact ⟨rfl, rfl⟩
  · rw [if_neg htype]
    have hauth : ((Session.start engine).run config before).dispatcher.requiresAuthenticatedSession
        config = false := by
      unfold Dispatcher.requiresAuthenticatedSession
      rw [sound_run config engine before hflag, Bool.not_true, Bool.and_false]
    rw [if_neg (by rw [hauth]; exact Bool.false_ne_true)]
    simp only [hobserve, and_self]

end Calls

/-! ## The calls of a sequence -/

/-- The calls of one message more. -/
theorem calls_append (config : DispatcherConfig) (s : Session) (before : List Arrival)
    (m : Arrival) : s.calls config (before ++ [m])
      = s.calls config before ++ ((s.run config before).dispatch config m).1 := by
  induction before generalizing s with
  | nil => simp [Session.calls, Session.run]
  | cons b before ih =>
    rw [List.cons_append, Session.calls, Session.calls, ih, List.append_assoc]
    rfl

/-- **Sequences that differ in unauthorized messages only make the same calls**,
and leave the engine the same. -/
theorem calls_eq_of_differUnauthorized {config : DispatcherConfig} (engine : Engine)
    {s t : List Arrival} (h : DifferUnauthorized config s t) :
    (Session.start engine).calls config s = (Session.start engine).calls config t
      ∧ ((Session.start engine).run config s).engine
        = ((Session.start engine).run config t).engine := by
  induction h with
  | nil => exact ⟨rfl, rfl⟩
  | @both s t m m' _ hm hm' hsame ih =>
    obtain ⟨hcalls, hengine⟩ := calls_of_authorized config engine s m hm
    obtain ⟨hcalls', hengine'⟩ := calls_of_authorized config engine t m' hm'
    rw [calls_append, calls_append, run_append, run_append, hcalls, hcalls', hengine, hengine',
      ih.1, ih.2, hsame]
    exact ⟨rfl, rfl⟩
  | @left s t m _ hm ih =>
    obtain ⟨hcalls, hengine⟩ := calls_of_not_authorized config engine s m hm
    rw [calls_append, run_append, hcalls, hengine, List.append_nil]
    exact ih
  | @right s t m _ hm ih =>
    obtain ⟨hcalls, hengine⟩ := calls_of_not_authorized config engine t m hm
    rw [calls_append, run_append, hcalls, hengine, List.append_nil]
    exact ih

/-- **What reaches the observation entry points.** In every sequence of messages
a message makes an observation call only if it is authorized, and sequences that
differ in unauthorized messages only make the same calls. -/
theorem observation_calls_authorized (config : DispatcherConfig) (engine : Engine) :
    (∀ (before : List Arrival) (m : Arrival),
      (((Session.start engine).run config before).dispatch config m).1 ≠ [] →
      Authorized config before m)
    ∧ ∀ s t : List Arrival, DifferUnauthorized config s t →
      (Session.start engine).calls config s = (Session.start engine).calls config t := by
  refine ⟨fun before m hne => ?_, fun s t h => (calls_eq_of_differUnauthorized engine h).1⟩
  by_contra hnot
  exact hne (calls_of_not_authorized config engine before m hnot).1

-- a typo that is reported after a handshake reaches the engine
example :
    let handshake := utf8 "\x7b\"tip_version\":\"1\",\"capabilities\":[\"secure_flag\"]\x7d"
    let typo := utf8 ("\x7b\"wrong_reading\":\"a\",\"correct_reading\":\"b\","
      ++ "\"secure\":false,\"learning_allowed\":true\x7d")
    (Session.start ⟨false, []⟩).calls {}
        [⟨⟨⟨1, 1, [], .handshake, handshake⟩, 5, 5⟩, none⟩,
          ⟨⟨⟨1, 2, [], .observeTypo, typo⟩, 6, 6⟩, none⟩]
      = [.observeTypo (utf8 "a") (utf8 "b") 6] := by
  decide +kernel

end AzooKey.Host

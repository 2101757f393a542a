import AzooKey.Core.InputStateDisplay

/-!
# What the input state machine teaches

A committed candidate is reported by `ObserveCommit`, and the learning store
takes its reading and surface at face value. `Session` watches a run from
outside: the marked text, the reading that was asked for last, the
candidates accepted since, and those shown in the window. `Session.Traced`
is the invariant that ties the cache of the state to these observations, and
`observeCommit_traced` says that whatever is reported is a candidate that
was delivered for the reading it is reported with.

The deliverer has to answer the last question asked (`Session.Answers`); a
list that arrives late or never is no exception to it. `WithCorrectedReading`
replaces the reading under the candidates shown, and is excluded.
-/

namespace AzooKey.Core

/-- The reports to the learning store. -/
def ClientAction.isObserve : ClientAction → Bool
  | .observeCommit _ _ => true
  | _ => false

/-- **A run, seen from outside.** -/
structure Session where
  state : InputState := {}
  /-- The displayed marked text. -/
  text : Bytes := []
  /-- The reading of the last query. -/
  query : Option Bytes := none
  /-- The candidates accepted last since that query. -/
  accepted : List Candidate := []
  /-- The candidates shown last in the window. -/
  shown : List Candidate := []
  /-- The actions of the last step. -/
  emitted : List ClientAction := []

namespace Session

/-- What an action changes. -/
def note (d : Session) (action : ClientAction) : Session :=
  let d := { d with text := display d.text action }
  match action with
  | .queryCandidates reading _ => { d with query := some reading, accepted := [] }
  | .showCandidateWindow candidates _ => { d with shown := candidates }
  | _ => d

/-- What a call delivers: candidates are accepted while a reading is shown. -/
def accept (d : Session) : Op → Session
  | .call (.arrived candidates) =>
    if d.state.Active then { d with accepted := candidates } else d
  | _ => d

/-- **One operation**, with its actions noted in order. -/
def step (d : Session) (op : Op) : Option Session :=
  (d.state.apply op).map fun r =>
    { r.actions.foldl note (d.accept op) with state := r.next, emitted := r.actions }

/-- **The deliverer answers the last question.** Every candidate that arrives
has the reading that was queried last. -/
def Answers (d : Session) : Op → Prop
  | .call (.arrived candidates) => ∀ c ∈ candidates, ∀ reading ∈ d.query, c.reading = reading
  | .withCorrectedReading _ => False
  | _ => True

instance (d : Session) : ∀ op, Decidable (d.Answers op)
  | .call (.arrived _) => inferInstanceAs (Decidable (∀ _ ∈ _, _))
  | .call (.event _) => isTrue trivial
  | .withComposition _ _ => isTrue trivial
  | .withCorrectedReading _ => isFalse id
  | .withLiveConversion _ => isTrue trivial
  | .withPunctuationConversion _ => isTrue trivial
  | .reset => isTrue trivial

/-- The text that an operation types as a sentence mark. -/
def typedMark : Op → Option Bytes
  | .call (.event event) =>
    if isSentenceMark event.codepoint then some (encodeUtf8 event.codepoint) else none
  | _ => none

/-- **A report is traced to a candidate.** At most one report is made, and
where it is made, after the actions `before`, the marked text was committed
just before, as the surface or the surface and the mark typed; the surface and
the reading are those of a candidate accepted since the last query, and shown
in the window when one was being selected. -/
def Reports (d : Session) (op : Op) (actions : List ClientAction) : Prop :=
  actions.countP ClientAction.isObserve ≤ 1
    ∧ ∀ before reading surface after,
      actions = before ++ .observeCommit reading surface :: after →
        (∃ start, before = start ++ [.commitMarkedText]
          ∧ ((start.foldl note d).text = surface
            ∨ ∃ mark ∈ typedMark op, (start.foldl note d).text = surface ++ mark))
        ∧ ∃ c ∈ (before.foldl note d).accepted, c.reading = reading ∧ c.surface = surface
          ∧ (d.state.kind = .selecting → c ∈ (before.foldl note d).shown)

/-- **The invariant of a session.** -/
structure Traced (d : Session) : Prop where
  inv : d.state.Inv
  /-- What is cached was accepted since the last query. -/
  cached : ∀ c ∈ d.state.candidates, c ∈ d.accepted
  /-- What is waited for is the answer for the kana. -/
  awaiting : d.state.awaitingCandidates = true →
    d.state.romaji.pending = [] ∧ d.query = some d.state.kana
  /-- What is selected from was shown, for the kana. -/
  selecting : d.state.kind = .selecting →
    d.state.romaji.pending = [] ∧ ∀ c ∈ d.state.candidates, c ∈ d.shown ∧ c.reading = d.state.kana

/-- A state without candidates that waits for none is traced. -/
theorem traced_of_empty {d : Session} (hinv : d.state.Inv) (hnil : d.state.candidates = [])
    (hawait : d.state.awaitingCandidates = false) : d.Traced where
  inv := hinv
  cached := by simp [hnil]
  awaiting h := by simp [hawait] at h
  selecting h := by
    have hlt := hinv.selected h
    simp [hnil] at hlt

/-- A blank state is traced. -/
theorem traced_of_blank {d : Session} (hinv : d.state.Inv)
    (hk : d.state.kind = .idle ∨ d.state.kind = .replaceSuggestion
      ∨ d.state.kind = .unicodeInput) : d.Traced := by
  refine traced_of_empty hinv (hinv.blank hk).2.2 ?_
  by_contra hawait
  rcases hinv.awaiting (by simpa using hawait) with h | h <;> simp [h] at hk

/-- Inert actions are not noted. -/
theorem note_inert {actions : List ClientAction} (h : ∀ a ∈ actions, a.Inert) (d : Session) :
    actions.foldl note d = d := by
  induction actions with
  | nil => rfl
  | cons a actions ih =>
    have ha : d.note a = d := by
      have hinert := h a List.mem_cons_self
      cases a <;> first | rfl | exact absurd hinert (by simp [ClientAction.Inert])
    rw [List.foldl_cons, ha]
    exact ih (fun b hb => h b (List.mem_cons_of_mem _ hb))

/-- Inert actions report nothing. -/
theorem isObserve_inert {a : ClientAction} (h : a.Inert) : a.isObserve = false := by
  cases a <;> first | rfl | exact absurd h (by simp [ClientAction.Inert])

/-- Where nothing is reported there is nothing to trace. -/
theorem reports_of_forall {d : Session} {op : Op} {actions : List ClientAction}
    (h : ∀ a ∈ actions, a.isObserve = false) : d.Reports op actions := by
  refine ⟨?_, fun before reading surface after heq => ?_⟩
  · rw [List.countP_eq_zero.mpr (fun a ha => by simp [h a ha])]
    exact Nat.zero_le _
  · have hmem : ClientAction.observeCommit reading surface ∈ actions := by simp [heq]
    exact absurd (h _ hmem) (by simp [ClientAction.isObserve])

/-- **A committed candidate is reported as it was delivered.** -/
theorem reports_of_picked {d : Session} (hd : d.Traced) {event : UserActionEvent}
    {candidate : Candidate} {mark : Bytes}
    (hpick : d.state.kind = .selecting ∧ candidate ∈ d.state.candidates
      ∨ d.state.Active ∧ candidate ∈ d.state.candidates
        ∧ candidate.reading = d.state.kana ++ d.state.romaji.flush.2)
    (hmark : mark = []
      ∨ isSentenceMark event.codepoint = true ∧ mark = encodeUtf8 event.codepoint)
    {more : List ClientAction} (hmore : ∀ a ∈ more, a.isObserve = false) :
    d.Reports (.call (.event event))
      ([.hideCandidateWindow, .replaceMarkedText (candidate.surface ++ mark), .commitMarkedText,
        .observeCommit (d.state.kana ++ d.state.romaji.flush.2) candidate.surface] ++ more) := by
  have hcached : candidate ∈ d.state.candidates := hpick.elim And.right (fun h => h.2.1)
  have hreading : candidate.reading = d.state.kana ++ d.state.romaji.flush.2 := by
    rcases hpick with ⟨hk, hmem⟩ | ⟨-, -, h⟩
    · obtain ⟨hpending, hshown⟩ := hd.selecting hk
      rw [(hshown _ hmem).2, RomajiKanaConverter.flush_nil hpending, List.append_nil]
    · exact h
  have hzero : more.countP ClientAction.isObserve = 0 :=
    List.countP_eq_zero.mpr (fun a ha => by simp [hmore a ha])
  refine ⟨by simp [List.countP_cons, ClientAction.isObserve, hzero], ?_⟩
  intro before reading surface after heq
  -- the report is the fourth action: an earlier one is no report, a later one is in `more`
  match before, heq with
  | [_, _, _], heq =>
    simp only [List.cons_append, List.nil_append, List.cons.injEq,
      ClientAction.observeCommit.injEq] at heq
    obtain ⟨rfl, rfl, rfl, ⟨rfl, rfl⟩, -⟩ := heq
    refine ⟨⟨[.hideCandidateWindow, .replaceMarkedText (candidate.surface ++ mark)], rfl, ?_⟩,
      candidate, hd.cached _ hcached, hreading, rfl, fun hk => ((hd.selecting hk).2 _ hcached).1⟩
    rcases hmark with rfl | ⟨hsentence, rfl⟩
    · exact Or.inl (List.append_nil _)
    · exact Or.inr ⟨_, by simp [typedMark, hsentence], rfl⟩
  | [], heq => simp at heq
  | [_], heq => simp at heq
  | [_, _], heq => simp at heq
  | _ :: _ :: _ :: _ :: rest, heq =>
    simp only [List.cons_append, List.nil_append, List.cons.injEq] at heq
    have hmem : ClientAction.observeCommit reading surface ∈ more := by simp [heq.2.2.2.2]
    exact absurd (hmore _ hmem) (by simp [ClientAction.isObserve])

/-- An ended composition reports at most the candidate committed. -/
theorem reports_of_ending {d : Session} (hd : d.Traced) {event : UserActionEvent}
    {actions : List ClientAction} {blank : InputState}
    (hend : InputState.Ending d.state event actions blank)
    {more : List ClientAction} (hmore : ∀ a ∈ more, a.isObserve = false) :
    d.Reports (.call (.event event)) (actions ++ more) := by
  cases hend with
  | picked _ _ hpick hmark => exact reports_of_picked hd hpick hmark hmore
  | none => exact reports_of_forall hmore
  | cancelled _ _ hbefore =>
    refine reports_of_forall (fun a ha => ?_)
    simp only [List.mem_append, List.mem_singleton] at ha
    rcases ha with (ha | rfl) | ha
    · exact isObserve_inert (hbefore a ha)
    · rfl
    · exact hmore a ha
  | asIs =>
    refine reports_of_forall (fun a ha => (List.mem_append.mp ha).elim (fun ha => ?_) (hmore a))
    unfold InputState.commitAsIs at ha
    dsimp only at ha
    split at ha
    · exact absurd ha (by simp)
    · simp only [List.mem_cons, List.not_mem_nil, or_false] at ha
      rcases ha with rfl | rfl <;> rfl
  | scalar =>
    refine reports_of_forall (fun a ha => (List.mem_append.mp ha).elim (fun ha => ?_) (hmore a))
    simp only [List.mem_cons, List.not_mem_nil, or_false] at ha
    rcases ha with rfl | rfl <;> rfl
  | prompt _ hinert =>
    exact reports_of_forall (fun a ha =>
      (List.mem_append.mp ha).elim (fun ha => isObserve_inert (hinert a ha)) (hmore a))

/-- **What a call reports is traced.** -/
theorem reports_of_outcome {d : Session} (hd : d.Traced) {call : Call}
    {actions : List ClientAction} {next : InputState}
    (h : InputState.Outcome d.state call actions next) : d.Reports (.call call) actions := by
  cases h with
  | inert hinert => exact reports_of_forall (fun a ha => isObserve_inert (hinert a ha))
  | ignored => exact reports_of_forall (by simp)
  | cached => exact reports_of_forall (by simp)
  | opened => exact reports_of_forall (by simp [ClientAction.isObserve])
  | moved => exact reports_of_forall (by simp [ClientAction.isObserve])
  | edited _ hbefore =>
    refine reports_of_forall (fun a ha => ?_)
    simp only [List.mem_append, List.mem_cons, List.not_mem_nil, or_false] at ha
    rcases ha with ha | rfl | rfl
    · exact isObserve_inert (hbefore a ha)
    · rfl
    · rfl
  | converted =>
    refine reports_of_forall (fun a ha => ?_)
    unfold InputState.startConversion at ha
    dsimp only at ha
    have hshown : ∀ text : Bytes, ∀ flushed : Bool,
        ∀ a ∈ (if flushed then [] else [ClientAction.replaceMarkedText text]),
          a.isObserve = false := by
      intro text flushed
      cases flushed <;> simp [ClientAction.isObserve]
    split at ha
    · exact hshown _ _ a ha
    · rcases List.mem_append.mp ha with ha | ha
      · exact hshown _ _ a ha
      · rw [List.mem_singleton.mp ha]
        rfl
  | digits => exact reports_of_forall (by simp [ClientAction.isObserve])
  | ended hend =>
    rw [← List.append_nil actions]
    exact reports_of_ending hd hend (by simp)
  | typed hend => exact reports_of_ending hd hend (by simp [ClientAction.isObserve])
  | unicode hend => exact reports_of_ending hd hend (by simp [ClientAction.isObserve])
  | prompted => exact reports_of_forall (by simp [ClientAction.isObserve])

/-- **A call keeps the session traced.** -/
theorem traced_of_outcome {d : Session} (hd : d.Traced) {call : Call}
    {actions : List ClientAction} {next : InputState} (hans : d.Answers (.call call))
    (h : InputState.Outcome d.state call actions next) :
    ({ actions.foldl note (d.accept (.call call)) with state := next, emitted := actions } :
      Session).Traced := by
  have hinv : next.Inv := h.inv hd.inv
  cases h with
  | inert hinert =>
    rw [note_inert hinert]
    exact ⟨hinv, hd.cached, hd.awaiting, hd.selecting⟩
  | ignored hk =>
    have haccept : d.accept (.call (.arrived ‹_›)) = d := if_neg hk
    rw [haccept]
    exact ⟨hinv, hd.cached, hd.awaiting, hd.selecting⟩
  | @cached candidates hk =>
    have haccept : d.accept (.call (.arrived candidates)) = { d with accepted := candidates } :=
      if_pos hk
    rw [haccept]
    exact ⟨hinv, fun c hc => hc, fun h => absurd h (by simp), fun h => absurd h hk.ne.1⟩
  | @opened front others hk hawait =>
    have haccept : d.accept (.call (.arrived (front :: others)))
        = { d with accepted := front :: others } := if_pos hk
    obtain ⟨hpending, hquery⟩ := hd.awaiting hawait
    rw [haccept]
    exact ⟨hinv, fun c hc => hc, fun h => absurd h (by simp),
      fun _ => ⟨hpending, fun c hc => ⟨hc, hans c hc _ hquery⟩⟩⟩
  | moved => exact ⟨hinv, hd.cached, hd.awaiting, hd.selecting⟩
  | edited _ _ _ hnil _ hawait => exact traced_of_empty hinv hnil hawait
  | converted hk =>
    -- a blank reading asks nothing; otherwise the kana is asked for and nothing pends
    have hpending := RomajiKanaConverter.flush_pending d.state.romaji
    unfold InputState.startConversion at hinv ⊢
    dsimp only at hinv ⊢
    split
    · rename_i hnil
      rw [if_pos hnil] at hinv
      have hflush : d.state.romaji.flush.2 = [] :=
        (List.append_eq_nil_iff.mp (List.isEmpty_iff.mp hnil)).2
      rw [hflush] at hinv ⊢
      refine ⟨hinv, hd.cached, fun h => ⟨hpending, ?_⟩, fun h => absurd h hk.ne.1⟩
      rw [List.append_nil]
      exact (hd.awaiting h).2
    · rename_i hne
      rw [if_neg hne] at hinv
      rw [List.foldl_append]
      exact ⟨hinv, by simp, fun _ => ⟨hpending, rfl⟩, fun h => absurd h hk.ne.1⟩
  | digits hk => exact traced_of_blank hinv (Or.inr (Or.inr hk))
  | ended hend => exact traced_of_blank hinv (Or.inl (hend.inv hd.inv).2)
  | typed _ _ hnil _ hawait => exact traced_of_empty hinv hnil hawait
  | unicode => exact traced_of_blank hinv (Or.inr (Or.inr rfl))
  | prompted => exact traced_of_blank hinv (Or.inr (Or.inl rfl))

/-- **Every operation keeps the session traced, and what it reports is.** -/
theorem step_traced {d : Session} (hd : d.Traced) {op : Op} (hans : d.Answers op) :
    ∃ d', d.step op = some d' ∧ d.Reports op d'.emitted ∧ d'.Traced := by
  obtain ⟨r, hr, hinv⟩ := InputState.apply_inv hd.inv op
  refine ⟨_, by rw [step, hr]; rfl, ?_⟩
  cases op with
  | call c =>
    obtain ⟨r', hr', hout⟩ := InputState.call_outcome hd.inv c
    obtain rfl : r = r' := Option.some.inj (hr.symm.trans hr')
    exact ⟨reports_of_outcome hd hout, traced_of_outcome hd hans hout⟩
  | withComposition kana romaji =>
    obtain rfl := Option.some.inj hr
    exact ⟨reports_of_forall (by simp), traced_of_empty hinv rfl rfl⟩
  | withCorrectedReading => exact hans.elim
  | withLiveConversion =>
    obtain rfl := Option.some.inj hr
    exact ⟨reports_of_forall (by simp), hinv, hd.cached, hd.awaiting, hd.selecting⟩
  | withPunctuationConversion =>
    obtain rfl := Option.some.inj hr
    exact ⟨reports_of_forall (by simp), hinv, hd.cached, hd.awaiting, hd.selecting⟩
  | reset =>
    obtain rfl := Option.some.inj hr
    exact ⟨reports_of_forall (by simp), traced_of_empty hinv rfl rfl⟩

/-- **Learning is faithful.** Along every run of public operations from an Idle
state, in whatever order events and candidates come, as long as every
candidate delivered has the reading that was queried last: each step makes at
most one report, of a candidate that was accepted since that query (and shown,
when one was being selected) with exactly its reading and surface, right after
committing the surface, or the surface and the sentence mark typed. -/
theorem observeCommit_traced {s : InputState} (hs : s.Inv) (hidle : s.kind = .idle)
    {ops : List Op} (h : Run.Guarded step Answers { state := s } ops) :
    Run.Always step (fun d op d' => d.Reports op d'.emitted) { state := s } ops :=
  Run.always_of_guarded (fun _ _ hd hans => step_traced hd hans)
    (traced_of_blank hs (Or.inl hidle)) h

/-- Typing `ka`, converting, and taking the first candidate with a full stop
is such a run. -/
theorem observeCommit_traced_ka :
    Run.Always step (fun d op d' => d.Reports op d'.emitted) {}
      [.withPunctuationConversion true, .call (.event { codepoint := 0x6b }),
        .call (.event { codepoint := 0x61 }), .call (.event { action := .startConversion }),
        .call (.arrived [⟨utf8 "蚊", utf8 "か"⟩]), .call (.event { codepoint := 0x3002 })] :=
  observeCommit_traced InputState.inv_init rfl (by decide +kernel)

end Session

end AzooKey.Core

import AzooKey.Core.InputStateTransitions
import AzooKey.Core.RomajiStreaming

/-!
# The marked text on screen

The frontend never sees the state: it applies the actions, and what it
displays is their fold (`display`). The state says what should be on screen
(`onScreen`): nothing in Idle and while the prompt is open, the reading while
one is typed, the selected candidate, or `U+` and the digits collected.

The two agree along every run except through one gap. A conversion key and
Enter flush the pending romaji and announce the change only when the flush
printed something. A custom rule may print nothing, so pending romaji that is
on screen can vanish from the state without an action: the conversion key
then leaves it displayed behind the kana, and Enter on such romaji alone
leaves it displayed in Idle. `FlushShows` excludes exactly these steps, and
`display_iff_flushShows` says that a run keeps the screen in step with the
state if and only if each of its steps does so. Without a custom table no
step is excluded (`flushShows_of_builtin`).
-/

namespace AzooKey.Core

/-- **What an action does to the displayed marked text.** -/
def display (text : Bytes) : ClientAction → Bytes
  | .appendToMarkedText more => text ++ more
  | .replaceMarkedText text => text
  | .commitMarkedText => []
  | .cancelMarkedText => []
  | _ => text

/-- Inert actions leave the marked text alone. -/
theorem display_inert {actions : List ClientAction} (h : ∀ a ∈ actions, a.Inert) (text : Bytes) :
    actions.foldl display text = text := by
  induction actions with
  | nil => rfl
  | cons a actions ih =>
    have ha : display text a = text := by
      have hinert := h a List.mem_cons_self
      cases a <;> first | rfl | exact absurd hinert (by simp [ClientAction.Inert])
    rw [List.foldl_cons, ha]
    exact ih (fun b hb => h b (List.mem_cons_of_mem _ hb))

namespace InputState

/-- **What the state says is on screen.** -/
def onScreen (s : InputState) : Option Bytes :=
  match s.kind with
  | .idle | .replaceSuggestion => some []
  | .composing | .previewing => some s.reading
  | .selecting => (s.candidates[s.selectedIndex]?).map Candidate.surface
  | .unicodeInput => some (unicodePrefix ++ s.unicodeHex)

/-- A reading is on screen while one is typed. -/
theorem onScreen_active {s : InputState} (h : s.Active) : s.onScreen = some s.reading := by
  unfold onScreen
  rcases h with h | h <;> rw [h]

/-- Nothing is on screen in Idle. -/
theorem onScreen_idle {s : InputState} (h : s.kind = .idle) : s.onScreen = some [] := by
  unfold onScreen
  rw [h]

/-- **The step does not flush romaji into nothing.** A conversion key must not
meet pending romaji whose flush prints nothing, nor may Enter when there is
nothing but such romaji. -/
def FlushShows (s : InputState) : Call → Prop
  | .arrived _ => True
  | .event event =>
    s.Active → s.romaji.pending ≠ [] →
      (event.action = .startConversion ∨ event.action = .nextCandidate
        ∨ event.action = .prevCandidate → s.romaji.flush.2 ≠ [])
      ∧ (event.action = .commit → s.kana ++ s.romaji.flush.2 ≠ [])

instance (s : InputState) : ∀ call, Decidable (s.FlushShows call)
  | .arrived _ => isTrue trivial
  | .event _ => inferInstanceAs (Decidable (_ → _ → _ ∧ _))

/-- Pending romaji shows in the reading. -/
theorem previewPending_ne_nil {c : RomajiKanaConverter} (h : c.pending ≠ []) :
    c.previewPending ≠ [] := by
  unfold RomajiKanaConverter.previewPending RomajiKanaConverter.previewOf
  split
  · decide
  · exact h

/-- Romaji that is not pending does not show. -/
theorem previewPending_nil {c : RomajiKanaConverter} (h : c.pending = []) :
    c.previewPending = [] := by
  unfold RomajiKanaConverter.previewPending RomajiKanaConverter.previewOf
  rw [h, if_neg]
  simp only [Bool.and_eq_true, Bool.or_eq_true, decide_eq_true_eq, not_and, not_or]
  exact fun _ => ⟨by decide, by decide⟩

/-- The state of the frontend and of the machine: a state and the marked text
that its actions display. -/
structure Shown where
  state : InputState
  text : Bytes

/-- One call, with its actions applied. -/
def Shown.step (d : Shown) (call : Call) : Option Shown :=
  (d.state.call call).map (fun r => ⟨r.next, r.actions.foldl display d.text⟩)

/-- The screen shows what the state says. -/
def Shown.InStep (d : Shown) : Prop := d.state.onScreen = some d.text

/-- What an ended composition displays: nothing, when the step shows what it
flushes. -/
theorem Ending.display {s blank : InputState} {event : UserActionEvent}
    {actions : List ClientAction} (hend : Ending s event actions blank)
    {text : Bytes} (htext : s.onScreen = some text)
    (hshow : s.FlushShows (.event event)) (hne : event.action ≠ .startUnicodeInput) :
    actions.foldl AzooKey.Core.display text = [] := by
  cases hend with
  | none hk => exact (Option.some.inj ((onScreen_idle hk).symm.trans htext)).symm
  | cancelled => rw [List.foldl_append]; rfl
  | asIs hk haction =>
    have hcommit : event.action = .commit := haction.resolve_right hne
    unfold commitAsIs
    dsimp only
    split
    · rename_i hnil
      have hnil' : s.kana ++ s.romaji.flush.2 = [] := List.isEmpty_iff.mp hnil
      have hpending : s.romaji.pending = [] := by
        by_contra hp
        exact (hshow hk hp).2 hcommit hnil'
      have hreading : s.reading = [] := by
        unfold reading
        rw [previewPending_nil hpending, List.append_nil]
        exact (List.append_eq_nil_iff.mp hnil').1
      rw [onScreen_active hk, hreading] at htext
      exact (Option.some.inj htext).symm
    · rfl
  | picked => rfl
  | scalar => rfl
  | prompt hk hinert =>
    rw [display_inert hinert]
    unfold onScreen at htext
    rw [hk] at htext
    exact (Option.some.inj htext).symm

/-- **A step that shows what it flushes keeps the screen in step.** -/
theorem Outcome.inStep {s next : InputState} {call : Call} {actions : List ClientAction}
    (hs : s.Inv) (h : Outcome s call actions next) {text : Bytes}
    (htext : s.onScreen = some text) (hshow : s.FlushShows call) :
    next.onScreen = some (actions.foldl AzooKey.Core.display text) := by
  cases h with
  | inert hinert => rw [display_inert hinert]; exact htext
  | ignored => exact htext
  | cached hk =>
    rw [onScreen_active hk] at htext
    exact (onScreen_active (s := { s with candidates := _, awaitingCandidates := false }) hk).trans
      htext
  | opened => rfl
  | moved hk hget =>
    unfold onScreen
    rw [hk]
    exact congrArg (Option.map Candidate.surface) hget
  | edited _ _ hk =>
    rw [onScreen_active hk, List.foldl_append]
    rfl
  | @converted event hk haction =>
    have hreading := Option.some.inj ((onScreen_active hk).symm.trans htext)
    unfold startConversion
    dsimp only
    by_cases hflush : s.romaji.flush.2 = []
    · -- nothing was pending, so the text on screen is the kana already
      have hpending : s.romaji.pending = [] := by
        by_contra hp
        exact (hshow hk hp).1 haction hflush
      have hkana : s.kana = text := by
        rw [← hreading, reading, previewPending_nil hpending, List.append_nil]
      rw [hflush, List.append_nil]
      split
      · rw [onScreen_active (by exact hk), reading, previewPending_nil (RomajiKanaConverter.flush_pending _),
          List.append_nil]
        exact congrArg some hkana
      · rw [onScreen_active (by exact hk), reading, previewPending_nil (RomajiKanaConverter.flush_pending _),
          List.append_nil]
        exact congrArg some hkana
    · have hne : s.kana ++ s.romaji.flush.2 ≠ [] := fun h =>
        hflush (List.append_eq_nil_iff.mp h).2
      rw [if_neg (by simpa using hne), if_neg (by simpa using hflush),
        onScreen_active (by exact hk), reading, previewPending_nil (RomajiKanaConverter.flush_pending _),
        List.append_nil]
      rfl
  | digits hk =>
    unfold onScreen
    rw [hk]
    rfl
  | ended hend hne =>
    rw [hend.display htext hshow hne]
    exact onScreen_idle (hend.inv hs).2
  | typed hend hk =>
    rw [onScreen_active hk, List.foldl_append]
    rfl
  | unicode hend => rw [List.foldl_append]; rfl
  | prompted hk => exact (onScreen_idle hk).symm.trans htext

/-- Without a custom table every step shows what it flushes. -/
theorem flushShows_of_builtin {s : InputState} (h : s.romaji.customTable = none) (call : Call) :
    s.FlushShows call := by
  cases call with
  | arrived => exact trivial
  | event event =>
    intro _ hpending
    have hflush := RomajiKanaConverter.flush_ne_nil_of_builtin h hpending
    exact ⟨fun _ => hflush, fun _ hnil => hflush (List.append_eq_nil_iff.mp hnil).2⟩

/-- A key that is no toggle reaches the handler of a shown reading. -/
theorem handleEvent_active {s : InputState} (hk : s.Active) {event : UserActionEvent}
    (h : event.action ∈ [.startConversion, .nextCandidate, .prevCandidate, .commit]) :
    s.handleEvent event = s.handleComposing event := by
  unfold handleEvent
  simp only [List.mem_cons, List.not_mem_nil, or_false] at h
  rcases h with h | h | h | h <;> rw [h] <;> rcases hk with hk | hk <;> rw [hk]

/-- A conversion whose flush prints nothing leaves the romaji on screen. -/
theorem startConversion_loses {s : InputState} (hk : s.Active) (hpending : s.romaji.pending ≠ [])
    (hflush : s.romaji.flush.2 = []) :
    s.startConversion.next.onScreen
      ≠ some (s.startConversion.actions.foldl AzooKey.Core.display s.reading) := by
  have hnext : s.startConversion.next.onScreen = some s.kana := by
    unfold startConversion
    dsimp only
    split <;>
      rw [onScreen_active (by exact hk), reading,
        previewPending_nil (RomajiKanaConverter.flush_pending _), List.append_nil, hflush,
        List.append_nil]
  have hactions : s.startConversion.actions.foldl AzooKey.Core.display s.reading = s.reading := by
    unfold startConversion
    dsimp only
    rw [hflush]
    split <;> rfl
  rw [hnext, hactions]
  intro h
  exact previewPending_ne_nil hpending (List.self_eq_append_right.mp (Option.some.inj h))

/-- Enter on nothing but romaji that prints nothing leaves it on screen. -/
theorem commitAsIs_loses {s : InputState} (hpending : s.romaji.pending ≠ [])
    (hnil : s.kana ++ s.romaji.flush.2 = []) :
    s.commitAsIs.next.onScreen
      ≠ some (s.commitAsIs.actions.foldl AzooKey.Core.display s.reading) := by
  have hactions : s.commitAsIs.actions = [] := by
    unfold commitAsIs
    dsimp only
    rw [hnil]
    rfl
  rw [hactions, onScreen_idle (s := s.commitAsIs.next) rfl]
  intro h
  exact previewPending_ne_nil hpending (List.append_eq_nil_iff.mp (Option.some.inj h).symm).2

/-- **A step that flushes into nothing loses the screen.** -/
theorem not_inStep_of_not_flushShows {s : InputState} {event : UserActionEvent} {text : Bytes}
    (htext : s.onScreen = some text) (h : ¬ s.FlushShows (.event event)) :
    ∃ r, s.handleEvent event = some r
      ∧ r.next.onScreen ≠ some (r.actions.foldl AzooKey.Core.display text) := by
  simp only [FlushShows, Classical.not_imp] at h
  obtain ⟨hk, hpending, hlost⟩ := h
  obtain rfl : s.reading = text := Option.some.inj ((onScreen_active hk).symm.trans htext)
  rcases not_and_or.mp hlost with h | h
  · obtain ⟨haction, hflush⟩ := Classical.not_imp.mp h
    refine ⟨_, ?_, startConversion_loses hk hpending (not_not.mp hflush)⟩
    rw [handleEvent_active hk (by rcases haction with h | h | h <;> simp [h]), handleComposing]
    rcases haction with h | h | h <;> rw [h]
  · obtain ⟨haction, hnil⟩ := Classical.not_imp.mp h
    refine ⟨_, ?_, commitAsIs_loses hpending (not_not.mp hnil)⟩
    rw [handleEvent_active hk (by simp [haction]), handleComposing, haction]

/-- **The screen stays in step with the state exactly along the runs that show
what they flush.** From any Idle state and an empty screen, in every order of
events and candidate arrivals: after every call the displayed text is what
the state says, if and only if no step flushes pending romaji into
nothing. -/
theorem display_iff_flushShows {s : InputState} (hs : s.Inv) (hidle : s.kind = .idle)
    (calls : List Call) :
    Run.Always Shown.step (fun _ _ d => d.InStep) ⟨s, []⟩ calls
      ↔ Run.Guarded Shown.step (fun d call => d.state.FlushShows call) ⟨s, []⟩ calls := by
  have hstart : (⟨s, []⟩ : Shown).state.Inv ∧ (⟨s, []⟩ : Shown).InStep :=
    ⟨hs, onScreen_idle hidle⟩
  constructor
  · refine Run.guarded_of_always (I := fun d => d.state.Inv ∧ d.InStep) ?_ hstart
    intro d call d' hd hstep hin
    obtain ⟨r, hr, hout⟩ := call_outcome hd.1 call
    rw [Shown.step, hr] at hstep
    obtain rfl := Option.some.inj hstep
    refine ⟨?_, hout.inv hd.1, hin⟩
    by_contra hnot
    cases call with
    | arrived => exact hnot trivial
    | event event =>
      obtain ⟨r', hr', hlost⟩ := not_inStep_of_not_flushShows hd.2 hnot
      obtain rfl := Option.some.inj (hr.symm.trans hr')
      exact hlost hin
  · refine Run.always_of_guarded (I := fun d => d.state.Inv ∧ d.InStep) ?_ hstart
    intro d call hd hshow
    obtain ⟨r, hr, hout⟩ := call_outcome hd.1 call
    have hin := hout.inStep hd.1 hd.2 hshow
    exact ⟨⟨r.next, r.actions.foldl AzooKey.Core.display d.text⟩, by rw [Shown.step, hr]; rfl,
      hin, hout.inv hd.1, hin⟩

/-- The screen stays in step while one types `ka` and takes a candidate. -/
theorem display_iff_flushShows_ka :
    Run.Always Shown.step (fun _ _ d => d.InStep) ⟨{}, []⟩
      [.event { codepoint := 0x6b }, .event { codepoint := 0x61 },
        .event { action := .startConversion }, .arrived [⟨utf8 "蚊", utf8 "か"⟩]] := by
  exact (display_iff_flushShows inv_init rfl _).mpr (by decide +kernel)

/-- A table with a rule that prints nothing: `q` alone is silent, `qq` prints
`x`. -/
def silentTable : Bytes := utf8 "q\t\nqq\tx\n"

/-- Typing `a`, then `q`, then the conversion key. -/
def silentCalls : List Call :=
  [.event { codepoint := 0x61 }, .event { codepoint := 0x71 },
    .event { action := .startConversion }]

/-- The initial state with the table of a text. -/
def withTable (tsv : Bytes) : InputState :=
  { romaji := { customTable := (CustomRomajiLoader.parse tsv).table } }

/-- **The screen can be lost.** With the silent rule the conversion key leaves
`aq` displayed while the reading is `a`. -/
theorem display_loses_silent_rule :
    ¬ ∀ (tsv : Bytes) (calls : List Call),
      Run.Always Shown.step (fun _ _ d => d.InStep) ⟨withTable tsv, []⟩ calls := by
  intro h
  obtain ⟨d₁, h₁, -, d₂, h₂, -, d₃, h₃, hin, -⟩ := h silentTable silentCalls
  have hrun : silentCalls.foldlM Shown.step ⟨withTable silentTable, []⟩ = some d₃ := by
    simp only [silentCalls, List.foldlM_cons, h₁, h₂, h₃, Option.bind_eq_bind, Option.bind_some,
      List.foldlM_nil, Option.pure_def]
  have heval : (silentCalls.foldlM Shown.step ⟨withTable silentTable, []⟩).map
      (fun d => (d.state.onScreen, d.text)) = some (some (utf8 "a"), utf8 "aq") := by
    decide +kernel
  rw [hrun] at heval
  obtain ⟨hstate, htext⟩ := Prod.mk.inj (Option.some.inj heval)
  rw [Shown.InStep, hstate, htext] at hin
  exact absurd hin (by decide)

end InputState

end AzooKey.Core

import AzooKey.Core.SimpleConverter
import AzooKey.Lib.KeyedCounter
import AzooKey.Lib.Mealy
import Mathlib.Data.List.Sort

/-!
# Reranking by likelihood

`RerankWithNll` has a model score some candidates and moves them by what it says, within
a time budget and behind a circuit breaker. Scores are exact numbers here, or none that
are finite. What the call meets on its way is a function of the place in the code: what
the clock says there, whether the call is cancelled there, and what the evaluator
answers. The results are that a call leaves the candidates as they were or applies all of
its scores (`rerankWithNll_candidates`), that the breaker is a counter of the failures
since it was last reset (`counter_run`), and that an open breaker keeps the evaluator
from being called (`run_of_open`).
-/

namespace AzooKey.Host

open AzooKey.Core.SimpleConverter (CandidateSource)

/-! ## Data -/

/-- A `double`, exact if it is finite. -/
inductive Score
  | finite (x : ℚ)
  | nonFinite
deriving DecidableEq

/-- `CandidateTag`. -/
inductive CandidateTag
  | none | polite | casual | technical | english | kaomoji | idiom
deriving DecidableEq

/-- `core::Candidate`, with an exact score. -/
structure ScoredCandidate where
  surface : Bytes
  reading : Bytes
  score : ℚ
  source : CandidateSource
  debugInfo : Bytes
  description : Bytes := []
  tag : CandidateTag := .none
deriving DecidableEq

/-- `NllConfig`. -/
structure NllConfig where
  enabled : Bool := false
  topK : ℤ := 8
  weight : Score := .finite (3 / 20)
  budgetMs : ℤ := 20
  failureThreshold : ℤ := 3

/-- What `ClampNllConfig` leaves of a configuration. -/
structure NllLimits where
  topK : ℤ
  weight : ℚ
  budgetMs : ℤ
  failureThreshold : ℤ

/-- `NllEvaluation`. -/
structure NllEvaluation where
  scores : List Score
  prefixMs : ℚ := 0

/-- The texts of `NllOutcome::reason`. -/
inductive NllReason
  | empty | disabled | noTarget | circuitOpen | budgetExceeded | inferError | applied | invalidScore
deriving DecidableEq

/-- `NllOutcome`. -/
structure NllOutcome where
  reason : NllReason := .empty
  targets : ℕ := 0
  applied : ℕ := 0
  prefixMs : ℚ := 0
  elapsedMs : ℚ := 0

/-- `NllCircuit`. -/
structure NllCircuit where
  revision : UInt64 := 0
  failures : ℤ := 0
deriving DecidableEq

/-- The places where `RerankWithNll` reads the clock. -/
inductive ClockPoint
  | start | beforeEvaluate | afterThrow | afterEvaluate | afterApply | finish

/-- The places where it looks for a cancellation. -/
inductive CancelPoint
  | entry | beforeEvaluate | afterThrow | afterEvaluate | afterApply | outer

/-- A call: its arguments, and what it meets on its way. Times are in nanoseconds, and an
evaluator that throws answers nothing. -/
structure NllCall where
  candidates : List ScoredCandidate
  config : NllConfig
  revision : UInt64
  deadline : Option ℤ := none
  live : Bool := false
  clock : ClockPoint → ℤ
  canceled : CancelPoint → Bool
  evaluate : List Bytes → ℤ → Option NllEvaluation

/-- What a call leaves, and whether it has called the evaluator and whether it has ended
because it was cancelled. -/
structure NllResult where
  outcome : NllOutcome
  candidates : List ScoredCandidate
  circuit : NllCircuit
  evaluated : Bool := false
  canceled : Bool := false

/-! ## The functions of the source -/

/-- `std::clamp`. -/
def clampInt (x low high : ℤ) : ℤ := if x < low then low else if high < x then high else x

/-- The weight in `ClampNllConfig`. -/
def clampWeight : Score → ℚ
  | .finite w => if w < 0 then 0 else if 1 < w then 1 else w
  | .nonFinite => 3 / 20

/-- `ClampNllConfig`. -/
def clampNllConfig (config : NllConfig) : NllLimits where
  topK := clampInt config.topK 1 16
  weight := clampWeight config.weight
  budgetMs := clampInt config.budgetMs 5 60
  failureThreshold := clampInt config.failureThreshold 1 10

/-- Whether a candidate may be a target. -/
def isTarget (candidate : ScoredCandidate) : Bool :=
  candidate.source = .systemDictionary || candidate.source = .heuristic

/-- Whether a candidate may stand in front of another one. The stable sort by
`candidates[a].score > candidates[b].score` leaves equal scores in their order. -/
def notBehind (candidates : List ScoredCandidate) (a b : ℕ) : Bool :=
  decide ((candidates[b]?.map ScoredCandidate.score).getD 0
    ≤ (candidates[a]?.map ScoredCandidate.score).getD 0)

/-- `SelectNllCandidates`. -/
def selectNllCandidates (candidates : List ScoredCandidate) (topK : ℤ) : List ℕ :=
  let indices := (List.range candidates.length).filter (fun i => candidates[i]?.any isTarget)
  (indices.insertionSort (fun a b => notBehind candidates a b)).take (clampInt topK 1 16).toNat

/-- The least of the finite scores. -/
def minimumOf (scores : List Score) : Option ℚ :=
  scores.foldl (fun minimum score =>
    match score with
    | .finite x => some (minimum.elim x (fun m => min m x))
    | .nonFinite => minimum) none

/-- A number with six decimals, as a stream writes it with `std::fixed`. The sign is apart,
since a zero has one. -/
def printFixed (negative : Bool) (x : ℚ) : Bytes :=
  let n := (roundHalfEven (|x| * 10 ^ 6)).toNat
  (if negative then [0x2d] else []) ++ (decimalDigits (n / 10 ^ 6) ++ 0x2e :: lastDigits 6 n)

/-- By how much a candidate is moved. -/
def nllDelta (minimum weight nll : ℚ) : ℚ := max (minimum - nll) (-2) * weight

/-- A candidate with its score. -/
def rescore (minimum weight nll : ℚ) (candidate : ScoredCandidate) : ScoredCandidate :=
  let delta := nllDelta minimum weight nll
  { candidate with
    debugInfo := (if candidate.debugInfo = [] then [] else candidate.debugInfo ++ utf8 ";")
      ++ (utf8 "nll=" ++ (printFixed (nll < 0) nll
        ++ (utf8 ";nlld=" ++ printFixed (minimum < nll) delta)))
    score := candidate.score + delta }

/-- A turn of the loop of `ApplyNllScores`. -/
def applyScore (minimum weight : ℚ) (st : List ScoredCandidate × ℕ) (target : ℕ × Score) :
    List ScoredCandidate × ℕ :=
  match target.2 with
  | .nonFinite => st
  | .finite nll => (st.1.modify target.1 (rescore minimum weight nll), st.2 + 1)

/-- `ApplyNllScores`. It throws when the numbers of targets and scores differ. -/
def applyNllScores (candidates : List ScoredCandidate) (indices : List ℕ) (scores : List Score)
    (weight : ℚ) : Option (List ScoredCandidate × ℕ) :=
  if indices.length ≠ scores.length then none
  else
    match minimumOf scores with
    | none => some (candidates, 0)
    | some minimum => some ((indices.zip scores).foldl (applyScore minimum weight) (candidates, 0))

namespace NllResult

/-- The end of a call that has come to a reason: the failures are counted. -/
def finish (call : NllCall) (result : NllResult) (reason : NllReason) : NllResult :=
  { result with
    outcome := { result.outcome with
      reason := reason
      elapsedMs := (call.clock .finish - call.clock .start : ℤ) / 10 ^ 6 }
    circuit := if reason = .budgetExceeded ∨ reason = .inferError then
        { result.circuit with failures := result.circuit.failures + 1 }
      else result.circuit }

/-- The end of a call that has been cancelled. -/
def abandon (result : NllResult) (reason : NllReason) : NllResult :=
  { result with outcome := { result.outcome with reason := reason }, canceled := true }

end NllResult

namespace NllCall

/-- `bounded.deadline`. -/
def boundedDeadline (call : NllCall) : ℤ :=
  let deadline := call.clock .start + (clampNllConfig call.config).budgetMs * 10 ^ 6
  call.deadline.elim deadline (fun given => min given deadline)

/-- `expired`. -/
def expired (call : NllCall) (point : ClockPoint) : Bool := call.boundedDeadline ≤ call.clock point

/-- The targets. -/
def indices (call : NllCall) : List ℕ :=
  selectNllCandidates call.candidates (clampNllConfig call.config).topK

/-- The texts of the targets. -/
def surfaces (call : NllCall) : List Bytes :=
  call.indices.map (fun i => (call.candidates[i]?.map ScoredCandidate.surface).getD [])

/-- Whether the call gives up in front of the evaluator. -/
def aborted (call : NllCall) : Bool := call.canceled .beforeEvaluate || call.expired .beforeEvaluate

/-- What comes of the evaluator. -/
def evaluation (call : NllCall) : Option NllEvaluation :=
  if call.aborted then none else call.evaluate call.surfaces call.boundedDeadline

/-- The scores are applied to a copy, which is taken over if there is still time. -/
def applyEvaluation (call : NllCall) (result : NllResult) (evaluation : NllEvaluation) :
    NllResult :=
  let result := { result with outcome := { result.outcome with prefixMs := evaluation.prefixMs } }
  match applyNllScores call.candidates call.indices evaluation.scores
      (clampNllConfig call.config).weight with
  | none => if call.canceled .outer then result.abandon .empty else result.finish call .inferError
  | some (updated, applied) =>
    if call.canceled .afterApply then result.abandon .empty
    else if call.expired .afterApply then result.finish call .budgetExceeded
    else
      NllResult.finish call
        { result with
          candidates := updated
          outcome := { result.outcome with applied := applied }
          circuit := { result.circuit with failures := 0 } }
        (if applied = 0 then .invalidScore else .applied)

/-- The part of `RerankWithNll` behind the breaker. -/
def attempt (call : NllCall) (result : NllResult) : NllResult :=
  let result := { result with evaluated := !call.aborted }
  match call.evaluation with
  | none =>
    if call.canceled .afterThrow then result.abandon .empty
    else
      let reason := if call.expired .afterThrow then .budgetExceeded else .inferError
      if call.canceled .afterEvaluate then result.abandon reason
      else result.finish call (if call.expired .afterEvaluate then .budgetExceeded else reason)
  | some evaluation =>
    if call.canceled .afterEvaluate then result.abandon .empty
    else if call.expired .afterEvaluate then result.finish call .budgetExceeded
    else call.applyEvaluation result evaluation

/-- Whether a call comes to the breaker. -/
def passes (call : NllCall) : Bool :=
  call.config.enabled && !call.live && !call.canceled .entry

end NllCall

/-- The breaker is reset when the revision is another one. -/
def NllCircuit.forRevision (circuit : NllCircuit) (revision : UInt64) : NllCircuit :=
  if circuit.revision ≠ revision then ⟨revision, 0⟩ else circuit

/-- A call that has come to the breaker. -/
def NllCall.entered (call : NllCall) (circuit : NllCircuit) : NllResult where
  outcome := { targets := call.indices.length }
  candidates := call.candidates
  circuit := circuit.forRevision call.revision

/-- **`RerankWithNll`.** -/
def rerankWithNll (circuit : NllCircuit) (call : NllCall) : NllResult :=
  if !call.config.enabled || call.live then
    { outcome := { reason := .disabled }, candidates := call.candidates, circuit := circuit }
  else if call.canceled .entry then
    { outcome := {}, candidates := call.candidates, circuit := circuit, canceled := true }
  else
    let result := call.entered circuit
    if call.indices = [] then { result with outcome := { result.outcome with reason := .noTarget } }
    else if (clampNllConfig call.config).failureThreshold ≤ result.circuit.failures then
      { result with outcome := { result.outcome with reason := .circuitOpen } }
    else call.attempt result

/-! ## The targets -/

/-- A number between two bounds is clamped to itself. -/
theorem clampInt_clampInt (x : ℤ) {low high : ℤ} (h : low ≤ high) :
    clampInt (clampInt x low high) low high = clampInt x low high := by
  unfold clampInt
  split_ifs <;> omega

/-- The targets are candidates that may be targets, each once, and no more than asked
for. -/
theorem selectNllCandidates_spec (candidates : List ScoredCandidate) (topK : ℤ) :
    (selectNllCandidates candidates topK).Nodup
      ∧ (selectNllCandidates candidates topK).length ≤ (clampInt topK 1 16).toNat
      ∧ ∀ i ∈ selectNllCandidates candidates topK,
          ∃ candidate, candidates[i]? = some candidate ∧ isTarget candidate = true := by
  unfold selectNllCandidates
  dsimp only
  generalize hindices : (List.range candidates.length).filter
    (fun i => candidates[i]?.any isTarget) = indices
  have hnodup : indices.Nodup := hindices ▸ List.nodup_range.filter _
  have hperm := List.perm_insertionSort (fun a b => notBehind candidates a b = true) indices
  refine ⟨((hperm.nodup_iff).mpr hnodup).sublist (List.take_sublist _ _),
    List.length_take_le _ _, ?_⟩
  intro i hi
  have hmem : i ∈ indices := hperm.mem_iff.mp (List.mem_of_mem_take hi)
  rw [← hindices] at hmem
  exact (Option.any_eq_true _ _).mp (List.mem_filter.mp hmem).2

/-! ## The scores -/

/-- Whether a score is finite. -/
def Score.isFinite : Score → Bool
  | .finite _ => true
  | .nonFinite => false

/-- The least of the finite scores is one of them, if there is one. -/
theorem minimumOf_spec (scores : List Score) :
    (∀ minimum, minimumOf scores = some minimum →
      Score.finite minimum ∈ scores ∧ ∀ nll, Score.finite nll ∈ scores → minimum ≤ nll)
    ∧ (minimumOf scores = none → ∀ nll, Score.finite nll ∉ scores) := by
  induction scores using List.reverseRecOn with
  | nil => exact ⟨fun minimum h => (nomatch h), fun _ nll => List.not_mem_nil⟩
  | append_singleton scores score ih =>
    obtain ⟨hsome, hnone⟩ := ih
    simp only [List.mem_append, List.mem_singleton]
    cases score with
    | nonFinite =>
      have hfold : minimumOf (scores ++ [.nonFinite]) = minimumOf scores := by
        rw [minimumOf, List.foldl_append]
        rfl
      rw [hfold]
      refine ⟨fun minimum h => ⟨.inl (hsome minimum h).1, ?_⟩, fun h nll => ?_⟩
      · rintro nll (hnll | hnll)
        · exact (hsome minimum h).2 nll hnll
        · cases hnll
      · rintro (hnll | hnll)
        · exact hnone h nll hnll
        · cases hnll
    | finite x =>
      have hfold : minimumOf (scores ++ [.finite x])
          = some ((minimumOf scores).elim x (fun m => min m x)) := by
        rw [minimumOf, List.foldl_append]
        rfl
      rw [hfold]
      refine ⟨fun minimum h => ?_, fun h => (nomatch h)⟩
      obtain rfl := Option.some.inj h
      cases hold : minimumOf scores with
      | none =>
        refine ⟨.inr rfl, ?_⟩
        rintro nll (hnll | hnll)
        · exact absurd hnll (hnone hold nll)
        · exact (Score.finite.inj hnll).ge
      | some old =>
        obtain ⟨hold_mem, hold_le⟩ := hsome old hold
        refine ⟨?_, ?_⟩
        · show Score.finite (min old x) ∈ scores ∨ Score.finite (min old x) = Score.finite x
          rcases min_choice old x with hmin | hmin
          · rw [hmin]
            exact .inl hold_mem
          · rw [hmin]
            exact .inr rfl
        · rintro nll (hnll | hnll)
          · exact (min_le_left old x).trans (hold_le nll hnll)
          · exact (min_le_right old x).trans (Score.finite.inj hnll).ge

/-- A candidate is moved down, by no more than twice the weight. -/
theorem nllDelta_bounds {minimum weight nll : ℚ} (hweight : 0 ≤ weight) (hle : minimum ≤ nll) :
    -2 * weight ≤ nllDelta minimum weight nll ∧ nllDelta minimum weight nll ≤ 0 := by
  refine ⟨mul_le_mul_of_nonneg_right (le_max_right _ _) hweight, ?_⟩
  exact mul_nonpos_of_nonpos_of_nonneg (max_le (sub_nonpos.mpr hle) (by norm_num)) hweight

/-- The best candidate stays where it is. -/
theorem nllDelta_self (minimum weight : ℚ) : nllDelta minimum weight minimum = 0 := by
  rw [nllDelta, sub_self, max_eq_left (by norm_num), zero_mul]

/-- The weight is one between zero and one. -/
theorem clampWeight_mem (weight : Score) : 0 ≤ clampWeight weight ∧ clampWeight weight ≤ 1 := by
  cases weight with
  | nonFinite => norm_num [clampWeight]
  | finite w =>
    simp only [clampWeight]
    split_ifs with hlow hhigh
    · norm_num
    · norm_num
    · exact ⟨not_lt.mp hlow, not_lt.mp hhigh⟩

/-- **What the loop of `ApplyNllScores` does to each candidate.** One with a score is
rescored, and one without is as it was. -/
theorem foldl_applyScore (minimum weight : ℚ) {targets : List (ℕ × Score)}
    (hnodup : (targets.map Prod.fst).Nodup) (candidates : List ScoredCandidate) (n i : ℕ) :
    (∀ nll, (i, Score.finite nll) ∈ targets →
      (targets.foldl (applyScore minimum weight) (candidates, n)).1[i]?
        = candidates[i]?.map (rescore minimum weight nll))
    ∧ ((∀ nll, (i, Score.finite nll) ∉ targets) →
      (targets.foldl (applyScore minimum weight) (candidates, n)).1[i]? = candidates[i]?) := by
  induction targets generalizing candidates n with
  | nil => exact ⟨fun nll h => (nomatch h), fun _ => rfl⟩
  | cons target targets ih =>
    obtain ⟨place, score⟩ := target
    obtain ⟨hplace, hrest⟩ := List.nodup_cons.mp hnodup
    have hother : ∀ nll, (i, Score.finite nll) ∈ targets → place ≠ i := by
      rintro nll hmem rfl
      exact hplace (List.mem_map.mpr ⟨_, hmem, rfl⟩)
    rw [List.foldl_cons]
    cases score with
    | nonFinite =>
      obtain ⟨hin, hout⟩ := ih hrest candidates n
      refine ⟨fun nll hmem => ?_, fun hnot => ?_⟩
      · rcases List.mem_cons.mp hmem with heq | hmem
        · cases heq
        · exact hin nll hmem
      · exact hout (fun nll hmem => hnot nll (List.mem_cons_of_mem _ hmem))
    | finite x =>
      obtain ⟨hin, hout⟩ := ih hrest (candidates.modify place (rescore minimum weight x)) (n + 1)
      refine ⟨fun nll hmem => ?_, fun hnot => ?_⟩
      · rcases List.mem_cons.mp hmem with heq | hmem
        · obtain ⟨rfl, rfl⟩ : i = place ∧ nll = x := by simpa using heq
          refine (hout (fun other hmem => hother other hmem rfl)).trans ?_
          rw [List.getElem?_modify_eq]
          rfl
        · refine (hin nll hmem).trans ?_
          rw [List.getElem?_modify_ne _ _ (hother nll hmem)]
      · refine (hout (fun nll hmem => hnot nll (List.mem_cons_of_mem _ hmem))).trans ?_
        refine List.getElem?_modify_ne _ _ ?_
        rintro rfl
        exact hnot x List.mem_cons_self

/-- The loop counts the finite scores, and keeps the candidates where they are. -/
theorem foldl_applyScore_count (minimum weight : ℚ) (targets : List (ℕ × Score))
    (candidates : List ScoredCandidate) (n : ℕ) :
    (targets.foldl (applyScore minimum weight) (candidates, n)).2
        = n + targets.countP (fun target => target.2.isFinite)
      ∧ (targets.foldl (applyScore minimum weight) (candidates, n)).1.length
        = candidates.length := by
  induction targets generalizing candidates n with
  | nil => exact ⟨rfl, rfl⟩
  | cons target targets ih =>
    obtain ⟨place, score⟩ := target
    rw [List.foldl_cons]
    cases score with
    | nonFinite => exact ih candidates n
    | finite x =>
      obtain ⟨hcount, hlength⟩ := ih (candidates.modify place (rescore minimum weight x)) (n + 1)
      refine ⟨hcount.trans ?_, hlength.trans (List.length_modify ..)⟩
      rw [List.countP_cons_of_pos rfl]
      omega

/-! ## All or nothing -/

/-- What it is for the scores of an evaluation to have been applied: there is one for each
target, the targets with a finite one are moved, and nothing else is. -/
structure Applied (call : NllCall) (evaluation : NllEvaluation) (after : List ScoredCandidate) :
    Prop where
  answered : call.evaluate call.surfaces call.boundedDeadline = some evaluation
  one_each : evaluation.scores.length = call.indices.length
  length_eq : after.length = call.candidates.length
  moved : ∃ minimum, Score.finite minimum ∈ evaluation.scores
    ∧ (∀ nll, Score.finite nll ∈ evaluation.scores → minimum ≤ nll)
    ∧ ∀ (k i : ℕ) (nll : ℚ), call.indices[k]? = some i →
      evaluation.scores[k]? = some (.finite nll) →
      ∃ candidate debugInfo delta, call.candidates[i]? = some candidate
        ∧ isTarget candidate = true
        ∧ delta = max (minimum - nll) (-2) * (clampNllConfig call.config).weight
        ∧ -2 * (clampNllConfig call.config).weight ≤ delta ∧ delta ≤ 0
        ∧ (nll = minimum → delta = 0)
        ∧ after[i]? = some { candidate with
            score := candidate.score + delta, debugInfo := debugInfo }
  kept : ∀ i : ℕ, (∀ (k : ℕ) (nll : ℚ), call.indices[k]? = some i →
      evaluation.scores[k]? ≠ some (Score.finite nll)) → after[i]? = call.candidates[i]?

/-- A target and its score are at the same place. -/
theorem mem_zip_iff {indices : List ℕ} {scores : List Score} {i : ℕ} {score : Score} :
    (i, score) ∈ indices.zip scores ↔ ∃ k : ℕ, indices[k]? = some i ∧ scores[k]? = some score := by
  rw [List.mem_iff_getElem?]
  simp only [List.getElem?_zip_eq_some]

/-- `ApplyNllScores` leaves the candidates as they were, or applies an evaluation. -/
theorem applyNllScores_spec {call : NllCall} {evaluation : NllEvaluation}
    (hanswered : call.evaluate call.surfaces call.boundedDeadline = some evaluation)
    {updated : List ScoredCandidate} {applied : ℕ}
    (h : applyNllScores call.candidates call.indices evaluation.scores
      (clampNllConfig call.config).weight = some (updated, applied)) :
    (applied = 0 → updated = call.candidates)
      ∧ (applied ≠ 0 → Applied call evaluation updated) := by
  obtain ⟨hnodup, -, htargets⟩ :=
    selectNllCandidates_spec call.candidates (clampNllConfig call.config).topK
  unfold applyNllScores at h
  split_ifs at h with hlength
  have hlength : call.indices.length = evaluation.scores.length := not_not.mp hlength
  obtain ⟨hminimum, -⟩ := minimumOf_spec evaluation.scores
  cases hfound : minimumOf evaluation.scores with
  | none =>
    rw [hfound] at h
    obtain ⟨rfl, rfl⟩ := Prod.mk.inj (Option.some.inj h)
    exact ⟨fun _ => rfl, fun hne => absurd rfl hne⟩
  | some minimum =>
    rw [hfound] at h
    obtain ⟨hmem, hleast⟩ := hminimum minimum hfound
    have hfst : ((call.indices.zip evaluation.scores).map Prod.fst).Nodup := by
      rw [List.map_fst_zip hlength.le]
      exact hnodup
    have hloop :=
      foldl_applyScore minimum (clampNllConfig call.config).weight hfst call.candidates 0
    obtain ⟨hcount, hafter⟩ := foldl_applyScore_count minimum (clampNllConfig call.config).weight
      (call.indices.zip evaluation.scores) call.candidates 0
    rw [Option.some.inj h] at hloop hcount hafter
    refine ⟨fun hzero => List.ext_getElem? fun i => (hloop i).2 fun nll hnll => ?_,
      fun _ => ⟨hanswered, hlength.symm, hafter, ⟨minimum, hmem, hleast, ?_⟩, ?_⟩⟩
    · -- a target with a score would have been counted
      have hpos : 0 < (call.indices.zip evaluation.scores).countP
          (fun target => target.2.isFinite) :=
        List.countP_pos_iff.mpr ⟨_, hnll, rfl⟩
      dsimp only at hcount
      omega
    · intro k i nll hindex hscore
      obtain ⟨candidate, hcandidate, htarget⟩ := htargets i (List.mem_of_getElem? hindex)
      have hbounds := nllDelta_bounds (clampWeight_mem call.config.weight).1
        (hleast nll (List.mem_of_getElem? hscore))
      have hself := nllDelta_self minimum (clampNllConfig call.config).weight
      refine ⟨candidate,
        (rescore minimum (clampNllConfig call.config).weight nll candidate).debugInfo,
        nllDelta minimum (clampNllConfig call.config).weight nll, hcandidate, htarget, rfl,
        hbounds.1, hbounds.2, ?_, ?_⟩
      · rintro rfl
        exact hself
      · rw [(hloop i).1 nll (mem_zip_iff.mpr ⟨k, hindex, hscore⟩), hcandidate]
        rfl
    · intro i hnot
      refine (hloop i).2 (fun nll hmem => ?_)
      obtain ⟨k, hindex, hscore⟩ := mem_zip_iff.mp hmem
      exact hnot k nll hindex hscore

/-- The ways in which the part behind the breaker ends: it is cancelled, it fails, or the
scores are applied. -/
theorem attempt_cases (call : NllCall) (result : NllResult)
    (hresult : result.candidates = call.candidates) :
    ∃ base : NllResult, base.candidates = call.candidates ∧ base.circuit = result.circuit
      ∧ base.canceled = result.canceled ∧ base.evaluated = !call.aborted
      ∧ ((∃ reason point, call.canceled point = true ∧ call.attempt result = base.abandon reason)
        ∨ (∃ reason, (reason = .budgetExceeded ∨ reason = .inferError)
          ∧ call.canceled .afterEvaluate = false ∧ call.attempt result = base.finish call reason)
        ∨ ∃ evaluation updated applied,
          call.evaluate call.surfaces call.boundedDeadline = some evaluation
          ∧ applyNllScores call.candidates call.indices evaluation.scores
            (clampNllConfig call.config).weight = some (updated, applied)
          ∧ call.canceled .afterEvaluate = false
          ∧ call.attempt result = NllResult.finish call
            { base with
              candidates := updated
              outcome := { base.outcome with applied := applied }
              circuit := { base.circuit with failures := 0 } }
            (if applied = 0 then .invalidScore else .applied)) := by
  unfold NllCall.attempt
  dsimp only
  cases hevaluation : call.evaluation with
  | none =>
    refine ⟨{ result with evaluated := !call.aborted }, hresult, rfl, rfl, rfl, ?_⟩
    dsimp only
    by_cases hthrow : call.canceled .afterThrow = true
    · exact .inl ⟨_, _, hthrow, if_pos hthrow⟩
    · rw [if_neg hthrow]
      by_cases hafter : call.canceled .afterEvaluate = true
      · exact .inl ⟨_, _, hafter, if_pos hafter⟩
      · rw [if_neg hafter]
        refine .inr (.inl ⟨_, ?_, Bool.eq_false_of_not_eq_true hafter, rfl⟩)
        split_ifs
        · exact .inl rfl
        · exact .inl rfl
        · exact .inr rfl
  | some evaluation =>
    have hanswered : call.evaluate call.surfaces call.boundedDeadline = some evaluation := by
      unfold NllCall.evaluation at hevaluation
      split_ifs at hevaluation
      exact hevaluation
    dsimp only
    by_cases hafter : call.canceled .afterEvaluate = true
    · rw [if_pos hafter]
      exact ⟨{ result with evaluated := !call.aborted }, hresult, rfl, rfl, rfl,
        .inl ⟨_, _, hafter, rfl⟩⟩
    have hkept := Bool.eq_false_of_not_eq_true hafter
    rw [if_neg hafter]
    by_cases hexpired : call.expired .afterEvaluate = true
    · rw [if_pos hexpired]
      exact ⟨{ result with evaluated := !call.aborted }, hresult, rfl, rfl, rfl,
        .inr (.inl ⟨_, .inl rfl, hkept, rfl⟩)⟩
    rw [if_neg hexpired]
    refine ⟨{ result with
      outcome := { result.outcome with prefixMs := evaluation.prefixMs }
      evaluated := !call.aborted }, hresult, rfl, rfl, rfl, ?_⟩
    unfold NllCall.applyEvaluation
    cases happly : applyNllScores call.candidates call.indices evaluation.scores
        (clampNllConfig call.config).weight with
    | none =>
      dsimp only
      split_ifs with houter
      · exact .inl ⟨_, _, houter, rfl⟩
      · exact .inr (.inl ⟨_, .inr rfl, hkept, rfl⟩)
    | some after =>
      obtain ⟨updated, applied⟩ := after
      dsimp only
      by_cases hcancel : call.canceled .afterApply = true
      · exact .inl ⟨_, _, hcancel, if_pos hcancel⟩
      · rw [if_neg hcancel]
        by_cases hlate : call.expired .afterApply = true
        · exact .inr (.inl ⟨_, .inl rfl, hkept, if_pos hlate⟩)
        · rw [if_neg hlate]
          exact .inr (.inr ⟨evaluation, updated, applied, hanswered, happly, hkept, rfl⟩)

namespace NllResult

/-- Whether a call is a failure. -/
def failed (result : NllResult) : Bool :=
  !result.canceled
    && (result.outcome.reason = .budgetExceeded || result.outcome.reason = .inferError)

/-- Whether a call is a success: the evaluation came in time, with a score for each
target. -/
def succeeded (result : NllResult) : Bool :=
  !result.canceled && (result.outcome.reason = .applied || result.outcome.reason = .invalidScore)

end NllResult

/-- A failure is no success. -/
theorem succeeded_of_failed {result : NllResult} (h : result.failed = true) :
    result.succeeded = false := by
  unfold NllResult.failed at h
  unfold NllResult.succeeded
  cases hreason : result.outcome.reason <;> simp_all

/-- The part of a call in front of the breaker, and the part behind it. -/
theorem rerankWithNll_cases (circuit : NllCircuit) (call : NllCall) :
    (call.passes = false
        ∧ ((call.canceled .entry = true ∧ rerankWithNll circuit call
            = { outcome := {}, candidates := call.candidates, circuit := circuit,
                canceled := true })
          ∨ rerankWithNll circuit call = { outcome := { reason := .disabled }
                                           candidates := call.candidates
                                           circuit := circuit }))
      ∨ (call.passes = true ∧ ∃ reason, (reason = .noTarget ∨ reason = .circuitOpen)
        ∧ rerankWithNll circuit call = { call.entered circuit with
            outcome := { (call.entered circuit).outcome with reason := reason } })
      ∨ (call.passes = true ∧ (call.entered circuit).circuit.failures
          < (clampNllConfig call.config).failureThreshold
        ∧ rerankWithNll circuit call = call.attempt (call.entered circuit)) := by
  unfold rerankWithNll
  by_cases hdisabled : (!call.config.enabled || call.live) = true
  · rw [if_pos hdisabled]
    refine .inl ⟨?_, .inr rfl⟩
    rw [NllCall.passes]
    cases henabled : call.config.enabled <;> cases hlive : call.live <;> simp_all
  rw [if_neg hdisabled]
  by_cases hcancel : call.canceled .entry = true
  · rw [if_pos hcancel]
    refine .inl ⟨?_, .inl ⟨hcancel, rfl⟩⟩
    rw [NllCall.passes, hcancel, Bool.not_true, Bool.and_false]
  rw [if_neg hcancel]
  have hpasses : call.passes = true := by
    rw [NllCall.passes]
    cases henabled : call.config.enabled <;> cases hlive : call.live <;> simp_all
  dsimp only
  by_cases htargets : call.indices = []
  · exact .inr (.inl ⟨hpasses, _, .inl rfl, if_pos htargets⟩)
  rw [if_neg htargets]
  by_cases hopen : (clampNllConfig call.config).failureThreshold
      ≤ (call.entered circuit).circuit.failures
  · exact .inr (.inl ⟨hpasses, _, .inr rfl, if_pos hopen⟩)
  · exact .inr (.inr ⟨hpasses, not_le.mp hopen, if_neg hopen⟩)

/-- **A call leaves the candidates as they were, or has applied an evaluation.** -/
theorem rerankWithNll_candidates (circuit : NllCircuit) (call : NllCall) :
    (rerankWithNll circuit call).candidates = call.candidates
      ∨ ((rerankWithNll circuit call).outcome.reason = .applied
        ∧ ∃ evaluation, Applied call evaluation (rerankWithNll circuit call).candidates) := by
  obtain ⟨-, ⟨-, heq⟩ | heq⟩ | ⟨-, reason, -, heq⟩ | ⟨-, -, heq⟩ := rerankWithNll_cases circuit call
  · rw [heq]
    exact .inl rfl
  · rw [heq]
    exact .inl rfl
  · rw [heq]
    exact .inl rfl
  rw [heq]
  obtain ⟨base, hbase, -, -, -, ⟨_, _, -, hend⟩ | ⟨_, -, -, hend⟩
    | ⟨evaluation, updated, applied, hanswered, happly, -, hend⟩⟩ :=
    attempt_cases call (call.entered circuit) rfl
  · rw [hend]
    exact .inl hbase
  · rw [hend]
    exact .inl hbase
  · rw [hend]
    obtain ⟨hnone, hsome⟩ := applyNllScores_spec hanswered happly
    by_cases hzero : applied = 0
    · exact .inl (hnone hzero)
    · refine .inr ⟨?_, evaluation, hsome hzero⟩
      show (if applied = 0 then NllReason.invalidScore else NllReason.applied) = .applied
      exact if_neg hzero

/-! ## The breaker -/

/-- What a call does to the breaker. -/
def NllCircuit.after (circuit : NllCircuit) (call : NllCall) (result : NllResult) : NllCircuit :=
  if call.passes then
    let circuit := circuit.forRevision call.revision
    { circuit with
      failures := if result.failed then circuit.failures + 1
        else if result.succeeded then 0 else circuit.failures }
  else circuit

/-- **What a call does to the breaker**, whatever it meets on its way. -/
theorem rerankWithNll_circuit (circuit : NllCircuit) (call : NllCall) :
    (rerankWithNll circuit call).circuit
      = circuit.after call (rerankWithNll circuit call) := by
  unfold NllCircuit.after
  obtain ⟨hpasses, ⟨-, heq⟩ | heq⟩ | ⟨hpasses, reason, hreason, heq⟩ | ⟨hpasses, -, heq⟩ :=
    rerankWithNll_cases circuit call
  · rw [hpasses, heq]
    rfl
  · rw [hpasses, heq]
    rfl
  · rw [if_pos hpasses, heq]
    rcases hreason with rfl | rfl <;> rfl
  rw [if_pos hpasses, heq]
  obtain ⟨base, -, hbase, hlive, -, ⟨_, _, -, hend⟩ | ⟨_, hreason, -, hend⟩
    | ⟨evaluation, updated, applied, -, -, -, hend⟩⟩ :=
    attempt_cases call (call.entered circuit) rfl
  · rw [hend]
    exact hbase
  · rw [hend]
    have hlive : base.canceled = false := hlive
    rcases hreason with rfl | rfl <;>
      simp [NllResult.finish, NllResult.failed, hbase, hlive, NllCall.entered]
  · rw [hend]
    have hlive : base.canceled = false := hlive
    by_cases hzero : applied = 0 <;>
      simp [NllResult.finish, NllResult.failed, NllResult.succeeded, hbase, hlive, hzero,
        NllCall.entered]

/-- A call that counts as a failure has come to the breaker, and has met no cancellation
when the evaluator was done. -/
theorem canceled_of_failed {circuit : NllCircuit} {call : NllCall}
    (h : (rerankWithNll circuit call).failed = true) :
    call.passes = true ∧ call.canceled .afterEvaluate = false := by
  obtain ⟨-, ⟨-, heq⟩ | heq⟩ | ⟨-, reason, hreason, heq⟩ | ⟨hpasses, -, heq⟩ :=
    rerankWithNll_cases circuit call
  · rw [heq] at h
    cases h
  · rw [heq] at h
    cases h
  · rw [heq] at h
    rcases hreason with rfl | rfl <;> cases h
  refine ⟨hpasses, ?_⟩
  rw [heq] at h
  obtain ⟨base, -, -, -, -, ⟨_, _, -, hend⟩ | ⟨_, -, hkept, -⟩ | ⟨_, _, _, -, -, hkept, -⟩⟩ :=
    attempt_cases call (call.entered circuit) rfl
  · rw [hend] at h
    cases h
  · exact hkept
  · exact hkept

/-- A call that has ended because of a cancellation has met one. -/
theorem canceled_of_result {circuit : NllCircuit} {call : NllCall}
    (h : (rerankWithNll circuit call).canceled = true) :
    ∃ point, call.canceled point = true := by
  obtain ⟨-, ⟨hcancel, -⟩ | heq⟩ | ⟨-, reason, -, heq⟩ | ⟨hpasses, -, heq⟩ :=
    rerankWithNll_cases circuit call
  · exact ⟨_, hcancel⟩
  · rw [heq] at h
    cases h
  · rw [heq] at h
    cases h
  rw [heq] at h
  obtain ⟨base, -, -, hlive, -, ⟨_, point, hpoint, -⟩ | ⟨_, -, -, hend⟩
    | ⟨_, _, _, -, -, -, hend⟩⟩ :=
    attempt_cases call (call.entered circuit) rfl
  · exact ⟨point, hpoint⟩
  · rw [hend] at h
    exact Bool.noConfusion (h.symm.trans hlive)
  · rw [hend] at h
    exact Bool.noConfusion (h.symm.trans hlive)

/-- A call in a run. -/
def callStep (circuit : NllCircuit) (call : NllCall) : NllCircuit × (NllCall × NllResult) :=
  ((rerankWithNll circuit call).circuit, (call, rerankWithNll circuit call))

/-- The breaker as a counter of failures, with the revision for a key. -/
def NllCircuit.counter (circuit : NllCircuit) : KeyedCounter UInt64 :=
  ⟨circuit.revision, circuit.failures⟩

/-- A call that comes to the breaker is an event for the counter. -/
theorem counter_after (circuit : NllCircuit) (call : NllCall) (result : NllResult) :
    (circuit.after call result).counter
      = if call.passes then
          KeyedCounter.step (fun event : NllCall × NllResult => event.1.revision)
            (fun event => event.2.failed) (fun event => event.2.succeeded) circuit.counter
            (call, result)
        else circuit.counter := by
  unfold NllCircuit.after NllCircuit.counter KeyedCounter.step NllCircuit.forRevision
  by_cases hrevision : circuit.revision = call.revision <;> split_ifs <;> simp_all

/-- **The breaker at the end of a run** is the counter of the calls that came to it. -/
theorem counter_run (circuit : NllCircuit) (calls : List NllCall) :
    (Mealy.run callStep circuit calls).1.counter
      = ((Mealy.run callStep circuit calls).2.filter (fun event => event.1.passes)).foldl
          (KeyedCounter.step (fun event : NllCall × NllResult => event.1.revision)
            (fun event => event.2.failed) (fun event => event.2.succeeded)) circuit.counter := by
  induction calls generalizing circuit with
  | nil => rfl
  | cons call calls ih =>
    have hstep : (callStep circuit call).1.counter = _ :=
      (congrArg NllCircuit.counter (rerankWithNll_circuit circuit call)).trans
        (counter_after circuit call _)
    rw [Mealy.run, ih, hstep, List.filter_cons]
    by_cases hpasses : call.passes = true
    · rw [if_pos hpasses, if_pos (show (callStep circuit call).2.1.passes = true from hpasses)]
      rfl
    · rw [if_neg hpasses,
        if_neg (show ¬(callStep circuit call).2.1.passes = true from hpasses)]

/-- A call that finds the breaker open changes nothing and calls no evaluator. -/
theorem rerankWithNll_of_open {circuit : NllCircuit} {call : NllCall}
    (hopen : call.passes = true → call.revision = circuit.revision
      ∧ (clampNllConfig call.config).failureThreshold ≤ circuit.failures) :
    (rerankWithNll circuit call).circuit = circuit
      ∧ (rerankWithNll circuit call).evaluated = false
      ∧ (rerankWithNll circuit call).candidates = call.candidates := by
  have hsame : call.revision = circuit.revision →
      circuit.forRevision call.revision = circuit := fun h =>
    if_neg (not_not.mpr h.symm)
  obtain ⟨-, ⟨-, heq⟩ | heq⟩ | ⟨hpasses, reason, -, heq⟩ | ⟨hpasses, hlt, -⟩ :=
    rerankWithNll_cases circuit call
  · rw [heq]
    exact ⟨rfl, rfl, rfl⟩
  · rw [heq]
    exact ⟨rfl, rfl, rfl⟩
  · rw [heq]
    exact ⟨hsame (hopen hpasses).1, rfl, rfl⟩
  · obtain ⟨hrevision, hthreshold⟩ := hopen hpasses
    rw [NllCall.entered, hsame hrevision] at hlt
    exact absurd hlt (not_lt.mpr hthreshold)

/-- **An open breaker stays open** until a call with another revision comes to it, or one
with a higher threshold. -/
theorem run_of_open {circuit : NllCircuit} {calls : List NllCall}
    (hopen : ∀ call ∈ calls, call.passes = true → call.revision = circuit.revision
      ∧ (clampNllConfig call.config).failureThreshold ≤ circuit.failures) :
    (Mealy.run callStep circuit calls).1 = circuit
      ∧ ∀ event ∈ (Mealy.run callStep circuit calls).2, event.2.evaluated = false
        ∧ event.2.candidates = event.1.candidates := by
  induction calls with
  | nil => exact ⟨rfl, fun event h => (nomatch h)⟩
  | cons call calls ih =>
    obtain ⟨hcall, hcalls⟩ := List.forall_mem_cons.mp hopen
    obtain ⟨hcircuit, hevaluated, hcandidates⟩ := rerankWithNll_of_open hcall
    obtain ⟨hlast, hevents⟩ := ih hcalls
    have hnext : (callStep circuit call).1 = circuit := hcircuit
    rw [Mealy.run, hnext]
    refine ⟨hlast, List.forall_mem_cons.mpr ⟨⟨hevaluated, hcandidates⟩, hevents⟩⟩

/-- The calls of a run that count for the breaker: those that have come to it, behind the
last that has succeeded or had another revision. -/
def recentCalls (revision : UInt64) (events : List (NllCall × NllResult)) :
    List (NllCall × NllResult) :=
  (events.filter (fun event => event.1.passes)).rtakeWhile
    (fun event => event.1.revision = revision && !event.2.succeeded)

/-- **`RerankWithNll`.** A call leaves the candidates as they were, or applies all of its
scores; the breaker counts the failures since the last success or change of the revision,
and a cancelled call is none; and an open breaker keeps the evaluator from being called. -/
theorem rerankWithNll_spec :
    (∀ (circuit : NllCircuit) (call : NllCall),
      ((rerankWithNll circuit call).candidates = call.candidates
        ∨ ((rerankWithNll circuit call).outcome.reason = .applied
          ∧ ∃ evaluation, Applied call evaluation (rerankWithNll circuit call).candidates))
      ∧ call.indices.Nodup
      ∧ call.indices.length ≤ (clampNllConfig call.config).topK.toNat
      ∧ (0 ≤ (clampNllConfig call.config).weight ∧ (clampNllConfig call.config).weight ≤ 1)
      ∧ ((rerankWithNll circuit call).canceled = true → ∃ point, call.canceled point = true)
      ∧ ((rerankWithNll circuit call).failed = true →
        (rerankWithNll circuit call).canceled = false ∧ call.passes = true
          ∧ call.canceled .afterEvaluate = false))
    ∧ (∀ (circuit : NllCircuit) (calls : List NllCall),
      let events := (Mealy.run callStep circuit calls).2
      let last := (Mealy.run callStep circuit calls).1
      last.failures = (recentCalls last.revision events).countP (fun event => event.2.failed)
        + if (recentCalls last.revision events).length
              = (events.filter (fun event => event.1.passes)).length
            ∧ circuit.revision = last.revision then circuit.failures else 0)
    ∧ ∀ (circuit : NllCircuit) (calls : List NllCall),
      (∀ call ∈ calls, call.passes = true → call.revision = circuit.revision
        ∧ (clampNllConfig call.config).failureThreshold ≤ circuit.failures) →
      (Mealy.run callStep circuit calls).1 = circuit
        ∧ ∀ event ∈ (Mealy.run callStep circuit calls).2, event.2.evaluated = false
          ∧ event.2.candidates = event.1.candidates := by
  refine ⟨fun circuit call => ?_, fun circuit calls => ?_, fun circuit calls => run_of_open⟩
  · obtain ⟨hnodup, hlength, -⟩ :=
      selectNllCandidates_spec call.candidates (clampNllConfig call.config).topK
    refine ⟨rerankWithNll_candidates circuit call, hnodup, ?_, clampWeight_mem _,
      canceled_of_result, fun hfailed => ⟨?_, canceled_of_failed hfailed⟩⟩
    · rwa [show clampInt (clampNllConfig call.config).topK 1 16 = (clampNllConfig call.config).topK
        from clampInt_clampInt _ (by decide)] at hlength
    · rw [NllResult.failed, Bool.and_eq_true, Bool.not_eq_true'] at hfailed
      exact hfailed.1
  · have hrun := counter_run circuit calls
    have hkey := congrArg KeyedCounter.key hrun
    have hcount := congrArg KeyedCounter.count hrun
    refine hcount.trans ?_
    refine (KeyedCounter.foldl_count ?_ _ _ hkey.symm).trans rfl
    rintro ⟨call, result⟩ hfailed
    exact succeeded_of_failed hfailed

/-- The limits are the ones of `ClampNllConfig`: a weight of 2 counts as one of 1. And a
call with a higher threshold gets past a breaker that was open for the one before. -/
theorem rerankWithNll_limits :
    let candidates : List ScoredCandidate :=
      [⟨utf8 "a", utf8 "a", 0, .systemDictionary, [], [], .none⟩,
        ⟨utf8 "b", utf8 "a", 0, .systemDictionary, [], [], .none⟩]
    let call : NllCall :=
      { candidates := candidates
        config := { enabled := true, weight := .finite 2, failureThreshold := 1 }
        revision := 0
        clock := fun _ => 0
        canceled := fun _ => false
        evaluate := fun _ _ => some { scores := [.finite 0, .finite 1] } }
    let broken : NllCall := { call with evaluate := fun _ _ => none }
    let patient : NllCall := { call with config := { call.config with failureThreshold := 3 } }
    (rerankWithNll {} call).candidates.map ScoredCandidate.score = [0, -1]
      ∧ (Mealy.run callStep {} [broken]).1.failures = broken.config.failureThreshold
      ∧ (Mealy.run callStep {} [broken, patient]).2.map (fun event => event.2.evaluated)
        = [true, true] := by
  refine ⟨?_, by decide, by decide⟩
  have hindices : selectNllCandidates [⟨utf8 "a", utf8 "a", 0, .systemDictionary, [], [], .none⟩,
        ⟨utf8 "b", utf8 "a", 0, .systemDictionary, [], [], .none⟩] 8 = [0, 1] := by decide
  norm_num [rerankWithNll, NllCall.attempt, NllCall.evaluation, NllCall.aborted, NllCall.expired,
    NllCall.applyEvaluation, NllResult.finish, NllCall.indices, clampNllConfig, clampInt,
    clampWeight, hindices, NllCall.boundedDeadline, applyNllScores, minimumOf, applyScore, NllCall.entered,
    rescore, nllDelta]
  rfl

end AzooKey.Host

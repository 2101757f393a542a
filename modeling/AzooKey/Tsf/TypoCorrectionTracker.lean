import AzooKey.Learning.TypoCorrectionStore
import AzooKey.Lib.EditDistance
import AzooKey.Lib.Mealy

/-!
# The typo tracker of the text service

`tsf-tip/include/azookey/tsf/TypoCorrectionTracker.h`: the text service
remembers the reading that was there before the user began to delete, and
offers it with the reading that was committed in the end as a correction. It
does so only for pairs that the host would count, and for this it has the test
of the host a second time, with its own decoder, which stops after one code
point too many.

`isLearnablePair_agrees` says that the two tests are the same, and what they
test: the rolling row of both computes `editDistance`, and the comparison of
the lengths that comes before it refuses nothing that the distance would
accept. `offered_run` says of every run of the tracker where the reading that
it offers was met.
-/

namespace AzooKey.Tsf

open AzooKey.Learning AzooKey.Core

/-! ## The source -/

/-- `TypoCorrectionPair`. -/
structure TypoCorrectionPair where
  wrongReading : Bytes
  correctReading : Bytes
deriving DecidableEq

/-- `TypoCorrectionTracker`. -/
structure TypoCorrectionTracker where
  preCorrectionReading : Bytes := []
  lastCommittedReading : Bytes := []
  firstKeyAfterCommit : Bool := false
deriving DecidableEq

namespace TypoCorrectionTracker

/-- `kMaxReadingLength`. -/
def maxReadingLength : ℕ := 64

/-- `DecodeReading`: the code points of a reading, of which no more are read
once there is one too many. -/
def decodeReading (reading : Bytes) : List ℕ := Typo.decodeFrom (maxReadingLength + 1) reading

/-- The last entry of the last row. -/
def distance (lhs rhs : List ℕ) : ℕ :=
  (lhs.foldl (Typo.nextRow rhs) (0, List.range (rhs.length + 1))).2.getD rhs.length 0

/-- The limit that `IsLearnablePair` sets. -/
def distanceLimit (lhs rhs : List ℕ) : ℕ :=
  let longer : ℕ := max lhs.length rhs.length
  let relative := ⌈nearest (nearest longer * nearest (34 / 100))⌉.toNat
  min 3 (max 1 relative)

/-- **`IsLearnablePair`.** -/
def isLearnablePair (wrong correct : Bytes) : Bool :=
  if wrong = [] ∨ correct = [] ∨ wrong = correct then false
  else
    let lhs := decodeReading wrong
    let rhs := decodeReading correct
    if lhs.length < 2 ∨ rhs.length < 2 ∨ maxReadingLength < lhs.length
        ∨ maxReadingLength < rhs.length then false
    else
      let limit := distanceLimit lhs rhs
      let difference :=
        if rhs.length < lhs.length then lhs.length - rhs.length else rhs.length - lhs.length
      if limit < difference then false else distance lhs rhs ≤ limit

/-- `CanArmPostCommitBackspace`. -/
def canArmPostCommitBackspace (t : TypoCorrectionTracker) : Bool :=
  t.firstKeyAfterCommit && t.preCorrectionReading.isEmpty

/-- `BeginKey`. -/
def beginKey (t : TypoCorrectionTracker) (backspace preeditEmpty : Bool) : TypoCorrectionTracker :=
  if !t.firstKeyAfterCommit then t
  else
    { preCorrectionReading :=
        if backspace && preeditEmpty && t.canArmPostCommitBackspace then t.lastCommittedReading
        else t.preCorrectionReading
      lastCommittedReading := []
      firstKeyAfterCommit := false }

/-- `BeforeBackspace`. -/
def beforeBackspace (t : TypoCorrectionTracker) (reading : Bytes) : TypoCorrectionTracker :=
  if t.preCorrectionReading.isEmpty && !reading.isEmpty then
    { t with preCorrectionReading := reading }
  else t

/-- **`Commit`**: the pair, if the two readings are one. -/
def commit (t : TypoCorrectionTracker) (finalReading : Bytes) :
    Option TypoCorrectionPair × TypoCorrectionTracker :=
  (if isLearnablePair t.preCorrectionReading finalReading then
      some ⟨t.preCorrectionReading, finalReading⟩
    else none,
    { preCorrectionReading := []
      lastCommittedReading := finalReading
      firstKeyAfterCommit := true })

/-- `Reset`. -/
def reset (_ : TypoCorrectionTracker) : TypoCorrectionTracker := {}

end TypoCorrectionTracker

/-! ## The rolling row -/

section Row

variable (d : List ℕ)

/-- The entries of a row after the first: the distances from a list to longer
and longer ones. Lists are in reverse here, so that an element comes in front. -/
def rowRest : List ℕ → List ℕ → List ℕ
  | _, [] => []
  | e, r :: rhs => editDistance d (r :: e) :: rowRest (r :: e) rhs

/-- **One row makes the next.** -/
theorem rowTail_rowRest (c : ℕ) (e rhs : List ℕ) :
    Typo.rowTail c (editDistance (c :: d) e) rhs (editDistance d e :: rowRest d e rhs)
      = rowRest (c :: d) e rhs := by
  induction rhs generalizing e with
  | nil => rfl
  | cons r rhs ih =>
    have hentry : min (min (editDistance (c :: d) e + 1) (editDistance d (r :: e) + 1))
        (editDistance d e + if c = r then 0 else 1) = editDistance (c :: d) (r :: e) :=
      (editDistance_cons c r d e).symm
    show min (min (editDistance (c :: d) e + 1) (editDistance d (r :: e) + 1))
        (editDistance d e + if c = r then 0 else 1) :: Typo.rowTail c _ rhs _ = _
    rw [hentry, ih]
    rfl

/-- The first row. -/
theorem rowRest_nil (e rhs : List ℕ) : rowRest [] e rhs = List.range' (e.length + 1) rhs.length := by
  induction rhs generalizing e with
  | nil => rfl
  | cons r rhs ih =>
    rw [rowRest, ih, editDistance_nil, List.length_cons, List.length_cons, List.range'_succ]

/-- The last entry of a row. -/
theorem getD_rowRest (e rhs : List ℕ) :
    (editDistance d e :: rowRest d e rhs).getD rhs.length 0 = editDistance d (rhs.reverse ++ e) := by
  induction rhs generalizing e with
  | nil => rfl
  | cons r rhs ih =>
    rw [rowRest, List.length_cons, List.getD_cons_succ, ih, List.reverse_cons, List.append_assoc]
    rfl

/-- **The rows of a list.** -/
theorem foldl_nextRow (rhs lhs : List ℕ) :
    lhs.foldl (Typo.nextRow rhs) (d.length, editDistance d [] :: rowRest d [] rhs)
      = ((lhs.reverse ++ d).length, editDistance (lhs.reverse ++ d) []
        :: rowRest (lhs.reverse ++ d) [] rhs) := by
  induction lhs generalizing d with
  | nil => rfl
  | cons c lhs ih =>
    have hrow : Typo.nextRow rhs (d.length, editDistance d [] :: rowRest d [] rhs) c
        = ((c :: d).length, editDistance (c :: d) [] :: rowRest (c :: d) [] rhs) := by
      have htail := rowTail_rowRest d c [] rhs
      rw [editDistance_nil_right] at htail
      unfold Typo.nextRow
      rw [editDistance_nil_right (c :: d), ← htail]
      rfl
    rw [List.foldl_cons, hrow, ih, List.reverse_cons, List.append_assoc]
    rfl

end Row

/-- **The rolling row computes the distance.** -/
theorem distance_eq (lhs rhs : List ℕ) :
    TypoCorrectionTracker.distance lhs rhs = editDistance lhs rhs := by
  have hstart : List.range (rhs.length + 1)
      = editDistance ([] : List ℕ) [] :: rowRest [] [] rhs := by
    rw [rowRest_nil, editDistance_nil, List.range_eq_range', List.range'_succ]
    rfl
  have hrows := foldl_nextRow [] rhs lhs
  unfold TypoCorrectionTracker.distance
  rw [hstart]
  show (lhs.foldl (Typo.nextRow rhs) (([] : List ℕ).length, _)).2.getD rhs.length 0 = _
  rw [hrows, getD_rowRest, List.append_nil, List.append_nil, editDistance_reverse]

/-- The same row in the store of the host. -/
theorem utf8EditDistance_eq (a b : Bytes) :
    Typo.utf8EditDistance a b = editDistance (Typo.decodeUtf8 a) (Typo.decodeUtf8 b) := by
  unfold Typo.utf8EditDistance
  dsimp only
  split
  · rename_i hnil
    rw [hnil, editDistance_nil]
  · split
    · rename_i hnil
      rw [hnil, editDistance_nil_right]
    · exact distance_eq _ _

/-! ## The decoders -/

/-- A byte is enough fuel for a code point. -/
theorem decodeFrom_eq_decodeFrom {fuel fuel' : ℕ} {value : Bytes} (h : value.length ≤ fuel)
    (h' : value.length ≤ fuel') : Typo.decodeFrom fuel value = Typo.decodeFrom fuel' value := by
  induction fuel generalizing fuel' value with
  | zero =>
    obtain rfl := List.eq_nil_of_length_eq_zero (Nat.le_zero.mp h)
    cases fuel' <;> rfl
  | succ fuel ih =>
    cases fuel' with
    | zero =>
      obtain rfl := List.eq_nil_of_length_eq_zero (Nat.le_zero.mp h')
      rfl
    | succ fuel' =>
      unfold Typo.decodeFrom
      cases hd : decodeNextUtf8 value with
      | none => rfl
      | some d =>
        have hrest := decodeNextUtf8_rest_lt hd
        show d.codepoint :: _ = d.codepoint :: _
        rw [ih (by omega : d.rest.length ≤ fuel) (by omega : d.rest.length ≤ fuel')]

/-- With less fuel fewer code points are read, and no others. -/
theorem decodeFrom_eq_take {fuel more : ℕ} (h : fuel ≤ more) (value : Bytes) :
    Typo.decodeFrom fuel value = (Typo.decodeFrom more value).take fuel := by
  induction fuel generalizing more value with
  | zero => rfl
  | succ fuel ih =>
    obtain ⟨more, rfl⟩ : ∃ m, more = m + 1 := ⟨more - 1, by omega⟩
    unfold Typo.decodeFrom
    cases decodeNextUtf8 value with
    | none => rfl
    | some d =>
      show d.codepoint :: _ = d.codepoint :: _
      rw [ih (Nat.le_of_succ_le_succ h)]

/-- **The tracker reads the first 65 code points that the host reads.** -/
theorem decodeReading_eq (reading : Bytes) :
    TypoCorrectionTracker.decodeReading reading
      = (Typo.decodeUtf8 reading).take (TypoCorrectionTracker.maxReadingLength + 1) := by
  unfold TypoCorrectionTracker.decodeReading
  rw [decodeFrom_eq_take (le_max_left _ reading.length),
    decodeFrom_eq_decodeFrom (le_max_right _ _) le_rfl]
  rfl

/-! ## The two tests -/

/-- The longest distance that is learned from readings of which the longer has
so many code points. -/
def maxDistance (longer : ℕ) : ℕ := min 3 (max 1 ⌈(34 / 100 : ℚ) * longer⌉.toNat)

/-- The floating point limit is that of the exact ratio, for every length that
gets so far. -/
theorem editDistanceLimit_eq : ∀ longer ≤ Typo.maxReadingLength,
    Typo.editDistanceLimit longer = maxDistance longer := by
  decide +kernel

/-- **What is learned**: two readings of two to sixty-four code points that
are not the same and not far from each other. -/
def Learnable (wrong correct : Bytes) : Prop :=
  wrong ≠ correct ∧ Typo.utf8CharLength wrong ∈ Set.Icc 2 64
    ∧ Typo.utf8CharLength correct ∈ Set.Icc 2 64
    ∧ editDistance (Typo.decodeUtf8 wrong) (Typo.decodeUtf8 correct)
      ≤ maxDistance (max (Typo.utf8CharLength wrong) (Typo.utf8CharLength correct))

/-- The comparison of the lengths refuses nothing that the distance accepts. -/
theorem difference_le_editDistance (lhs rhs : List ℕ) :
    (if rhs.length < lhs.length then lhs.length - rhs.length else rhs.length - lhs.length)
      ≤ editDistance lhs rhs := by
  have h := length_le_add_editDistance lhs rhs
  split <;> omega

/-- The test of the host. -/
theorem typo_isLearnablePair_iff (wrong correct : Bytes) :
    Typo.isLearnablePair wrong correct = true ↔ Learnable wrong correct := by
  have hdifference : (if Typo.utf8CharLength correct < Typo.utf8CharLength wrong then
        Typo.utf8CharLength wrong - Typo.utf8CharLength correct
      else Typo.utf8CharLength correct - Typo.utf8CharLength wrong)
      ≤ editDistance (Typo.decodeUtf8 wrong) (Typo.decodeUtf8 correct) :=
    difference_le_editDistance _ _
  unfold Typo.isLearnablePair Learnable
  dsimp only
  rw [utf8EditDistance_eq, Set.mem_Icc, Set.mem_Icc]
  by_cases heq : wrong = correct
  · rw [if_pos heq]
    exact iff_of_false Bool.false_ne_true (fun h => h.1 heq)
  rw [if_neg heq]
  by_cases hnil : wrong = [] ∨ correct = []
  · rw [if_pos hnil]
    have hzero : Typo.utf8CharLength [] = 0 := rfl
    refine iff_of_false Bool.false_ne_true (fun h => ?_)
    rcases hnil with rfl | rfl
    · exact absurd h.2.1.1 (by rw [hzero]; decide)
    · exact absurd h.2.2.1.1 (by rw [hzero]; decide)
  rw [if_neg hnil]
  by_cases hmin : Typo.utf8CharLength wrong < Typo.minReadingLength
      ∨ Typo.utf8CharLength correct < Typo.minReadingLength
  · rw [if_pos hmin]
    unfold Typo.minReadingLength at hmin
    exact iff_of_false Bool.false_ne_true (by omega)
  rw [if_neg hmin]
  by_cases hmax : Typo.maxReadingLength < Typo.utf8CharLength wrong
      ∨ Typo.maxReadingLength < Typo.utf8CharLength correct
  · rw [if_pos hmax]
    unfold Typo.maxReadingLength at hmax
    exact iff_of_false Bool.false_ne_true (by omega)
  rw [if_neg hmax, editDistanceLimit_eq _ (max_le (not_lt.mp (not_or.mp hmax).1)
    (not_lt.mp (not_or.mp hmax).2))]
  unfold Typo.minReadingLength at hmin
  unfold Typo.maxReadingLength at hmax
  by_cases hfar : maxDistance (max (Typo.utf8CharLength wrong) (Typo.utf8CharLength correct))
      < if Typo.utf8CharLength correct < Typo.utf8CharLength wrong then
          Typo.utf8CharLength wrong - Typo.utf8CharLength correct
        else Typo.utf8CharLength correct - Typo.utf8CharLength wrong
  · rw [if_pos hfar]
    exact iff_of_false Bool.false_ne_true (fun h => absurd (hfar.trans_le hdifference)
      (not_lt.mpr h.2.2.2))
  · rw [if_neg hfar, decide_eq_true_iff]
    exact ⟨fun h => ⟨heq, by omega, by omega, h⟩, fun h => h.2.2.2⟩

/-- The limit of the tracker is that of the host. -/
theorem distanceLimit_eq (lhs rhs : List ℕ) : TypoCorrectionTracker.distanceLimit lhs rhs
    = Typo.editDistanceLimit (max lhs.length rhs.length) := by
  unfold TypoCorrectionTracker.distanceLimit Typo.editDistanceLimit
  exact min_comm 3 _

/-- The test of the tracker, on readings that are not too long. -/
theorem isLearnablePair_of_length_le {wrong correct : Bytes}
    (hw : Typo.utf8CharLength wrong ≤ Typo.maxReadingLength)
    (hc : Typo.utf8CharLength correct ≤ Typo.maxReadingLength) :
    TypoCorrectionTracker.isLearnablePair wrong correct = Typo.isLearnablePair wrong correct := by
  have hlhs : TypoCorrectionTracker.decodeReading wrong = Typo.decodeUtf8 wrong :=
    (decodeReading_eq wrong).trans (List.take_of_length_le (Nat.le_succ_of_le hw))
  have hrhs : TypoCorrectionTracker.decodeReading correct = Typo.decodeUtf8 correct :=
    (decodeReading_eq correct).trans (List.take_of_length_le (Nat.le_succ_of_le hc))
  unfold TypoCorrectionTracker.isLearnablePair Typo.isLearnablePair
  dsimp only
  rw [hlhs, hrhs, utf8EditDistance_eq, distance_eq, distanceLimit_eq]
  by_cases heq : wrong = correct
  · rw [if_pos (Or.inr (Or.inr heq)), if_pos heq]
  rw [if_neg heq]
  by_cases hnil : wrong = [] ∨ correct = []
  · rw [if_pos (hnil.imp_right Or.inl), if_pos hnil]
  rw [if_neg (by tauto), if_neg hnil]
  have hmax : ¬ (Typo.maxReadingLength < Typo.utf8CharLength wrong
      ∨ Typo.maxReadingLength < Typo.utf8CharLength correct) :=
    not_or.mpr ⟨not_lt.mpr hw, not_lt.mpr hc⟩
  rw [if_neg hmax]
  by_cases hmin : Typo.utf8CharLength wrong < Typo.minReadingLength
      ∨ Typo.utf8CharLength correct < Typo.minReadingLength
  · rw [if_pos hmin]
    exact if_pos (hmin.imp_right Or.inl)
  · rw [if_neg hmin]
    exact if_neg (fun h => h.elim (fun h => hmin (Or.inl h))
      (fun h => h.elim (fun h => hmin (Or.inr h)) hmax))

/-- **The test of the tracker is that of the host.** -/
theorem isLearnablePair_eq (wrong correct : Bytes) :
    TypoCorrectionTracker.isLearnablePair wrong correct = Typo.isLearnablePair wrong correct := by
  by_cases hlong : Typo.utf8CharLength wrong ≤ Typo.maxReadingLength
      ∧ Typo.utf8CharLength correct ≤ Typo.maxReadingLength
  · exact isLearnablePair_of_length_le hlong.1 hlong.2
  -- one code point too many is enough for both to refuse
  have hhost : Typo.isLearnablePair wrong correct = false := by
    rw [← Bool.not_eq_true, typo_isLearnablePair_iff]
    exact fun h => hlong ⟨h.2.1.2, h.2.2.1.2⟩
  have htake : ∀ reading, ¬ Typo.utf8CharLength reading ≤ Typo.maxReadingLength →
      TypoCorrectionTracker.maxReadingLength
        < (TypoCorrectionTracker.decodeReading reading).length := by
    intro reading h
    rw [decodeReading_eq, List.length_take]
    exact lt_min (Nat.lt_succ_self _) (not_le.mp h)
  have hlengths : TypoCorrectionTracker.maxReadingLength
        < (TypoCorrectionTracker.decodeReading wrong).length
      ∨ TypoCorrectionTracker.maxReadingLength
        < (TypoCorrectionTracker.decodeReading correct).length :=
    (not_and_or.mp hlong).imp (htake wrong) (htake correct)
  rw [hhost]
  unfold TypoCorrectionTracker.isLearnablePair
  dsimp only
  split
  · rfl
  · rw [if_pos (Or.inr (Or.inr hlengths))]

/-- **The two tests agree**, on every two texts, and both say whether the pair
is learnable. The rolling rows compute the recursive distance, which is
symmetric, and the comparison of the lengths refuses no pair whose distance is
within the limit. -/
theorem isLearnablePair_agrees (wrong correct : Bytes) :
    TypoCorrectionTracker.isLearnablePair wrong correct = Typo.isLearnablePair wrong correct
      ∧ (Typo.isLearnablePair wrong correct = true ↔ Learnable wrong correct)
      ∧ (∀ lhs rhs, TypoCorrectionTracker.distance lhs rhs = editDistance lhs rhs)
      ∧ Typo.utf8EditDistance wrong correct
        = editDistance (Typo.decodeUtf8 wrong) (Typo.decodeUtf8 correct)
      ∧ (∀ lhs rhs : List ℕ, editDistance lhs rhs = editDistance rhs lhs)
      ∧ ∀ (lhs rhs : List ℕ) (limit : ℕ), editDistance lhs rhs ≤ limit →
        ¬ limit < if rhs.length < lhs.length then lhs.length - rhs.length
          else rhs.length - lhs.length :=
  ⟨isLearnablePair_eq wrong correct, typo_isLearnablePair_iff wrong correct, distance_eq,
    utf8EditDistance_eq wrong correct, editDistance_comm, fun lhs rhs _ h =>
      not_lt.mpr ((difference_le_editDistance lhs rhs).trans h)⟩

/-! ## What the tracker offers -/

/-- **Every pair that the tracker offers is one that the host counts**, and
after a commit the tracker remembers no reading from before. -/
theorem observe_commit (t : TypoCorrectionTracker) (finalReading : Bytes) (table : Typo.Table)
    (now : UInt64) :
    (∀ pair ∈ (t.commit finalReading).1, pair.correctReading = finalReading
        ∧ (Typo.observe table pair.wrongReading pair.correctReading now).2 = true)
      ∧ (t.commit finalReading).2.preCorrectionReading = [] := by
  refine ⟨fun pair hpair => ?_, rfl⟩
  unfold TypoCorrectionTracker.commit at hpair
  by_cases h : TypoCorrectionTracker.isLearnablePair t.preCorrectionReading finalReading = true
  · rw [if_pos h] at hpair
    obtain rfl := Option.some.inj hpair
    rw [isLearnablePair_eq] at h
    unfold Typo.observe
    rw [if_pos h]
    exact ⟨rfl, rfl⟩
  · rw [if_neg h] at hpair
    cases hpair

/-! ## Runs of the tracker -/

namespace TypoCorrectionTracker

/-- A call of the tracker. -/
inductive Call
  | beginKey (backspace preeditEmpty : Bool)
  | beforeBackspace (reading : Bytes)
  | commit (finalReading : Bytes)
  | reset
deriving DecidableEq

/-- A call, with the pair that it offers. -/
def step (t : TypoCorrectionTracker) : Call → TypoCorrectionTracker × Option TypoCorrectionPair
  | .beginKey backspace preeditEmpty => (t.beginKey backspace preeditEmpty, none)
  | .beforeBackspace reading => (t.beforeBackspace reading, none)
  | .commit finalReading => ((t.commit finalReading).2, (t.commit finalReading).1)
  | .reset => (t.reset, none)

/-- The tracker after some calls. -/
def after (calls : List Call) : TypoCorrectionTracker := (Mealy.run step {} calls).1

/-- A call that is made of a key, and neither a commit nor a reset. -/
def Call.isKey : Call → Bool
  | .beginKey _ _ | .beforeBackspace _ => true
  | .commit _ | .reset => false

/-- The keys since the last commit or reset. -/
def keysSince (calls : List Call) : List Call := calls.rtakeWhile Call.isKey

/-- The last commit or reset. -/
def lastEnd (calls : List Call) : Option Call := (calls.rdropWhile Call.isKey).getLast?

/-- A call more. -/
theorem after_concat (calls : List Call) (call : Call) :
    after (calls ++ [call]) = (step (after calls) call).1 := Mealy.run_concat step _ calls call

/-- A key more. -/
theorem since_concat_key (calls : List Call) {key : Call} (h : key.isKey = true) :
    keysSince (calls ++ [key]) = keysSince calls ++ [key]
      ∧ lastEnd (calls ++ [key]) = lastEnd calls := by
  refine ⟨List.rtakeWhile_concat_pos _ _ _ h, ?_⟩
  rw [lastEnd, List.rdropWhile_concat_pos _ _ _ h, lastEnd]

/-- A commit or a reset more. -/
theorem since_concat_end (calls : List Call) {last : Call} (h : last.isKey = false) :
    keysSince (calls ++ [last]) = [] ∧ lastEnd (calls ++ [last]) = some last := by
  have hnot : ¬ last.isKey = true := by rw [h]; exact Bool.false_ne_true
  refine ⟨List.rtakeWhile_concat_neg _ _ _ hnot, ?_⟩
  rw [lastEnd, List.rdropWhile_concat_neg _ _ _ hnot, List.getLast?_concat]

/-- **The first text that was deleted from**, since the last commit or reset. -/
def DeletedFrom (calls : List Call) (reading : Bytes) : Prop :=
  ∃ keys more, keysSince calls = keys ++ .beforeBackspace reading :: more
    ∧ ∀ other, .beforeBackspace other ∈ keys → other = []

/-- **The text of the last commit, deleted from at once**: the first key after the
commit is a Backspace with nothing in front of it. -/
def Retyped (calls : List Call) (reading : Bytes) : Prop :=
  lastEnd calls = some (.commit reading) ∧ ∃ keys more,
    keysSince calls = keys ++ .beginKey true true :: more ∧ ∀ key ∈ keys, key = .beforeBackspace []

/-- **What the tracker remembers** of the calls that it has seen. -/
structure Remembers (calls : List Call) (t : TypoCorrectionTracker) : Prop where
  origin : t.preCorrectionReading ≠ [] →
    DeletedFrom calls t.preCorrectionReading ∨ Retyped calls t.preCorrectionReading
  nothing : t.preCorrectionReading = [] →
    ∀ reading, .beforeBackspace reading ∈ keysSince calls → reading = []
  window : t.firstKeyAfterCommit = true → lastEnd calls = some (.commit t.lastCommittedReading)
    ∧ (t.preCorrectionReading = [] → ∀ key ∈ keysSince calls, key = .beforeBackspace [])

/-- What was deleted from stays the first. -/
theorem DeletedFrom.concat {calls : List Call} {reading : Bytes} (h : DeletedFrom calls reading)
    {key : Call} (hkey : key.isKey = true) : DeletedFrom (calls ++ [key]) reading := by
  obtain ⟨keys, more, hkeys, hempty⟩ := h
  refine ⟨keys, more ++ [key], ?_, hempty⟩
  rw [(since_concat_key calls hkey).1, hkeys, List.append_assoc, List.cons_append]

/-- What is retyped stays so. -/
theorem Retyped.concat {calls : List Call} {reading : Bytes} (h : Retyped calls reading)
    {key : Call} (hkey : key.isKey = true) : Retyped (calls ++ [key]) reading := by
  obtain ⟨hlast, keys, more, hkeys, hempty⟩ := h
  refine ⟨(since_concat_key calls hkey).2.trans hlast, keys, more ++ [key], ?_, hempty⟩
  rw [(since_concat_key calls hkey).1, hkeys, List.append_assoc, List.cons_append]

/-- **A key that changes no reading** is remembered, if it leaves the window as it is
or shuts it. -/
theorem Remembers.concat_same {calls : List Call} {t t' : TypoCorrectionTracker}
    (h : Remembers calls t) {key : Call} (hkey : key.isKey = true)
    (hsame : t'.preCorrectionReading = t.preCorrectionReading)
    (hempty : t.preCorrectionReading = [] → ∀ reading, key = .beforeBackspace reading → reading = [])
    (hwindow : t'.firstKeyAfterCommit = true → t.firstKeyAfterCommit = true
      ∧ t'.lastCommittedReading = t.lastCommittedReading
      ∧ (t.preCorrectionReading = [] → key = .beforeBackspace [])) :
    Remembers (calls ++ [key]) t' := by
  obtain ⟨hkeys, hlast⟩ := since_concat_key calls hkey
  refine ⟨?_, ?_, ?_⟩
  · rw [hsame]
    exact fun hne => (h.origin hne).imp (·.concat hkey) (·.concat hkey)
  · rw [hsame, hkeys]
    intro hnil reading hreading
    rcases List.mem_append.mp hreading with hold | hnew
    · exact h.nothing hnil reading hold
    · exact hempty hnil reading (List.mem_singleton.mp hnew).symm
  · rw [hsame, hkeys, hlast]
    intro hfirst
    obtain ⟨hopen, hreading, hsilent⟩ := hwindow hfirst
    rw [hreading]
    refine ⟨(h.window hopen).1, fun hnil key' hkey' => ?_⟩
    rcases List.mem_append.mp hkey' with hold | hnew
    · exact (h.window hopen).2 hnil key' hold
    · exact (List.mem_singleton.mp hnew).trans (hsilent hnil)

/-- The beginning of a key is remembered. -/
theorem Remembers.beginKey {calls : List Call} {t : TypoCorrectionTracker} (h : Remembers calls t)
    (backspace preeditEmpty : Bool) :
    Remembers (calls ++ [.beginKey backspace preeditEmpty]) (t.beginKey backspace preeditEmpty) := by
  unfold TypoCorrectionTracker.beginKey
  cases hfirst : t.firstKeyAfterCommit with
  | false =>
    refine h.concat_same rfl rfl (fun _ _ hkey => by cases hkey) fun hopen => ?_
    exact absurd (hfirst.symm.trans hopen) Bool.false_ne_true
  | true =>
    rw [if_neg (by decide)]
    by_cases harm : (backspace && preeditEmpty && t.canArmPostCommitBackspace) = true
    · -- the first key after the commit takes the reading back
      obtain ⟨hkeys, hlast⟩ := since_concat_key calls
        (Eq.refl (Call.beginKey backspace preeditEmpty).isKey)
      simp only [canArmPostCommitBackspace, Bool.and_eq_true, List.isEmpty_iff] at harm
      obtain ⟨⟨rfl, rfl⟩, -, hnil⟩ := harm
      obtain ⟨hcommit, hsilent⟩ := h.window hfirst
      rw [if_pos (by simp [canArmPostCommitBackspace, hfirst, hnil])]
      refine ⟨fun _ => Or.inr ⟨hlast.trans hcommit, _, [], hkeys, hsilent hnil⟩, ?_,
        fun hopen => by cases hopen⟩
      intro _ reading hreading
      rw [hkeys] at hreading
      rcases List.mem_append.mp hreading with hold | hnew
      · exact h.nothing hnil reading hold
      · cases List.mem_singleton.mp hnew
    · rw [if_neg harm]
      exact h.concat_same rfl rfl (fun _ _ hkey => by cases hkey) fun hopen => by cases hopen

/-- The text in front of a Backspace is remembered. -/
theorem Remembers.beforeBackspace {calls : List Call} {t : TypoCorrectionTracker}
    (h : Remembers calls t) (reading : Bytes) :
    Remembers (calls ++ [.beforeBackspace reading]) (t.beforeBackspace reading) := by
  obtain ⟨hkeys, hlast⟩ := since_concat_key calls (Eq.refl (Call.beforeBackspace reading).isKey)
  unfold TypoCorrectionTracker.beforeBackspace
  by_cases hnew : (t.preCorrectionReading.isEmpty && !reading.isEmpty) = true
  · rw [if_pos hnew]
    simp only [Bool.and_eq_true, List.isEmpty_iff, Bool.not_eq_true', List.isEmpty_eq_false_iff]
      at hnew
    refine ⟨fun _ => Or.inl ⟨_, [], hkeys, fun other => h.nothing hnew.1 other⟩,
      fun hnil => absurd hnil hnew.2, fun hopen => ⟨hlast.trans (h.window hopen).1, ?_⟩⟩
    exact fun hnil => absurd hnil hnew.2
  · rw [if_neg hnew]
    have hempty : t.preCorrectionReading = [] → reading = [] := by
      intro hnil
      by_contra hne
      exact hnew (by simp [hnil, hne])
    refine h.concat_same rfl rfl (fun hnil _ hkey => ?_)
      (fun hopen => ⟨hopen, rfl, fun hnil => by rw [hempty hnil]⟩)
    rw [← Call.beforeBackspace.inj hkey]
    exact hempty hnil

/-- **Every run is remembered.** -/
theorem remembers_after (calls : List Call) : Remembers calls (after calls) := by
  induction calls using List.reverseRecOn with
  | nil => exact ⟨fun h => absurd rfl h, fun _ _ h => absurd h List.not_mem_nil, fun h => by cases h⟩
  | append_singleton calls call ih =>
    rw [after_concat]
    cases call with
    | beginKey backspace preeditEmpty => exact ih.beginKey backspace preeditEmpty
    | beforeBackspace reading => exact ih.beforeBackspace reading
    | commit finalReading =>
      obtain ⟨hkeys, hlast⟩ := since_concat_end calls (Eq.refl (Call.commit finalReading).isKey)
      refine ⟨fun h => absurd rfl h, fun _ _ h => ?_, fun _ => ⟨hlast, fun _ _ h => ?_⟩⟩
      · exact absurd (hkeys ▸ h) List.not_mem_nil
      · exact absurd (hkeys ▸ h) List.not_mem_nil
    | reset =>
      obtain ⟨hkeys, -⟩ := since_concat_end calls (Eq.refl Call.reset.isKey)
      refine ⟨fun h => absurd rfl h, fun _ _ h => ?_, fun h => by cases h⟩
      exact absurd (hkeys ▸ h) List.not_mem_nil

/-- **What a commit offers after any run**: with the reading that is committed, which
the host counts as a correction, the first text that was deleted from since the last
commit, or the text of that commit when it was deleted from at once. -/
theorem offered_run (calls : List Call) (finalReading : Bytes) (table : Typo.Table) (now : UInt64) :
    ∀ pair ∈ ((after calls).commit finalReading).1, pair.correctReading = finalReading
      ∧ (Typo.observe table pair.wrongReading pair.correctReading now).2 = true
      ∧ (DeletedFrom calls pair.wrongReading ∨ Retyped calls pair.wrongReading) := by
  intro pair hpair
  obtain ⟨hcorrect, hcounted⟩ := (observe_commit (after calls) finalReading table now).1 pair hpair
  refine ⟨hcorrect, hcounted, ?_⟩
  unfold TypoCorrectionTracker.commit at hpair
  split at hpair
  · rename_i hlearnable
    obtain rfl := Option.some.inj hpair
    refine (remembers_after calls).origin fun hnil => ?_
    unfold isLearnablePair at hlearnable
    rw [if_pos (Or.inl hnil)] at hlearnable
    exact absurd hlearnable Bool.false_ne_true
  · cases hpair

end TypoCorrectionTracker

end AzooKey.Tsf

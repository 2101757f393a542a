import AzooKey.Core.Utf8Readers
import AzooKey.Learning.Sha256
import AzooKey.Lib.StepsBack

/-!
# The hash of the left context

`ContextHash` of `learning/src/ContextHash.cpp` hashes the last code points of the
text before the cursor, which `LastCodePoints` cuts off; the core has a scanner of
its own for the same purpose, `TakeLastUtf8Codepoints` of `core/src/Utf8.cpp`. The
two go back over continuation bytes, the first over three at most, the other over
any number. Both are walks whose steps find leads, so on valid text they cut off
the same suffix (`lastCodePoints_spec`), and what stands before it does not count:
the client and the host may send contexts that are cut at different places.
-/

namespace AzooKey.Learning

open AzooKey.Core

/-! ## The two scanners -/

/-- The inner loop of `LastCodePoints`: back over three continuation bytes at most. -/
def leadFrom (text : Bytes) : ℕ → ℕ → ℕ
  | 0, _ => 0
  | lead + 1, steps =>
    if isContinuation (text.getD (lead + 1) 0) && decide (steps < 3) then
      leadFrom text lead (steps + 1)
    else lead + 1

/-- Where the suffix of `LastCodePoints` begins. -/
def lastCodePointsBegin (text : Bytes) (count : ℕ) : ℕ :=
  stepsBack (fun begin => leadFrom text (begin - 1) 0) count text.length

/-- **`LastCodePoints`.** -/
def lastCodePoints (text : Bytes) (count : ℕ) : Bytes := text.drop (lastCodePointsBegin text count)

/-- The inner loop of `TakeLastUtf8Codepoints`: back over all continuation bytes. -/
def skipContinuations (input : Bytes) : ℕ → ℕ
  | 0 => 0
  | start + 1 =>
    if isContinuation (input.getD (start + 1) 0) then skipContinuations input start else start + 1

/-- Where the suffix of `TakeLastUtf8Codepoints` begins. -/
def takeLastStart (input : Bytes) (maxCodepoints : ℕ) : ℕ :=
  stepsBack (fun start => skipContinuations input (start - 1)) maxCodepoints input.length

/-- **`TakeLastUtf8Codepoints`.** -/
def takeLastUtf8Codepoints (input : Bytes) (maxCodepoints : ℕ) : Bytes :=
  input.drop (takeLastStart input maxCodepoints)

/-! ## The hash -/

/-- `kContextHashCodePoints`. -/
def contextHashCodePoints : ℕ := 8

/-- `kEmptyContextHash`. -/
def emptyContextHash : Bytes := utf8 "0x00000000"

/-- `std::snprintf` of `0x%08x`. -/
def formatHash (value : UInt32) : Bytes :=
  utf8 "0x" ++ (List.range 8).map (fun i => hexDigit (value.toNat / 16 ^ (7 - i) % 16))

/-- **`ContextHash`.** `NormalizeNfc` is the normalization of the operating system. -/
def contextHash (normalizeNfc : Bytes → Bytes) (leftContext : Bytes) : Bytes :=
  if leftContext.isEmpty then emptyContextHash
  else
    let digest := sha256 (lastCodePoints (normalizeNfc leftContext) contextHashCodePoints)
    formatHash (((digest.getD 0 0).toUInt32 <<< 24) ||| ((digest.getD 1 0).toUInt32 <<< 16)
      ||| ((digest.getD 2 0).toUInt32 <<< 8) ||| (digest.getD 3 0).toUInt32)

/-! ## The scanners find leads -/

/-- A loop over continuation bytes does not go forward. -/
theorem leadFrom_le (text : Bytes) (lead steps : ℕ) : leadFrom text lead steps ≤ lead := by
  induction lead generalizing steps with
  | zero => exact le_rfl
  | succ lead ih =>
    rw [leadFrom]
    split
    · exact (ih _).trans (Nat.le_succ lead)
    · exact le_rfl

/-- A loop over continuation bytes does not go forward. -/
theorem skipContinuations_le (input : Bytes) (start : ℕ) : skipContinuations input start ≤ start := by
  induction start with
  | zero => exact le_rfl
  | succ start ih =>
    rw [skipContinuations]
    split
    · exact ih.trans (Nat.le_succ start)
    · exact le_rfl

section Lead

variable {text front tail back : Bytes} {lead : UInt8}

/-- An octet of a sequence in a text. -/
theorem getD_of_append (htext : text = front ++ lead :: tail ++ back) {k : ℕ}
    (hk : k < (lead :: tail).length) :
    text.getD (front.length + k) 0 = (lead :: tail).getD k 0 := by
  rw [htext, List.append_assoc, List.getD_append_right _ _ _ _ (Nat.le_add_right _ _),
    Nat.add_sub_cancel_left, List.getD_append _ _ _ _ hk]

/-- A trailing octet of a sequence is a continuation byte. -/
theorem isContinuation_of_append (htext : text = front ++ lead :: tail ++ back)
    (htail : ∀ b ∈ tail, isTrailing b = true) {k : ℕ} (hk : k < tail.length) :
    isContinuation (text.getD (front.length + (k + 1)) 0) = true := by
  rw [getD_of_append htext (Nat.succ_lt_succ hk), List.getD_cons_succ, isContinuation_eq,
    List.getD_eq_getElem _ _ hk]
  exact htail _ (List.getElem_mem hk)

/-- The lead of a sequence is no continuation byte. -/
theorem not_isContinuation_of_append (htext : text = front ++ lead :: tail ++ back)
    (hlead : isTrailing lead = false) : isContinuation (text.getD front.length 0) = false := by
  have hget := getD_of_append htext (Nat.succ_pos tail.length)
  rw [Nat.add_zero, List.getD_cons_zero] at hget
  rw [hget, isContinuation_eq, hlead]

/-- From within a sequence the loop of `LastCodePoints` goes to its lead. -/
theorem leadFrom_append (htext : text = front ++ lead :: tail ++ back)
    (hlead : isTrailing lead = false) (htail : ∀ b ∈ tail, isTrailing b = true) {k steps : ℕ}
    (hk : k ≤ tail.length) (hsteps : steps + k ≤ 3) :
    leadFrom text (front.length + k) steps = front.length := by
  induction k generalizing steps with
  | zero =>
    rw [Nat.add_zero]
    cases hfront : front.length with
    | zero => rfl
    | succ n =>
      rw [leadFrom, ← hfront, not_isContinuation_of_append htext hlead, Bool.false_and]
      rfl
  | succ k ih =>
    rw [← Nat.add_assoc, leadFrom, Nat.add_assoc, isContinuation_of_append htext htail hk,
      Bool.true_and, decide_eq_true (by omega), if_pos rfl]
    exact ih (Nat.le_of_succ_le hk) (by omega)

/-- From within a sequence the loop of `TakeLastUtf8Codepoints` goes to its lead. -/
theorem skipContinuations_append (htext : text = front ++ lead :: tail ++ back)
    (hlead : isTrailing lead = false) (htail : ∀ b ∈ tail, isTrailing b = true) {k : ℕ}
    (hk : k ≤ tail.length) : skipContinuations text (front.length + k) = front.length := by
  induction k with
  | zero =>
    rw [Nat.add_zero]
    cases hfront : front.length with
    | zero => rfl
    | succ n =>
      rw [skipContinuations, ← hfront, not_isContinuation_of_append htext hlead]
      rfl
  | succ k ih =>
    rw [← Nat.add_assoc, skipContinuations, Nat.add_assoc,
      isContinuation_of_append htext htail hk, if_pos rfl]
    exact ih (Nat.le_of_succ_le hk)

end Lead

/-- A sequence has at most three trailing octets. -/
theorem length_tail_le {lead : UInt8} {tail : Bytes} (h : isScalar (lead :: tail) = true) :
    tail.length ≤ 3 := by
  have hlength := length_of_isScalar h
  have hfour : scalarLength lead ≤ 4 := by
    unfold scalarLength
    split_ifs <;> norm_num
  rw [List.length_cons] at hlength
  omega

/-- **The steps of `LastCodePoints` find leads.** -/
theorem findsLead_leadFrom (text : Bytes) :
    FindsLead text (fun begin => leadFrom text (begin - 1) 0) := by
  intro front scalar back htext hscalar
  obtain ⟨lead, tail, rfl, hlead, htail⟩ := exists_lead_of_isScalar hscalar
  show leadFrom text (front.length + (tail.length + 1) - 1) 0 = front.length
  rw [← Nat.add_assoc, Nat.add_sub_cancel]
  exact leadFrom_append htext hlead htail le_rfl (by simpa using length_tail_le hscalar)

/-- **The steps of `TakeLastUtf8Codepoints` find leads.** -/
theorem findsLead_skipContinuations (text : Bytes) :
    FindsLead text (fun start => skipContinuations text (start - 1)) := by
  intro front scalar back htext hscalar
  obtain ⟨lead, tail, rfl, hlead, htail⟩ := exists_lead_of_isScalar hscalar
  show skipContinuations text (front.length + (tail.length + 1) - 1) = front.length
  rw [← Nat.add_assoc, Nat.add_sub_cancel]
  exact skipContinuations_append htext hlead htail le_rfl

/-- **What precedes enough code points does not count.** -/
theorem lastCodePoints_append (a : Bytes) {b : Bytes} (hb : ValidUtf8 b) {count : ℕ}
    (hcount : count ≤ codePoints b) : lastCodePoints (a ++ b) count = lastCodePoints b count := by
  obtain ⟨left, last, heq, -, hlast, hcodes, hwalk⟩ :=
    stepsBack_append (findsLead_leadFrom (a ++ b)) (List.append_nil _).symm hb hcount
  obtain ⟨front, hfront, -, hsuffix, hmin⟩ :=
    exists_drop_stepsBack (findsLead_leadFrom b) hb count
  have hsame : last = lastCodePoints b count :=
    ValidUtf8.eq_of_codePoints (heq.symm.trans hfront) hlast hsuffix
      (hcodes.trans (hmin.trans (min_eq_left hcount)).symm)
  rw [← hsame, lastCodePoints, lastCodePointsBegin, List.length_append, hwalk, heq,
    ← List.append_assoc, ← List.length_append]
  exact List.drop_left

/-- **The two scanners, and the hash.** On valid text both return the suffix of the
last code points, and on every text a suffix; with a normalization that leaves the
two texts alone the hash of a context is that of its end. -/
theorem lastCodePoints_spec :
    (∀ text n, ValidUtf8 text →
        takeLastUtf8Codepoints text n = lastCodePoints text n
          ∧ ∃ front, text = front ++ lastCodePoints text n ∧ ValidUtf8 front
            ∧ ValidUtf8 (lastCodePoints text n)
            ∧ codePoints (lastCodePoints text n) = min n (codePoints text))
      ∧ (∀ normalizeNfc a b, ValidUtf8 b → contextHashCodePoints ≤ codePoints b →
          normalizeNfc (a ++ b) = a ++ b → normalizeNfc b = b →
            contextHash normalizeNfc (a ++ b) = contextHash normalizeNfc b)
      ∧ ∀ text n, lastCodePointsBegin text n ≤ text.length ∧ takeLastStart text n ≤ text.length
          ∧ lastCodePoints text n <:+ text ∧ takeLastUtf8Codepoints text n <:+ text := by
  refine ⟨fun text n htext => ?_, fun normalizeNfc a b hb hlong hab hnormal => ?_,
    fun text n => ⟨?_, ?_, List.drop_suffix _ _, List.drop_suffix _ _⟩⟩
  · obtain ⟨front, heq, hfront, hlast, hcodes⟩ :=
      exists_drop_stepsBack (findsLead_leadFrom text) htext n
    obtain ⟨front', heq', -, hlast', hcodes'⟩ :=
      exists_drop_stepsBack (findsLead_skipContinuations text) htext n
    refine ⟨?_, front, heq, hfront, hlast, hcodes⟩
    exact ValidUtf8.eq_of_codePoints (heq'.symm.trans heq) hlast' hlast (hcodes'.trans hcodes.symm)
  · have hne : b ≠ [] := by
      rintro rfl
      exact absurd hlong (by decide)
    unfold contextHash
    rw [hab, hnormal, lastCodePoints_append a hb hlong, if_neg (by simp [hne]),
      if_neg (by simpa using hne)]
  · exact stepsBack_le (fun place => (leadFrom_le _ _ _).trans (Nat.sub_le place 1)) _ _
  · exact stepsBack_le (fun place => (skipContinuations_le _ _).trans (Nat.sub_le place 1)) _ _

end AzooKey.Learning

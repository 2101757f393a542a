import AzooKey.Lib.CodePoints

/-!
# Walking back over code points

A walk from a place in a text towards its start, some steps long, that stays at the
start once it is there (`stepsBack`). A step that goes from the end of a sequence to
its start finds leads (`FindsLead`); a walk with such steps leaves behind as many
code points as it has steps (`stepsBack_append`), whatever precedes the sequences
it passes. So in a valid text every such walk ends where the last code points begin
(`exists_drop_stepsBack`), and there is one such place only
(`ValidUtf8.eq_of_codePoints`).
-/

/-- A walk of `count` steps from `place`, which ends early at the start. -/
def stepsBack (step : ℕ → ℕ) : ℕ → ℕ → ℕ
  | 0, place => place
  | count + 1, place => if 0 < place then stepsBack step count (step place) else place

/-- Each step goes from the end of a sequence to its start. -/
def FindsLead (text : Bytes) (step : ℕ → ℕ) : Prop :=
  ∀ front scalar back, text = front ++ scalar ++ back → isScalar scalar = true →
    step (front.length + scalar.length) = front.length

section Walk

variable {step : ℕ → ℕ}

/-- At the start the walk stays. -/
theorem stepsBack_zero (count : ℕ) : stepsBack step count 0 = 0 := by
  cases count with
  | zero => rfl
  | succ count => rw [stepsBack, if_neg (lt_irrefl 0)]

/-- A walk after a walk. -/
theorem stepsBack_add (m n place : ℕ) :
    stepsBack step (m + n) place = stepsBack step n (stepsBack step m place) := by
  induction m generalizing place with
  | zero => rw [Nat.zero_add, stepsBack]
  | succ m ih =>
    rw [Nat.succ_add, stepsBack, stepsBack]
    by_cases hplace : 0 < place
    · rw [if_pos hplace, if_pos hplace, ih]
    · obtain rfl : place = 0 := by omega
      rw [if_neg hplace, if_neg hplace, stepsBack_zero]

/-- A walk whose steps do not go forward does not go forward. -/
theorem stepsBack_le (h : ∀ place, step place ≤ place) (count place : ℕ) :
    stepsBack step count place ≤ place := by
  induction count generalizing place with
  | zero => exact le_rfl
  | succ count ih =>
    rw [stepsBack]
    split
    · exact (ih _).trans (h place)
    · exact le_rfl

/-- **A walk over the end of a text leaves as many code points as it has steps.** -/
theorem stepsBack_append {text front middle back : Bytes} (hstep : FindsLead text step)
    (htext : text = front ++ middle ++ back) (hmiddle : ValidUtf8 middle) {count : ℕ}
    (hcount : count ≤ codePoints middle) :
    ∃ left last, middle = left ++ last ∧ ValidUtf8 left ∧ ValidUtf8 last ∧ codePoints last = count
      ∧ stepsBack step count (front.length + middle.length) = front.length + left.length := by
  induction count generalizing middle back with
  | zero => exact ⟨middle, [], (List.append_nil _).symm, hmiddle, .nil, rfl, rfl⟩
  | succ count ih =>
    have hne : middle ≠ [] := by
      rintro rfl
      exact absurd hcount (by simp)
    obtain ⟨rest, scalar, rfl, hscalar, hrest⟩ := hmiddle.exists_last hne
    rw [codePoints_append, codePoints_of_isScalar hscalar, Nat.add_le_add_iff_right] at hcount
    -- the first step passes the last sequence
    have hfirst : step (front.length + (rest ++ scalar).length) = front.length + rest.length := by
      rw [List.length_append, ← Nat.add_assoc, ← List.length_append]
      exact hstep (front ++ rest) scalar back (by simpa using htext) hscalar
    have hpos : 0 < front.length + (rest ++ scalar).length :=
      Nat.add_pos_right _ (List.length_pos_iff.mpr hne)
    obtain ⟨left, last, rfl, hleft, hlast, hcodes, hwalk⟩ :=
      ih (show text = front ++ rest ++ (scalar ++ back) by simpa using htext) hrest hcount
    refine ⟨left, last ++ scalar, List.append_assoc _ _ _, hleft, ?_, ?_, ?_⟩
    · exact hlast.append (.of_isScalar hscalar)
    · rw [codePoints_append, codePoints_of_isScalar hscalar, hcodes]
    · rw [stepsBack, if_pos hpos, hfirst, hwalk]

/-- **In a valid text the walk ends where the last code points begin.** -/
theorem exists_drop_stepsBack {text : Bytes} (hstep : FindsLead text step) (htext : ValidUtf8 text)
    (count : ℕ) :
    ∃ front, text = front ++ text.drop (stepsBack step count text.length) ∧ ValidUtf8 front
      ∧ ValidUtf8 (text.drop (stepsBack step count text.length))
      ∧ codePoints (text.drop (stepsBack step count text.length)) = min count (codePoints text) := by
  have hwhole : text = [] ++ text ++ [] := by rw [List.nil_append, List.append_nil]
  obtain ⟨left, last, heq, hleft, hlast, hcodes, hwalk⟩ :=
    stepsBack_append hstep hwhole htext (min_le_right count (codePoints text))
  rw [List.length_nil, Nat.zero_add, Nat.zero_add] at hwalk
  suffices hend : stepsBack step count text.length = left.length by
    have hdrop : text.drop left.length = last := by
      conv_lhs => rw [heq]
      exact List.drop_left
    rw [hend, hdrop]
    exact ⟨left, heq, hleft, hlast, hcodes⟩
  by_cases hmany : count ≤ codePoints text
  · rw [min_eq_left hmany] at hwalk
    exact hwalk
  · -- the walk is at the start before its last step
    rw [min_eq_right (le_of_not_ge hmany)] at hwalk hcodes
    have hnone : codePoints left = 0 := by
      have hsum : codePoints text = codePoints left + codePoints last := by
        rw [← codePoints_append, ← heq]
      omega
    rw [hleft.codePoints_eq_zero] at hnone
    rw [hnone, List.length_nil] at hwalk ⊢
    rw [← Nat.add_sub_cancel' (le_of_not_ge hmany), stepsBack_add, hwalk, stepsBack_zero]

end Walk

/-- **The last code points of a text are one suffix.** -/
theorem ValidUtf8.eq_of_codePoints {front front' last last' : Bytes}
    (h : front ++ last = front' ++ last') (hlast : ValidUtf8 last) (hlast' : ValidUtf8 last')
    (hcodes : codePoints last = codePoints last') : last = last' := by
  have hhead : ∀ {text : Bytes}, ValidUtf8 text → ∀ c ∈ text.head?, isTrailing c = false := by
    intro text htext c hc
    cases text with
    | nil => cases hc
    | cons first rest =>
      rw [List.head?_cons, Option.mem_some_iff] at hc
      exact hc ▸ htext.not_isTrailing_head
  -- the longer of two suffixes has a code point more, if it is longer
  have hlonger : ∀ {x more rest : Bytes}, x = more ++ rest → ValidUtf8 x → ValidUtf8 rest →
      codePoints x = codePoints rest → more = [] := by
    rintro x more rest rfl hx hrest heq
    rw [codePoints_append, Nat.add_eq_right] at heq
    exact (hx.cut (hhead hrest)).1.codePoints_eq_zero.mp heq
  obtain ⟨more, -, heq⟩ | ⟨more, -, heq⟩ := List.append_eq_append_iff.mp h
  · rw [heq, hlonger heq hlast hlast' hcodes, List.nil_append]
  · rw [heq, hlonger heq hlast' hlast hcodes.symm, List.nil_append]

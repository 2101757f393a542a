import Mathlib.Data.List.Infix
import Mathlib.Tactic

/-!
# The first occurrence of a word

`findText` is `std::string::find`: the first place from a given one on at which a
word stands. What follows the word does not count (`findText_append_word`), and
neither does what precedes the place (`findText_append_length`).
-/

variable {α : Type} [DecidableEq α]

/-- The first place from `pos` on at which a word stands in a text. -/
def findText (text word : List α) (pos : ℕ) : Option ℕ :=
  (List.range (text.length + 1)).find?
    (fun i => decide (pos ≤ i) && word.isPrefixOf (text.drop i))

/-- **The first place** is one at which the word stands, and none before it is. -/
theorem findText_eq_some_iff {text word : List α} {pos i : ℕ} :
    findText text word pos = some i ↔
      pos ≤ i ∧ i ≤ text.length ∧ word <+: text.drop i
        ∧ ∀ j, pos ≤ j → j < i → ¬ word <+: text.drop j := by
  unfold findText
  rw [List.find?_range_eq_some]
  simp only [Bool.and_eq_true, decide_eq_true_eq, List.isPrefixOf_iff_prefix, List.mem_range,
    Order.lt_add_one_iff, Bool.not_eq_eq_eq_not, Bool.not_true, Bool.and_eq_false_iff,
    decide_eq_false_iff_not]
  constructor
  · rintro ⟨⟨hpos, hstands⟩, hle, hbefore⟩
    refine ⟨hpos, hle, hstands, fun j hj hlt hprefix => ?_⟩
    obtain hsmall | hnot := hbefore j hlt
    · exact hsmall hj
    · rw [List.isPrefixOf_iff_prefix.mpr hprefix] at hnot
      cases hnot
  · rintro ⟨hpos, hle, hstands, hbefore⟩
    refine ⟨⟨hpos, hstands⟩, hle, fun j hlt => ?_⟩
    by_cases hj : pos ≤ j
    · refine Or.inr ?_
      rw [← Bool.not_eq_true, List.isPrefixOf_iff_prefix]
      exact hbefore j hj hlt
    · exact Or.inl hj

/-- A word is found unless it stands nowhere. -/
theorem findText_ne_none {text word : List α} {pos i : ℕ} (hpos : pos ≤ i) (hle : i ≤ text.length)
    (h : word <+: text.drop i) : findText text word pos ≠ none := by
  unfold findText
  rw [Ne, List.find?_eq_none]
  intro hnone
  refine hnone i (List.mem_range.mpr (by omega)) ?_
  rw [decide_eq_true hpos, Bool.true_and, List.isPrefixOf_iff_prefix]
  exact h

/-- **What precedes the place does not count.** -/
theorem findText_append_length (front text word : List α) {i : ℕ} :
    findText (front ++ text) word front.length = some (front.length + i)
      ↔ findText text word 0 = some i := by
  have hdrop : ∀ k, (front ++ text).drop (front.length + k) = text.drop k := fun k => by
    rw [← List.drop_drop, List.drop_left]
  rw [findText_eq_some_iff, findText_eq_some_iff, hdrop, List.length_append]
  constructor
  · rintro ⟨-, hle, hstands, hbefore⟩
    refine ⟨Nat.zero_le _, by omega, hstands, fun j _ hj hprefix => ?_⟩
    refine hbefore (front.length + j) (by omega) (by omega) ?_
    rw [hdrop]
    exact hprefix
  · rintro ⟨-, hle, hstands, hbefore⟩
    refine ⟨by omega, by omega, hstands, fun j hj hlt hprefix => ?_⟩
    refine hbefore (j - front.length) (Nat.zero_le _) (by omega) ?_
    rw [← hdrop, Nat.add_sub_cancel' hj]
    exact hprefix

/-- **What follows the word does not count.** -/
theorem findText_append_word (gap word rest : List α) :
    findText (gap ++ (word ++ rest)) word 0 = some gap.length
      ↔ findText (gap ++ word) word 0 = some gap.length := by
  -- an occurrence that begins in the gap ends before the word does
  have hstands : ∀ j < gap.length,
      word <+: (gap ++ (word ++ rest)).drop j ↔ word <+: (gap ++ word).drop j := by
    intro j hj
    have hassoc : (gap ++ (word ++ rest)).drop j = (gap ++ word).drop j ++ rest := by
      rw [← List.append_assoc, List.drop_append_of_le_length (by rw [List.length_append]; omega)]
    rw [hassoc]
    refine ⟨fun h => ?_, fun h => h.trans (List.prefix_append _ _)⟩
    refine List.prefix_of_prefix_length_le h (List.prefix_append _ _) ?_
    rw [List.length_drop, List.length_append]
    omega
  rw [findText_eq_some_iff, findText_eq_some_iff, List.drop_left, List.drop_left]
  constructor
  · rintro ⟨-, -, -, hbefore⟩
    refine ⟨Nat.zero_le _, by simp, List.prefix_rfl, fun j hj hlt => ?_⟩
    rw [← hstands j hlt]
    exact hbefore j hj hlt
  · rintro ⟨-, -, -, hbefore⟩
    refine ⟨Nat.zero_le _, by simp, List.prefix_append _ _, fun j hj hlt => ?_⟩
    rw [hstands j hlt]
    exact hbefore j hj hlt

/-- **A text is cut at what is found**: a gap in which the word does not begin, the
word, and the rest. -/
theorem exists_of_findText {text word : List α} {i : ℕ} (h : findText text word 0 = some i) :
    ∃ gap rest, text = gap ++ (word ++ rest) ∧ gap.length = i
      ∧ findText (gap ++ word) word 0 = some gap.length := by
  obtain ⟨-, hle, ⟨rest, hrest⟩, -⟩ := findText_eq_some_iff.mp h
  have hlength : (text.take i).length = i := List.length_take_of_le hle
  have htext : text = text.take i ++ (word ++ rest) := by
    rw [hrest, List.take_append_drop]
  refine ⟨text.take i, rest, htext, hlength, ?_⟩
  rw [← findText_append_word _ _ rest, ← htext, hlength]
  exact h

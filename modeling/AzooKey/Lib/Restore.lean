import Mathlib

/-!
# Lists with notes on how to restore them

A list whose elements have keys, of which the first of a key may have been
changed or added. A note for a key says what was there: an element, or nothing.
`editFirst` changes the first element of a key, and `restore` puts every note
into effect.

What matters of a note is that acting on it and then dropping it comes to the
same as keeping it (`restore_editFirst`). From this one fact follow the rules
for a change that is noted (`restore_note`, `restore_edit_noted`). An element
that is appended behind a noted one is not touched (`restore_append`).
-/

namespace List

variable {α β : Type*} [DecidableEq β] (key : α → β)

/-- Change the first element of a key, or take it away. -/
def editFirst (k : β) (f : α → Option α) : List α → List α
  | [] => []
  | a :: l => if key a = k then (f a).toList ++ l else a :: editFirst k f l

/-- **The list before the changes that are noted.** -/
def restore (notes : β → Option (Option α)) : List α → List α
  | [] => []
  | a :: l =>
    match notes (key a) with
    | none => a :: restore notes l
    | some original => original.toList ++ restore (Function.update notes (key a) none) l

variable {key}

/-- An element whose key has no note stays. -/
theorem restore_cons_none {notes : β → Option (Option α)} {a : α} (h : notes (key a) = none)
    (l : List α) : restore key notes (a :: l) = a :: restore key notes l := by
  rw [restore, h]

/-- An element whose key has a note is replaced by what the note says. -/
theorem restore_cons_some {notes : β → Option (Option α)} {a : α} {original : Option α}
    (h : notes (key a) = some original) (l : List α) :
    restore key notes (a :: l)
      = original.toList ++ restore key (Function.update notes (key a) none) l := by
  rw [restore, h]

/-- Without notes the list is as it is. -/
theorem restore_of_none {notes : β → Option (Option α)} (h : ∀ k, notes k = none) (l : List α) :
    restore key notes l = l := by
  induction l with
  | nil => rfl
  | cons a l ih => rw [restore_cons_none (h _), ih]

/-- **Acting on a note and dropping it comes to the same as keeping it.** -/
theorem restore_editFirst {notes : β → Option (Option α)} {k : β} {original : Option α}
    (h : notes k = some original) (hkey : ∀ x ∈ original, key x = k) (l : List α) :
    restore key (Function.update notes k none) (editFirst key k (fun _ => original) l)
      = restore key notes l := by
  induction l generalizing notes with
  | nil => rfl
  | cons a l ih =>
    by_cases ha : key a = k
    · rw [editFirst, if_pos ha, restore_cons_some (by rw [ha]; exact h), ha]
      cases original with
      | none => rfl
      | some x =>
        show restore key (Function.update notes k none) (x :: l) = _
        rw [restore_cons_none (by rw [hkey x rfl, Function.update_self])]
        rfl
    · rw [editFirst, if_neg ha]
      have hsame : Function.update notes k none (key a) = notes (key a) :=
        Function.update_of_ne ha _ _
      cases hnote : notes (key a) with
      | none => rw [restore_cons_none (hsame.trans hnote), restore_cons_none hnote, ih h]
      | some other =>
        rw [restore_cons_some (hsame.trans hnote), restore_cons_some hnote,
          Function.update_comm (Ne.symm ha)]
        rw [ih (by rw [Function.update_of_ne (Ne.symm ha), h])]

/-- Two changes of the first element of a key. -/
theorem editFirst_editFirst {k : β} {f g : α → Option α} {l : List α}
    (h : ∀ a ∈ l, key a = k → ∃ b, f a = some b ∧ key b = k) :
    editFirst key k g (editFirst key k f l) = editFirst key k (fun a => (f a).bind g) l := by
  induction l with
  | nil => rfl
  | cons a l ih =>
    by_cases ha : key a = k
    · obtain ⟨b, hb, hbk⟩ := h a mem_cons_self ha
      rw [editFirst, if_pos ha, editFirst, if_pos ha, hb]
      show editFirst key k g (b :: l) = _
      rw [editFirst, if_pos hbk]
      rfl
    · rw [editFirst, if_neg ha, editFirst, if_neg ha, editFirst, if_neg ha,
        ih (fun b hb => h b (mem_cons_of_mem _ hb))]

/-- The first element of a key put back where it was. -/
theorem editFirst_find {k : β} {l : List α} {found : α}
    (h : l.find? (fun a => key a = k) = some found) :
    editFirst key k (fun _ => some found) l = l := by
  induction l with
  | nil => cases h
  | cons a l ih =>
    by_cases ha : key a = k
    · rw [find?_cons_of_pos (by simpa using ha)] at h
      rw [editFirst, if_pos ha, Option.some.inj h]
      rfl
    · rw [find?_cons_of_neg (by simpa using ha)] at h
      rw [editFirst, if_neg ha, ih h]

/-- **A change that is noted is restored.** -/
theorem restore_note {notes : β → Option (Option α)} {k : β} {f : α → α} {l : List α} {found : α}
    (hnone : notes k = none) (hfound : l.find? (fun a => key a = k) = some found)
    (hf : ∀ a, key (f a) = key a) :
    restore key (Function.update notes k (some (some found)))
      (editFirst key k (fun a => some (f a)) l) = restore key notes l := by
  have hkey : key found = k := by simpa using find?_some hfound
  rw [← restore_editFirst (Function.update_self k _ notes)
    (fun x hx => by rw [← Option.some.inj hx, hkey]), Function.update_idem,
    Function.update_eq_self_iff.mpr hnone.symm,
    editFirst_editFirst (fun a _ ha => ⟨f a, rfl, (hf a).trans ha⟩)]
  exact congrArg (restore key notes) (editFirst_find hfound)

/-- **A change of an element that is noted already is restored.** -/
theorem restore_edit_noted {notes : β → Option (Option α)} {k : β} {original : Option α}
    (h : notes k = some original) (hkey : ∀ x ∈ original, key x = k) {f : α → α}
    (hf : ∀ a, key (f a) = key a) (l : List α) :
    restore key notes (editFirst key k (fun a => some (f a)) l) = restore key notes l := by
  rw [← restore_editFirst h hkey, ← restore_editFirst h hkey l,
    editFirst_editFirst (fun a _ ha => ⟨f a, rfl, (hf a).trans ha⟩)]
  rfl

/-- **An element that is noted as added is taken away.** -/
theorem restore_added {notes : β → Option (Option α)} {a : α} (h : notes (key a) = none)
    (l : List α) :
    restore key (Function.update notes (key a) (some none)) (a :: l) = restore key notes l := by
  rw [restore_cons_some (Function.update_self _ _ _), Function.update_idem,
    Function.update_eq_self_iff.mpr h.symm]
  rfl

/-- **An element that is appended stays**, if the first of its key is noted at
most. -/
theorem restore_append {notes : β → Option (Option α)} {a : α} {l : List α}
    (h : notes (key a) ≠ none → ∃ b ∈ l, key b = key a) :
    restore key notes (l ++ [a]) = restore key notes l ++ [a] := by
  induction l generalizing notes with
  | nil =>
    have hnone : notes (key a) = none := by
      by_contra hne
      obtain ⟨b, hb, -⟩ := h hne
      exact not_mem_nil hb
    rw [nil_append, restore_cons_none hnone]
    rfl
  | cons b l ih =>
    rw [cons_append]
    cases hnote : notes (key b) with
    | none =>
      rw [restore_cons_none hnote, restore_cons_none hnote, ih, cons_append]
      intro hne
      obtain ⟨c, hc, hca⟩ := h hne
      rcases mem_cons.mp hc with rfl | hc
      · rw [hca] at hnote
        exact absurd hnote hne
      · exact ⟨c, hc, hca⟩
    | some original =>
      rw [restore_cons_some hnote, restore_cons_some hnote, ih, append_assoc]
      intro hne
      have hba : key a ≠ key b := by
        rintro heq
        rw [heq, Function.update_self] at hne
        exact hne rfl
      rw [Function.update_of_ne hba] at hne
      obtain ⟨c, hc, hca⟩ := h hne
      rcases mem_cons.mp hc with rfl | hc
      · exact absurd hca.symm hba
      · exact ⟨c, hc, hca⟩

/-! ## The elements of a key -/

/-- **The elements of a key without a note stay**, when the notes are about their
own keys. -/
theorem filter_restore {notes : β → Option (Option α)} {k : β} (hnone : notes k = none)
    (hkeys : ∀ j x, notes j = some (some x) → key x = j) (l : List α) :
    (restore key notes l).filter (fun a => key a = k) = l.filter (fun a => key a = k) := by
  induction l generalizing notes with
  | nil => rfl
  | cons a l ih =>
    cases hnote : notes (key a) with
    | none =>
      rw [restore_cons_none hnote, filter_cons, filter_cons, ih hnone hkeys]
    | some original =>
      have ha : key a ≠ k := by
        rintro heq
        rw [heq, hnone] at hnote
        cases hnote
      have hdrop : original.toList.filter (fun b => key b = k) = [] := by
        refine filter_eq_nil_iff.mpr (fun x hx => ?_)
        obtain rfl := Option.mem_toList.mp hx
        rw [hkeys _ x hnote]
        simpa using ha
      have hnotes : ∀ j x, Function.update notes (key a) none j = some (some x) → key x = j := by
        intro j x hj
        by_cases hja : j = key a
        · rw [hja, Function.update_self] at hj
          cases hj
        · exact hkeys j x (by rwa [Function.update_of_ne hja] at hj)
      rw [restore_cons_some hnote, filter_append, hdrop, nil_append,
        ih (by rw [Function.update_of_ne (Ne.symm ha), hnone]) hnotes,
        filter_cons_of_neg (by simpa using ha)]

/-- A key that is there after restoring was there before. -/
theorem exists_of_mem_restore {notes : β → Option (Option α)}
    (hkeys : ∀ j x, notes j = some (some x) → key x = j) {l : List α} {a : α}
    (h : a ∈ restore key notes l) : ∃ b ∈ l, key b = key a := by
  induction l generalizing notes with
  | nil => exact absurd h not_mem_nil
  | cons b l ih =>
    have hcons : (∃ c ∈ l, key c = key a) → ∃ c ∈ b :: l, key c = key a :=
      fun ⟨c, hc, hca⟩ => ⟨c, mem_cons_of_mem _ hc, hca⟩
    cases hnote : notes (key b) with
    | none =>
      rw [restore_cons_none hnote] at h
      rcases mem_cons.mp h with rfl | h
      · exact ⟨a, mem_cons_self, rfl⟩
      · exact hcons (ih hkeys h)
    | some original =>
      rw [restore_cons_some hnote] at h
      rcases mem_append.mp h with h | h
      · obtain rfl := Option.mem_toList.mp h
        exact ⟨b, mem_cons_self, (hkeys _ a hnote).symm⟩
      · refine hcons (ih (fun j x hj => ?_) h)
        by_cases hjb : j = key b
        · rw [hjb, Function.update_self] at hj
          cases hj
        · exact hkeys j x (by rwa [Function.update_of_ne hjb] at hj)

/-- The elements of other keys stay. -/
theorem filter_editFirst {k : β} {f : α → Option α} {l : List α}
    (h : ∀ a ∈ l, key a = k → ∀ b ∈ f a, key b = k) {p : α → Bool}
    (hp : ∀ a, key a = k → p a = false) : (editFirst key k f l).filter p = l.filter p := by
  induction l with
  | nil => rfl
  | cons a l ih =>
    by_cases ha : key a = k
    · have hdrop : (f a).toList.filter p = [] := by
        refine filter_eq_nil_iff.mpr (fun b hb => ?_)
        rw [hp b (h a mem_cons_self ha b (Option.mem_toList.mp hb))]
        exact Bool.false_ne_true
      rw [editFirst, if_pos ha, filter_append, hdrop, nil_append,
        filter_cons_of_neg (by rw [hp a ha]; exact Bool.false_ne_true)]
    · rw [editFirst, if_neg ha, filter_cons, filter_cons,
        ih (fun b hb => h b (mem_cons_of_mem _ hb))]

/-- Other keys are there as before. -/
theorem exists_mem_editFirst {k j : β} (hj : j ≠ k) {f : α → Option α} {l : List α}
    (h : ∀ a ∈ l, key a = k → ∀ b ∈ f a, key b = k) :
    (∃ a ∈ editFirst key k f l, key a = j) ↔ ∃ a ∈ l, key a = j := by
  have hfilter := filter_editFirst h (p := fun a => decide (key a = j))
    (fun a ha => decide_eq_false (fun haj => hj (haj.symm.trans ha)))
  have hmem : ∀ l : List α, (∃ a ∈ l, key a = j) ↔ l.filter (fun a => decide (key a = j)) ≠ [] := by
    intro l
    rw [ne_eq, filter_eq_nil_iff]
    simp
  rw [hmem, hmem, hfilter]

end List

import Mathlib.Data.List.Sort

/-!
# Sorting a part of a list

Sorting is stable, and so what is sorted and then filtered is what is filtered
and then sorted. The relation has to be transitive and total on the elements of
the list only. What is left of the first elements is known from one element
more, if at most one is taken out.
-/

namespace AzooKey

variable {α : Type} {r : α → α → Prop} [DecidableRel r] {p : α → Bool}

/-- An element that is taken out is not missed when it has been inserted. -/
theorem filter_orderedInsert {a : α} {l : List α} (hsorted : l.Pairwise r)
    (htrans : ∀ b ∈ l, ∀ c ∈ l, r a b → r b c → r a c) :
    (l.orderedInsert r a).filter p
      = if p a then (l.filter p).orderedInsert r a else l.filter p := by
  induction l with
  | nil =>
    rw [List.orderedInsert, List.filter_cons, List.filter_nil]
    rfl
  | cons b l ih =>
    obtain ⟨hb, hl⟩ := List.pairwise_cons.mp hsorted
    have ih := ih hl (fun x hx y hy => htrans x (List.mem_cons_of_mem _ hx) y
      (List.mem_cons_of_mem _ hy))
    rw [List.orderedInsert]
    by_cases hab : r a b
    · rw [if_pos hab, List.filter_cons]
      by_cases ha : p a = true
      · rw [if_pos ha, if_pos ha]
        -- the element is before all others, and so before those that are left
        have hfirst : ∀ c ∈ (b :: l).filter p, r a c := by
          intro c hc
          rcases List.mem_cons.mp (List.mem_of_mem_filter hc) with rfl | hc
          · exact hab
          · exact htrans b List.mem_cons_self c (List.mem_cons_of_mem _ hc) hab (hb c hc)
        cases hrest : (b :: l).filter p with
        | nil => rfl
        | cons c rest =>
          rw [List.orderedInsert, if_pos (hfirst c (by rw [hrest]; exact List.mem_cons_self))]
      · rw [if_neg ha, if_neg ha]
    · rw [if_neg hab, List.filter_cons, ih, List.filter_cons]
      by_cases ha : p a = true
      · rw [if_pos ha, if_pos ha]
        by_cases hpb : p b = true
        · rw [if_pos hpb, if_pos hpb, List.orderedInsert, if_neg hab]
        · rw [if_neg hpb, if_neg hpb]
      · rw [if_neg ha, if_neg ha]

/-- A list is sorted by a relation that is total and transitive on it. -/
theorem pairwise_insertionSort_of_mem {l : List α} (htotal : ∀ a ∈ l, ∀ b ∈ l, r a b ∨ r b a)
    (htrans : ∀ a ∈ l, ∀ b ∈ l, ∀ c ∈ l, r a b → r b c → r a c) :
    (l.insertionSort r).Pairwise r := by
  have hinsert : ∀ (a : α) (m : List α), m.Pairwise r → (∀ b ∈ m, r a b ∨ r b a) →
      (∀ b ∈ m, ∀ c ∈ m, r a b → r b c → r a c) → (m.orderedInsert r a).Pairwise r := by
    intro a m hm hta htr
    induction m with
    | nil => exact List.pairwise_singleton _ _
    | cons b m ih =>
      obtain ⟨hb, hm⟩ := List.pairwise_cons.mp hm
      rw [List.orderedInsert]
      by_cases hab : r a b
      · rw [if_pos hab]
        refine List.pairwise_cons.mpr ⟨fun c hc => ?_, List.pairwise_cons.mpr ⟨hb, hm⟩⟩
        rcases List.mem_cons.mp hc with rfl | hc
        · exact hab
        · exact htr b List.mem_cons_self c (List.mem_cons_of_mem _ hc) hab (hb c hc)
      · rw [if_neg hab]
        refine List.pairwise_cons.mpr ⟨fun c hc => ?_, ih hm
          (fun x hx => hta x (List.mem_cons_of_mem _ hx))
          (fun x hx y hy => htr x (List.mem_cons_of_mem _ hx) y (List.mem_cons_of_mem _ hy))⟩
        rcases List.mem_cons.mp ((List.perm_orderedInsert r a m).mem_iff.mp hc) with rfl | hc
        · exact (hta b List.mem_cons_self).resolve_left hab
        · exact hb c hc
  induction l with
  | nil => exact .nil
  | cons a l ih =>
    have hmem : ∀ b ∈ l.insertionSort r, b ∈ l := fun b hb => (List.mem_insertionSort r).mp hb
    rw [List.insertionSort_cons]
    refine hinsert a _ (ih (fun x hx y hy => htotal x (List.mem_cons_of_mem _ hx) y
      (List.mem_cons_of_mem _ hy)) (fun x hx y hy z hz => htrans x (List.mem_cons_of_mem _ hx) y
        (List.mem_cons_of_mem _ hy) z (List.mem_cons_of_mem _ hz))) ?_ ?_
    · exact fun b hb => htotal a List.mem_cons_self b (List.mem_cons_of_mem _ (hmem b hb))
    · exact fun b hb c hc => htrans a List.mem_cons_self b (List.mem_cons_of_mem _ (hmem b hb)) c
        (List.mem_cons_of_mem _ (hmem c hc))

/-- **What is sorted and then filtered** is what is filtered and then sorted. -/
theorem filter_insertionSort {l : List α} (htotal : ∀ a ∈ l, ∀ b ∈ l, r a b ∨ r b a)
    (htrans : ∀ a ∈ l, ∀ b ∈ l, ∀ c ∈ l, r a b → r b c → r a c) :
    (l.insertionSort r).filter p = (l.filter p).insertionSort r := by
  induction l with
  | nil => rfl
  | cons a l ih =>
    have htotal' : ∀ x ∈ l, ∀ y ∈ l, r x y ∨ r y x := fun x hx y hy =>
      htotal x (List.mem_cons_of_mem _ hx) y (List.mem_cons_of_mem _ hy)
    have htrans' : ∀ x ∈ l, ∀ y ∈ l, ∀ z ∈ l, r x y → r y z → r x z := fun x hx y hy z hz =>
      htrans x (List.mem_cons_of_mem _ hx) y (List.mem_cons_of_mem _ hy) z
        (List.mem_cons_of_mem _ hz)
    have hmem : ∀ b ∈ l.insertionSort r, b ∈ l := fun b hb => (List.mem_insertionSort r).mp hb
    rw [List.insertionSort_cons, filter_orderedInsert
      (pairwise_insertionSort_of_mem htotal' htrans') (fun b hb c hc => htrans a
        List.mem_cons_self b (List.mem_cons_of_mem _ (hmem b hb)) c
        (List.mem_cons_of_mem _ (hmem c hc))), ih htotal' htrans', List.filter_cons]
    by_cases ha : p a = true
    · rw [if_pos ha, if_pos ha, List.insertionSort_cons]
    · rw [if_neg ha, if_neg ha]

/-- **The first elements of what is left**, when at most one is taken out. -/
theorem take_filter {l : List α} (h : (l.filter (fun a => !p a)).length ≤ 1) (n : ℕ) :
    (l.filter p).take n = ((l.take (n + 1)).filter p).take n := by
  induction l generalizing n with
  | nil => rfl
  | cons a l ih =>
    cases n with
    | zero => rw [List.take_zero, List.take_zero]
    | succ n =>
      rw [List.take_succ_cons, List.filter_cons, List.filter_cons]
      rw [List.filter_cons] at h
      by_cases ha : p a = true
      · rw [if_pos ha, if_pos ha, List.take_succ_cons, List.take_succ_cons]
        rw [ha] at h
        rw [ih h]
      · -- no other element is taken out
        rw [if_neg ha, if_neg ha]
        rw [Bool.not_eq_true] at ha
        rw [ha, Bool.not_false, if_pos rfl, List.length_cons] at h
        have hnone : l.filter (fun a => !p a) = [] :=
          List.eq_nil_of_length_eq_zero (by omega)
        have hall : ∀ b ∈ l, p b = true := by
          intro b hb
          have hnot := List.filter_eq_nil_iff.mp hnone b hb
          simpa using hnot
        rw [List.filter_eq_self.mpr hall,
          List.filter_eq_self.mpr (fun b hb => hall b (List.mem_of_mem_take hb)), List.take_take,
          min_self]

end AzooKey

import Mathlib.Data.List.Infix

/-!
# Texts with ranges replaced

`Replaced kept range marker` relates a text to what is left of it when some of its ranges
are replaced by a marker, and says what is kept. The characters at the two ends of a
marker are bars: a word without bars does not reach into a marker, so that one that is
not inside the marker stands in the result only where it stood in the text and has been
kept (`Replaced.occurrence`). A replacement therefore creates no occurrence of such a
word, and a scan that keeps no occurrence of its own leaves none. Both are stated for a
trigger, which may look at what follows the word as well (`Solid`, `Free.of_replaced`,
`free_of_kept`).
-/

variable {α : Type*}

/-- A text with some of its ranges replaced by a marker. From each place that is kept on,
the text is one of `kept`; each range, with the text behind it, is one of `range`. -/
inductive Replaced (kept : List α → Prop) (range : List α → List α → Prop) (marker : List α) :
    List α → List α → Prop
  | nil : Replaced kept range marker [] []
  | keep {c : α} {t s : List α} : kept (c :: t) → Replaced kept range marker t s →
      Replaced kept range marker (c :: t) (c :: s)
  | replace {r t s : List α} : range r t → Replaced kept range marker t s →
      Replaced kept range marker (r ++ t) (marker ++ s)

/-- A marker begins and ends with a bar. -/
def IsMarker (bar : α → Prop) (marker : List α) : Prop :=
  ∃ x middle y, marker = x :: (middle ++ [y]) ∧ bar x ∧ bar y

namespace Replaced

variable {kept : List α → Prop} {range : List α → List α → Prop} {marker : List α}
  {bar : α → Prop}

/-- What is kept in front of a text with ranges replaced. -/
theorem keep_append {gap t s : List α}
    (hgap : ∀ front rest, gap = front ++ rest → rest ≠ [] → kept (rest ++ t))
    (h : Replaced kept range marker t s) : Replaced kept range marker (gap ++ t) (gap ++ s) := by
  induction gap with
  | nil => exact h
  | cons c gap ih =>
    refine .keep (hgap [] (c :: gap) rfl (List.cons_ne_nil _ _)) (ih fun front rest heq hne => ?_)
    exact hgap (c :: front) rest (by rw [heq, List.cons_append]) hne

/-- A text of which everything is kept. -/
theorem rfl_of_kept {t : List α}
    (h : ∀ front rest, t = front ++ rest → rest ≠ [] → kept rest) :
    Replaced kept range marker t t := by
  have hall := @keep_append _ kept range marker t [] []
    (fun front rest heq hne => (List.append_nil rest).symm ▸ h front rest heq hne) .nil
  rwa [List.append_nil] at hall

/-- **A word without bars** at the head of the result stands at the head of the text. -/
theorem append_left (hmarker : IsMarker bar marker) {t a b : List α} (hbar : ∀ x ∈ a, ¬bar x)
    (h : Replaced kept range marker t (a ++ b)) :
    ∃ t', t = a ++ t' ∧ Replaced kept range marker t' b := by
  induction a generalizing t with
  | nil => exact ⟨t, rfl, h⟩
  | cons x a ih =>
    obtain ⟨hx, ha⟩ := List.forall_mem_cons.mp hbar
    generalize hs : x :: a ++ b = s at h
    cases h with
    | nil => cases hs
    | keep _ hrest =>
      obtain ⟨rfl, rfl⟩ := List.cons.inj hs
      obtain ⟨t', rfl, htail⟩ := ih ha hrest
      exact ⟨t', rfl, htail⟩
    | replace _ _ =>
      obtain ⟨y, middle, z, rfl, hy, -⟩ := hmarker
      obtain ⟨rfl, -⟩ := List.cons.inj hs
      exact absurd hy hx

/-- What stands at the head of the result stands at the head of the text, or a range
does. -/
theorem head_eq {t s : List α} {y : α} (h : Replaced kept range marker t (y :: s)) :
    (∃ t', t = y :: t') ∨ ∃ r t', t = r ++ t' ∧ range r t' := by
  generalize hs : y :: s = s' at h
  cases h with
  | nil => cases hs
  | keep _ _ =>
    obtain ⟨rfl, -⟩ := List.cons.inj hs
    exact .inl ⟨_, rfl⟩
  | replace hrange _ => exact .inr ⟨_, _, rfl, hrange⟩

/-- **An occurrence in the result was kept.** -/
theorem occurrence (hmarker : IsMarker bar marker) {t s p a b : List α} (hne : a ≠ [])
    (hbar : ∀ x ∈ a, ¬bar x) (hnot : ¬a <:+: marker) (h : Replaced kept range marker t s)
    (hs : s = p ++ (a ++ b)) :
    ∃ q t', t = q ++ (a ++ t') ∧ kept (a ++ t') ∧ Replaced kept range marker t' b := by
  induction h generalizing p with
  | nil => exact absurd (List.append_eq_nil_iff.mp (List.append_eq_nil_iff.mp hs.symm).2).1 hne
  | @keep c t s hkept hrest ih =>
    cases p with
    | nil =>
      rw [List.nil_append] at hs
      obtain ⟨t', heq, htail⟩ := append_left hmarker hbar (hs ▸ Replaced.keep hkept hrest)
      exact ⟨[], t', heq, heq ▸ hkept, htail⟩
    | cons x p =>
      obtain ⟨q, t', rfl, hkept, htail⟩ := ih (List.cons.inj hs).2
      exact ⟨c :: q, t', rfl, hkept, htail⟩
  | @replace r t s _ _ ih =>
    rcases List.append_eq_append_iff.mp hs with ⟨p', rfl, hrest⟩ | ⟨inside, hinside, hrest⟩
    · -- behind the marker
      obtain ⟨q, t', rfl, hkept, htail⟩ := ih hrest
      exact ⟨r ++ q, t', (List.append_assoc ..).symm, hkept, htail⟩
    · -- from inside the marker: the word would have to be there as a whole, or to reach
      -- the bar at its end
      rcases List.append_eq_append_iff.mp hrest with ⟨beyond, rfl, -⟩ | ⟨behind, rfl, hbehind⟩
      · exact absurd ⟨p, beyond, by rw [hinside, List.append_assoc]⟩ hnot
      · rcases List.eq_nil_or_concat inside with rfl | ⟨inside, last, rfl⟩
        · obtain ⟨q, t', rfl, hkept, htail⟩ := ih (p := []) hbehind
          exact ⟨r ++ q, t', (List.append_assoc ..).symm, hkept, htail⟩
        · obtain ⟨x, middle, y, heq, -, hy⟩ := hmarker
          rw [hinside, List.concat_eq_append, ← List.append_assoc, ← List.cons_append] at heq
          have hlast := List.singleton_inj.mp (List.append_inj' heq rfl).2
          exact absurd hy (hbar y (by simp [hlast]))

/-- A text with no range to replace. -/
theorem eq_of_not_range {t s : List α} (h : Replaced kept range marker t s)
    (hnone : ∀ front r rest, t = front ++ (r ++ rest) → ¬range r rest) : s = t := by
  induction h with
  | nil => rfl
  | @keep c t s _ _ ih =>
    rw [ih fun front r rest heq => hnone (c :: front) r rest (by rw [heq, List.cons_append])]
  | @replace r t s hrange _ _ => exact absurd hrange (hnone [] r t rfl)

end Replaced

/-! ## Triggers -/

/-- No place of a text has the trigger. -/
def Free (trigger : List α → Prop) (s : List α) : Prop :=
  ∀ front u, s = front ++ u → ¬trigger u

/-- A trigger is solid against a kind of replacement when it is a word without bars that is
not inside the marker, and what it sees behind the word is seen in the text as well. -/
def Solid (bar : α → Prop) (trigger : List α → Prop) (range : List α → List α → Prop)
    (marker : List α) : Prop :=
  ∀ u, trigger u → ∃ a b, u = a ++ b ∧ a ≠ [] ∧ (∀ x ∈ a, ¬bar x) ∧ ¬a <:+: marker
    ∧ ∀ kept t', Replaced kept range marker t' b → trigger (a ++ t')

section Solid

variable {bar : α → Prop} {trigger : List α → Prop} {range : List α → List α → Prop}
  {marker t s : List α}

/-- A trigger in the result was one in the text, at a place that was kept. -/
theorem Solid.occurrence {kept : List α → Prop} (hsolid : Solid bar trigger range marker)
    (hmarker : IsMarker bar marker) (h : Replaced kept range marker t s) {p u : List α}
    (hs : s = p ++ u) (htrigger : trigger u) :
    ∃ q v, t = q ++ v ∧ kept v ∧ trigger v := by
  obtain ⟨a, b, rfl, hne, hbar, hnot, hsame⟩ := hsolid u htrigger
  obtain ⟨q, t', rfl, hkept, htail⟩ := h.occurrence hmarker hne hbar hnot hs
  exact ⟨q, a ++ t', rfl, hkept, hsame kept t' htail⟩

/-- **A replacement brings no trigger back.** -/
theorem Free.of_replaced {kept : List α → Prop} (hfree : Free trigger t)
    (hsolid : Solid bar trigger range marker) (hmarker : IsMarker bar marker)
    (h : Replaced kept range marker t s) : Free trigger s := by
  intro p u hs htrigger
  obtain ⟨q, v, ht, -, hv⟩ := hsolid.occurrence hmarker h hs htrigger
  exact hfree q v ht hv

/-- **A scan that keeps no trigger leaves none.** -/
theorem free_of_kept (hsolid : Solid bar trigger range marker) (hmarker : IsMarker bar marker)
    (h : Replaced (fun u => ¬trigger u) range marker t s) : Free trigger s := by
  intro p u hs htrigger
  obtain ⟨q, v, -, hkept, hv⟩ := hsolid.occurrence hmarker h hs htrigger
  exact hkept hv

end Solid

/-! ## Pass after pass -/

/-- A pass over a text looks for a trigger, and replaces ranges by a marker. -/
structure MarkerPass (α : Type*) where
  trigger : List α → Prop
  range : List α → List α → Prop
  marker : List α

/-- A pass replaces some of its ranges, and keeps nothing where there is its trigger. -/
def MarkerPass.Does (pass : MarkerPass α) (t s : List α) : Prop :=
  Replaced (fun u => ¬pass.trigger u) pass.range pass.marker t s

/-- One pass after the other. -/
inductive Passes : List (MarkerPass α) → List α → List α → Prop
  | nil {t : List α} : Passes [] t t
  | cons {pass : MarkerPass α} {passes : List (MarkerPass α)} {t u s : List α} :
      pass.Does t u → Passes passes u s → Passes (pass :: passes) t s

namespace Passes

variable {bar : α → Prop} {passes more : List (MarkerPass α)} {t u s : List α}

/-- Passes after passes. -/
theorem append (h : Passes passes t u) (hmore : Passes more u s) : Passes (passes ++ more) t s := by
  induction h with
  | nil => exact hmore
  | cons hdoes _ ih => exact .cons hdoes (ih hmore)

/-- What lies between passes and passes. -/
theorem of_append (h : Passes (passes ++ more) t s) : ∃ u, Passes passes t u ∧ Passes more u s := by
  induction passes generalizing t with
  | nil => exact ⟨t, .nil, h⟩
  | cons pass passes ih =>
    cases h with
    | cons hdoes hrest =>
      obtain ⟨u, hfirst, hlast⟩ := ih hrest
      exact ⟨u, .cons hdoes hfirst, hlast⟩

/-- A loop whose turns are passes. -/
theorem foldl {β : Type*} {run : List α → β → List α} {ps : β → List (MarkerPass α)} {l : List β}
    (hrun : ∀ x ∈ l, ∀ t, Passes (ps x) t (run t x)) (t : List α) :
    Passes (l.flatMap ps) t (l.foldl run t) := by
  induction l generalizing t with
  | nil => exact .nil
  | cons x l ih =>
    rw [List.flatMap_cons, List.foldl_cons]
    exact (hrun x List.mem_cons_self t).append
      (ih (fun y hy => hrun y (List.mem_cons_of_mem _ hy)) _)

/-- **No pass brings a trigger back** that is solid against it. -/
theorem free {trigger : List α → Prop}
    (hsolid : ∀ q ∈ passes, IsMarker bar q.marker ∧ Solid bar trigger q.range q.marker)
    (h : Passes passes t s) (hfree : Free trigger t) : Free trigger s := by
  induction h with
  | nil => exact hfree
  | cons hdoes _ ih =>
    obtain ⟨hmarker, hthis⟩ := hsolid _ List.mem_cons_self
    exact ih (fun q hq => hsolid q (List.mem_cons_of_mem _ hq))
      (hfree.of_replaced hthis hmarker hdoes)

/-- **What a pass has looked for is not there at the end.** -/
theorem free_of_mem {pass : MarkerPass α} (hmem : pass ∈ passes)
    (hsolid : ∀ q ∈ passes, IsMarker bar q.marker ∧ Solid bar pass.trigger q.range q.marker)
    (h : Passes passes t s) : Free pass.trigger s := by
  induction h with
  | nil => cases hmem
  | @cons first passes t u s hdoes hrest ih =>
    have hlater := fun q hq => hsolid q (List.mem_cons_of_mem first hq)
    rcases List.mem_cons.mp hmem with rfl | hmem
    · obtain ⟨hmarker, hthis⟩ := hsolid pass List.mem_cons_self
      exact hrest.free hlater (free_of_kept hthis hmarker hdoes)
    · exact ih hmem hlater

/-- **Passes leave a text as it is** when none of them finds its trigger. -/
theorem eq_of_free
    (hrange : ∀ q ∈ passes, ∀ r rest, q.range r rest → q.trigger (r ++ rest))
    (h : Passes passes t s) (hfree : ∀ q ∈ passes, Free q.trigger t) : s = t := by
  induction h with
  | nil => rfl
  | @cons pass passes t u s hdoes _ ih =>
    have hsame : u = t := hdoes.eq_of_not_range fun front r rest ht hthis =>
      hfree pass List.mem_cons_self front (r ++ rest) ht
        (hrange pass List.mem_cons_self r rest hthis)
    subst hsame
    exact ih (fun q hq => hrange q (List.mem_cons_of_mem _ hq))
      (fun q hq => hfree q (List.mem_cons_of_mem _ hq))

end Passes

import AzooKey.Core.Utf8Readers
import AzooKey.Lib.CodePoints

/-!
# The spellings of a reading

`ReadingAliases` and `NormalizeReading` of `core/src/DoubleArrayTrie.cpp`. The
first collects the spellings that sound like a reading with a worklist that gives
up at the ninth: what it finds is the class of the reading under the interchange
of one spelling for another at one place (`Interchange`), or the reading alone
(`readingAliases_spec`). The interchange is symmetric, so that the members of a
class have the same aliases. The second folds katakana to hiragana and full width
to ASCII, and folds nothing twice (`normalizeReading_idem`).
-/

namespace AzooKey.Core.Dictionary

/-! ## A worklist that gives up -/

namespace Found

variable {α : Type} [DecidableEq α]

/-- Nine different elements that a predicate holds of. -/
def Nine (P : List α → Prop) : Prop := ∃ l : List (List α), l.Nodup ∧ l.length = 9 ∧ ∀ x ∈ l, P x

/-- **What pushing one spelling does.** -/
theorem push_spec (found : Found α) (next : List α) (hnodup : found.spellings.Nodup) :
    (∃ found', found.push next = some found' ∧ found'.spellings.Nodup
      ∧ found.spellings <+: found'.spellings
      ∧ ∀ x, x ∈ found'.spellings ↔ x ∈ found.spellings ∨ x = next)
    ∨ found.push next = none ∧ Nine (fun x => x ∈ found.spellings ∨ x = next) := by
  unfold push
  by_cases hmem : next ∈ found.spellings
  · rw [if_pos hmem]
    refine Or.inl ⟨found, rfl, hnodup, List.prefix_rfl, fun x => ?_⟩
    exact ⟨Or.inl, fun hx => hx.elim id (fun heq => heq ▸ hmem)⟩
  · have hnew : (found.spellings ++ [next]).Nodup :=
      List.nodup_append.mpr ⟨hnodup, List.nodup_singleton _, fun a ha b hb heq =>
        hmem (List.mem_singleton.mp hb ▸ heq ▸ ha)⟩
    rw [if_neg hmem]
    by_cases hfull : found.spellings.length = 8
    · rw [dif_pos hfull]
      refine Or.inr ⟨rfl, found.spellings ++ [next], hnew, ?_, fun x hx => ?_⟩
      · rw [List.length_append, hfull]
        rfl
      · simpa using hx
    · rw [dif_neg hfull]
      exact Or.inl ⟨_, rfl, hnew, List.prefix_append _ _, fun x => by simp⟩

/-- **What pushing several does.** -/
theorem foldlM_push_spec (found : Found α) (list : List (List α)) (hnodup : found.spellings.Nodup) :
    (∃ found', list.foldlM push found = some found' ∧ found'.spellings.Nodup
      ∧ found.spellings <+: found'.spellings
      ∧ ∀ x, x ∈ found'.spellings ↔ x ∈ found.spellings ∨ x ∈ list)
    ∨ list.foldlM push found = none ∧ Nine (fun x => x ∈ found.spellings ∨ x ∈ list) := by
  induction list generalizing found with
  | nil => exact Or.inl ⟨found, rfl, hnodup, List.prefix_rfl, fun x => by simp⟩
  | cons next list ih =>
    rw [List.foldlM_cons]
    obtain ⟨found', hpush, hnodup', hgrows, hmem⟩ | ⟨hpush, l, hl, hnine, hall⟩ :=
      found.push_spec next hnodup
    · rw [hpush]
      show (∃ found'', list.foldlM push found' = some found'' ∧ _) ∨ list.foldlM push found' = none ∧ _
      obtain ⟨found'', hrun, hnodup'', hgrows', hmem'⟩ | ⟨hrun, l, hl, hnine, hall⟩ := ih found' hnodup'
      · refine Or.inl ⟨found'', hrun, hnodup'', hgrows.trans hgrows', fun x => ?_⟩
        rw [hmem', hmem, List.mem_cons, or_assoc]
      · refine Or.inr ⟨hrun, l, hl, hnine, fun x hx => ?_⟩
        obtain hx | hx := hall x hx
        · exact ((hmem x).mp hx).imp_right (fun heq => List.mem_cons.mpr (Or.inl heq))
        · exact Or.inr (List.mem_cons_of_mem _ hx)
    · rw [hpush]
      refine Or.inr ⟨rfl, l, hl, hnine, fun x hx => ?_⟩
      exact (hall x hx).imp_right (fun heq => List.mem_cons.mpr (Or.inl heq))

/-- **What the loop finds.** With the spellings before the index already tried:
everything reachable, or nine that are. -/
theorem expand_spec (pairs : List (List α × List α)) {key : List α} (found : Found α) (i : ℕ)
    (hnodup : found.spellings.Nodup)
    (hreach : ∀ x ∈ found.spellings,
      Relation.ReflTransGen (fun x y => y ∈ respellings pairs x) key x)
    (htried : ∀ j, (h : j < found.spellings.length) → j < i →
      ∀ y ∈ respellings pairs found.spellings[j], y ∈ found.spellings) :
    (∃ found', found.expand pairs i = some found' ∧ found'.spellings.Nodup
      ∧ found.spellings <+: found'.spellings
      ∧ (∀ x ∈ found'.spellings,
        Relation.ReflTransGen (fun x y => y ∈ respellings pairs x) key x)
      ∧ ∀ x ∈ found'.spellings, ∀ y ∈ respellings pairs x, y ∈ found'.spellings)
    ∨ found.expand pairs i = none
      ∧ Nine (Relation.ReflTransGen (fun x y => y ∈ respellings pairs x) key) := by
  induction found, i using Found.expand.induct pairs with
  | case1 found i hi hnone =>
    rw [expand, dif_pos hi]
    split
    · obtain ⟨found', hrun, -⟩ | ⟨-, l, hl, hnine, hall⟩ := found.foldlM_push_spec
        (respellings pairs (found.spellings.get ⟨i, hi⟩)) hnodup
      · exact absurd (hnone.symm.trans hrun) (by simp)
      · refine Or.inr ⟨rfl, l, hl, hnine, fun x hx => ?_⟩
        obtain hold | hnew := hall x hx
        · exact hreach x hold
        · exact (hreach _ (List.getElem_mem hi)).tail hnew
    · rename_i hsome
      exact absurd (hnone.symm.trans hsome) (by simp)
  | case2 found i hi found' hsome ih =>
    rw [expand, dif_pos hi]
    split
    · rename_i hnone
      exact absurd (hsome.symm.trans hnone) (by simp)
    · rename_i found₁ hsome'
      obtain rfl := Option.some.inj (hsome.symm.trans hsome')
      obtain ⟨found₂, hrun, hnodup', hgrows, hmem⟩ | ⟨hnone, -⟩ := found.foldlM_push_spec
        (respellings pairs (found.spellings.get ⟨i, hi⟩)) hnodup
      swap
      · exact absurd (hsome.symm.trans hnone) (by simp)
      obtain rfl := Option.some.inj (hsome.symm.trans hrun)
      have hsame : ∀ j (hj : j < found.spellings.length) (hj' : j < found'.spellings.length),
          found'.spellings[j] = found.spellings[j] := by
        intro j hj hj'
        obtain ⟨t, ht⟩ := hgrows
        simp only [← ht]
        exact List.getElem_append_left hj
      have hreach' : ∀ x ∈ found'.spellings,
          Relation.ReflTransGen (fun x y => y ∈ respellings pairs x) key x := by
        intro x hx
        obtain hold | hnew := (hmem x).mp hx
        · exact hreach x hold
        · exact (hreach _ (List.getElem_mem hi)).tail hnew
      have htried' : ∀ j, (h : j < found'.spellings.length) → j < i + 1 →
          ∀ y ∈ respellings pairs found'.spellings[j], y ∈ found'.spellings := by
        intro j hj hlt y hy
        have hj' : j < found.spellings.length := by omega
        rw [hsame j hj' hj] at hy
        rw [hmem]
        obtain hbefore | rfl := Nat.lt_succ_iff_lt_or_eq.mp hlt
        · exact Or.inl (htried j hj' hbefore y hy)
        · exact Or.inr hy
      obtain ⟨found'', hrun', hnodup'', hgrows', hrest⟩ | hnine := ih hnodup' hreach' htried'
      · exact Or.inl ⟨found'', hrun', hnodup'', hgrows.trans hgrows', hrest⟩
      · exact Or.inr hnine
  | case3 found i hi =>
    rw [expand, dif_neg hi]
    refine Or.inl ⟨found, rfl, hnodup, List.prefix_rfl, hreach, fun x hx => ?_⟩
    obtain ⟨j, hj, rfl⟩ := List.mem_iff_getElem.mp hx
    exact htried j hj (by omega)

end Found

/-! ## One replacement -/

section Replacements

variable {α : Type} [DecidableEq α]

/-- A text that does not overlap itself. -/
def Unbordered (old : List α) : Prop := ∀ k < old.length, 0 < k → ¬ old.drop k <+: old

instance (old : List α) : Decidable (Unbordered old) :=
  inferInstanceAs (Decidable (∀ k < old.length, 0 < k → ¬ old.drop k <+: old))

/-- **The search finds every occurrence** of a text that does not overlap itself. -/
theorem mem_replacements {old new : List α} (hne : old ≠ []) (hborder : Unbordered old)
    (skip : ℕ) (before rest next : List α) :
    next ∈ replacements old new skip before rest
      ↔ ∃ a b, rest = a ++ (old ++ b) ∧ skip ≤ a.length ∧ next = before ++ (a ++ (new ++ b)) := by
  have hpos : 0 < old.length := List.length_pos_iff.mpr hne
  induction rest generalizing skip before with
  | nil =>
    rw [replacements]
    refine ⟨fun h => absurd h (by simp), ?_⟩
    rintro ⟨a, b, hrest, -⟩
    exact absurd (List.append_eq_nil_iff.mp (List.append_eq_nil_iff.mp hrest.symm).2).1 hne
  | cons c rest ih =>
    -- An occurrence after the first element is one in the rest.
    have hlater : ∀ skip, (∃ a b, rest = a ++ (old ++ b) ∧ skip ≤ a.length
          ∧ next = before ++ [c] ++ (a ++ (new ++ b)))
        ↔ ∃ a b, c :: rest = a ++ (old ++ b) ∧ skip + 1 ≤ a.length
          ∧ next = before ++ (a ++ (new ++ b)) := by
      intro skip
      constructor
      · rintro ⟨a, b, hrest, hskip, hnext⟩
        exact ⟨c :: a, b, by rw [hrest]; rfl, Nat.succ_le_succ hskip, by rw [hnext]; simp⟩
      · rintro ⟨a, b, hrest, hskip, hnext⟩
        cases a with
        | nil => exact absurd hskip (by simp)
        | cons d a =>
          obtain ⟨hhead, htail⟩ := List.cons.inj hrest
          exact ⟨a, b, htail, Nat.le_of_succ_le_succ hskip, by rw [hnext, ← hhead]; simp⟩
    cases skip with
    | succ skip =>
      rw [replacements]
      exact (ih skip (before ++ [c])).trans (hlater skip)
    | zero =>
      rw [replacements]
      by_cases hmatch : old <+: c :: rest
      · obtain ⟨after, hafter⟩ := hmatch
        have htail := (ih (old.length - 1) (before ++ [c])).trans (hlater (old.length - 1))
        rw [Nat.sub_add_cancel hpos] at htail
        rw [if_pos ⟨after, hafter⟩, List.mem_cons]
        refine (or_congr_right htail).trans ?_
        rw [← hafter, List.drop_left]
        constructor
        · rintro (rfl | ⟨a, b, hrest, -, hnext⟩)
          · exact ⟨[], after, rfl, Nat.zero_le _, rfl⟩
          · exact ⟨a, b, hrest, Nat.zero_le _, hnext⟩
        · rintro ⟨a, b, hrest, -, hnext⟩
          by_cases hzero : a = []
          · subst hzero
            rw [List.nil_append] at hrest
            rw [List.append_cancel_left hrest, hnext]
            exact Or.inl rfl
          · -- The next occurrence begins where this one ends, or later.
            refine Or.inr ⟨a, b, hrest, ?_, hnext⟩
            by_contra hshort
            have hinside : a.length < old.length := by omega
            refine hborder a.length hinside (List.length_pos_iff.mpr hzero) ?_
            have hdrop := congrArg (List.drop a.length) hrest
            rw [List.drop_left, List.drop_append_of_le_length hinside.le] at hdrop
            exact List.prefix_of_prefix_length_le ⟨after, hdrop⟩ (List.prefix_append _ _)
              (by rw [List.length_drop]; omega)
      · rw [if_neg hmatch]
        refine ((ih 0 (before ++ [c])).trans (hlater 0)).trans ?_
        constructor
        · rintro ⟨a, b, hrest, -, hnext⟩
          exact ⟨a, b, hrest, Nat.zero_le _, hnext⟩
        · rintro ⟨a, b, hrest, -, hnext⟩
          refine ⟨a, b, hrest, ?_, hnext⟩
          cases a with
          | nil => exact absurd ⟨b, hrest.symm⟩ hmatch
          | cons d a => exact Nat.succ_le_succ (Nat.zero_le _)

/-- **The spellings one step away.** -/
theorem mem_respellings {pairs : List (List α × List α)}
    (hpairs : ∀ p ∈ pairs, (p.1 ≠ [] ∧ Unbordered p.1) ∧ p.2 ≠ [] ∧ Unbordered p.2)
    (current next : List α) :
    next ∈ respellings pairs current ↔ ∃ p ∈ pairs, ∃ a b,
      current = a ++ (p.1 ++ b) ∧ next = a ++ (p.2 ++ b)
        ∨ current = a ++ (p.2 ++ b) ∧ next = a ++ (p.1 ++ b) := by
  unfold respellings
  rw [List.mem_flatMap]
  refine exists_congr (fun p => and_congr_right (fun hp => ?_))
  obtain ⟨⟨hne, hborder⟩, hne', hborder'⟩ := hpairs p hp
  rw [List.mem_append, mem_replacements hne hborder, mem_replacements hne' hborder']
  simp only [Nat.zero_le, true_and, List.nil_append]
  constructor
  · rintro (⟨a, b, h⟩ | ⟨a, b, h⟩)
    · exact ⟨a, b, Or.inl h⟩
    · exact ⟨a, b, Or.inr h⟩
  · rintro ⟨a, b, h | h⟩
    · exact Or.inl ⟨a, b, h⟩
    · exact Or.inr ⟨a, b, h⟩

/-- **The spellings that were collected**: all that can be reached, or the key
alone when nine can. -/
theorem spellings_spec (pairs : List (List α × List α)) (key : List α) :
    ((spellings pairs key).Nodup ∧ (spellings pairs key).length ≤ 8
      ∧ ∀ x, x ∈ spellings pairs key
        ↔ Relation.ReflTransGen (fun x y => y ∈ respellings pairs x) key x)
    ∨ spellings pairs key = [key]
      ∧ Found.Nine (Relation.ReflTransGen (fun x y => y ∈ respellings pairs x) key) := by
  have hstart : ∀ x ∈ (⟨[key], by simp⟩ : Found α).spellings,
      Relation.ReflTransGen (fun x y => y ∈ respellings pairs x) key x := by
    intro x hx
    rw [List.mem_singleton.mp hx]
  obtain ⟨found, hrun, hnodup, hgrows, hreach, hclosed⟩ | ⟨hrun, hnine⟩ :=
    Found.expand_spec pairs ⟨[key], by simp⟩ 0 (List.nodup_singleton key) hstart
      (fun j _ hj => absurd hj (Nat.not_lt_zero j))
  · have hval : spellings pairs key = found.spellings := by
      rw [spellings, hrun]
      rfl
    rw [hval]
    refine Or.inl ⟨hnodup, found.le, fun x => ⟨hreach x, fun hx => ?_⟩⟩
    induction hx with
    | refl => exact hgrows.subset (List.mem_singleton_self key)
    | tail _ hstep ih => exact hclosed _ ih _ hstep
  · refine Or.inr ⟨?_, hnine⟩
    rw [spellings, hrun]
    rfl

end Replacements

/-! ## The class of a reading -/

/-- A text in two, at a byte that begins a character. -/
theorem valid_of_append {s t : Bytes} (h : ValidUtf8 (s ++ t))
    (hlead : ∀ c ∈ t.head?, isTrailing c = false) : ValidUtf8 s := by
  induction hlen : s.length using Nat.strong_induction_on generalizing s with
  | _ n ih =>
    by_cases hs : s = []
    · rw [hs]
      exact .nil
    · obtain ⟨scalar, rest, heq, hscalar, hrest⟩ := h.exists_scalar (by simp [hs])
      have hpos := List.length_pos_iff.mpr (ne_nil_of_isScalar hscalar)
      obtain ⟨s', hs', hrest'⟩ | ⟨u, hu, ht⟩ := List.append_eq_append_iff.mp heq.symm
      · rw [hs']
        refine .cons hscalar (ih s'.length ?_ (hrest' ▸ hrest) rfl)
        rw [← hlen, hs', List.length_append]
        omega
      · -- The second part would begin inside a character.
        obtain ⟨lead, tail, hsplit, -, htail⟩ := exists_lead_of_isScalar hscalar
        cases u with
        | nil =>
          rw [List.append_nil] at hu
          rw [← hu]
          exact .of_isScalar hscalar
        | cons c u =>
          have hc := hlead c (by rw [ht]; rfl)
          obtain ⟨d, s', rfl⟩ := List.exists_cons_of_ne_nil hs
          have hmem : c ∈ tail := by
            rw [(List.cons.inj (hsplit.symm.trans hu)).2]
            simp
          exact absurd (htail c hmem) (by simp [hc])

/-- **One spelling interchanged for another**, at one place between characters. -/
def Interchange (x y : Bytes) : Prop :=
  ∃ p ∈ pairs, ∃ a b, (ValidUtf8 a ∧ ValidUtf8 b)
    ∧ (x = a ++ (p.1 ++ b) ∧ y = a ++ (p.2 ++ b) ∨ x = a ++ (p.2 ++ b) ∧ y = a ++ (p.1 ++ b))

/-- The readings that can be reached from a reading. -/
def aliasClass (key : Bytes) : Set Bytes := {y | Relation.ReflTransGen Interchange key y}

/-- The spellings are texts, and begin with a character. -/
theorem pairs_valid {p : Bytes × Bytes} (hp : p ∈ pairs) :
    (ValidUtf8 p.1 ∧ p.1 ≠ [] ∧ 0 ∉ p.1) ∧ ValidUtf8 p.2 ∧ p.2 ≠ [] ∧ 0 ∉ p.2 := by
  have hall : ∀ p ∈ pairs, (isValidUtf8 p.1 = true ∧ p.1 ≠ []) ∧ isValidUtf8 p.2 = true ∧ p.2 ≠ [] := by
    decide +kernel
  obtain ⟨⟨h₁, hne₁⟩, h₂, hne₂⟩ := hall p hp
  rw [isValidUtf8_iff] at h₁ h₂
  exact ⟨⟨h₁.1, hne₁, h₁.2⟩, h₂.1, hne₂, h₂.2⟩

namespace Interchange

/-- What is interchanged is interchanged back. -/
theorem symm {x y : Bytes} (h : Interchange x y) : Interchange y x := by
  obtain ⟨p, hp, a, b, hvalid, h⟩ := h
  exact ⟨p, hp, a, b, hvalid, h.symm.imp And.symm And.symm⟩

/-- An interchange leaves a reading a reading. -/
theorem accepted {x y : Bytes} (h : Interchange x y) (hx : 0 ∉ x) :
    isValidUtf8 y = true ∧ y ≠ [] := by
  obtain ⟨p, hp, a, b, ⟨ha, hb⟩, h⟩ := h
  obtain ⟨⟨hv₁, hne₁, h₁⟩, hv₂, hne₂, h₂⟩ := pairs_valid hp
  rw [isValidUtf8_iff]
  obtain ⟨rfl, rfl⟩ | ⟨rfl, rfl⟩ := h
  all_goals
    simp only [List.mem_append, not_or] at hx
    simp only [List.mem_append, not_or, ne_eq, List.append_eq_nil_iff, not_and]
  · exact ⟨⟨ha.append (hv₂.append hb), hx.1, h₂, hx.2.2⟩, fun _ hnil => absurd hnil hne₂⟩
  · exact ⟨⟨ha.append (hv₁.append hb), hx.1, h₁, hx.2.2⟩, fun _ hnil => absurd hnil hne₁⟩

end Interchange

/-- An occurrence of a spelling in a text stands between characters. -/
theorem valid_around {a s b : Bytes} (h : ValidUtf8 (a ++ (s ++ b))) (hs : ValidUtf8 s)
    (hne : s ≠ []) : ValidUtf8 a ∧ ValidUtf8 b := by
  have ha : ValidUtf8 a := by
    refine valid_of_append h (fun c hc => ?_)
    obtain ⟨d, s', rfl⟩ := List.exists_cons_of_ne_nil hne
    rw [List.cons_append, List.head?_cons, Option.mem_some_iff] at hc
    rw [← hc]
    exact hs.not_isTrailing_head
  exact ⟨ha, .of_append_left hs (.of_append_left ha h)⟩

/-- **One step of the worklist is one interchange.** -/
theorem mem_respellings_pairs {x : Bytes} (hx : ValidUtf8 x) (y : Bytes) :
    y ∈ respellings pairs x ↔ Interchange x y := by
  have hpairs : ∀ p ∈ pairs, (p.1 ≠ [] ∧ Unbordered p.1) ∧ p.2 ≠ [] ∧ Unbordered p.2 := by
    decide +kernel
  rw [mem_respellings hpairs]
  refine exists_congr (fun p => and_congr_right (fun hp => ?_))
  obtain ⟨⟨hv₁, hne₁, -⟩, hv₂, hne₂, -⟩ := pairs_valid hp
  refine exists_congr (fun a => exists_congr (fun b => ?_))
  refine ⟨fun h => ⟨?_, h⟩, And.right⟩
  obtain ⟨rfl, -⟩ | ⟨rfl, -⟩ := h
  · exact valid_around hx hv₁ hne₁
  · exact valid_around hx hv₂ hne₂

/-- The members of a class are readings. -/
theorem accepted_of_mem_aliasClass {key y : Bytes} (hkey : isValidUtf8 key = true) (hne : key ≠ [])
    (h : y ∈ aliasClass key) : isValidUtf8 y = true ∧ y ≠ [] := by
  induction (h : Relation.ReflTransGen Interchange key y) with
  | refl => exact ⟨hkey, hne⟩
  | tail hmem hstep ih => exact hstep.accepted (isValidUtf8_iff.mp ih.1).2

/-- **The class is what the worklist reaches.** -/
theorem mem_aliasClass {key : Bytes} (hkey : isValidUtf8 key = true) (hne : key ≠ []) (y : Bytes) :
    Relation.ReflTransGen (fun x y => y ∈ respellings pairs x) key y ↔ y ∈ aliasClass key := by
  constructor
  · intro h
    induction h with
    | refl => exact .refl
    | tail _ hstep ih =>
      have hvalid := (isValidUtf8_iff.mp (accepted_of_mem_aliasClass hkey hne ih).1).1
      exact Relation.ReflTransGen.tail ih ((mem_respellings_pairs hvalid _).mp hstep)
  · intro h
    induction (h : Relation.ReflTransGen Interchange key y) with
    | refl => exact .refl
    | tail hmem hstep ih =>
      have hvalid := (isValidUtf8_iff.mp (accepted_of_mem_aliasClass hkey hne hmem).1).1
      exact ih.tail ((mem_respellings_pairs hvalid _).mpr hstep)

/-- Members of one class have the same class. -/
theorem aliasClass_eq {key y : Bytes} (h : y ∈ aliasClass key) : aliasClass y = aliasClass key := by
  have hsymm : Std.Symm Interchange := ⟨fun _ _ => Interchange.symm⟩
  have hback : Relation.ReflTransGen Interchange y key :=
    (Relation.ReflTransGen.stdSymm (r := Interchange)).symm _ _ h
  ext z
  exact ⟨fun hz => h.trans hz, fun hz => hback.trans hz⟩

/-! ## The aliases -/

/-- **The two outcomes of the collection.** -/
theorem readingAliases_cases {key : Bytes} (hkey : isValidUtf8 key = true) (hne : key ≠ []) :
    ((readingAliases key).Pairwise (· < ·) ∧ (∀ y, y ∈ readingAliases key ↔ y ∈ aliasClass key)
      ∧ (aliasClass key).encard ≤ 8)
    ∨ readingAliases key = [key] ∧ 8 < (aliasClass key).encard := by
  have hval : readingAliases key = (spellings pairs key).mergeSort (· ≤ ·) := by
    rw [readingAliases, if_neg (by simp [hkey, hne])]
  rw [hval]
  obtain ⟨hnodup, hle, hmem⟩ | ⟨halone, l, hl, hnine, hall⟩ := spellings_spec pairs key
  · have hclass : ∀ y, y ∈ spellings pairs key ↔ y ∈ aliasClass key :=
      fun y => (hmem y).trans (mem_aliasClass hkey hne y)
    refine Or.inl ⟨?_, fun y => List.mem_mergeSort.trans (hclass y), ?_⟩
    · have hsorted : ((spellings pairs key).mergeSort (· ≤ ·)).Pairwise
          (fun a b => decide (a ≤ b) = true) := List.pairwise_mergeSort
        (fun a b c hab hbc => by simpa using (of_decide_eq_true hab).trans (of_decide_eq_true hbc))
        (fun a b => by simpa using le_total a b) (spellings pairs key)
      have hdiff := (List.mergeSort_perm (spellings pairs key) (· ≤ ·)).nodup_iff.mpr hnodup
      exact (hsorted.and hdiff).imp (fun h => lt_of_le_of_ne (of_decide_eq_true h.1) h.2)
    · have hset : aliasClass key = ((spellings pairs key).toFinset : Set Bytes) := by
        ext y
        rw [List.coe_toFinset, Set.mem_ofPred_eq, hclass]
      rw [hset, Set.encard_coe_eq_coe_finsetCard, List.toFinset_card_of_nodup hnodup]
      exact_mod_cast hle
  · refine Or.inr ⟨by rw [halone, List.mergeSort_singleton], ?_⟩
    have hsub : (l.toFinset : Set Bytes) ⊆ aliasClass key := by
      intro y hy
      rw [List.coe_toFinset] at hy
      exact (mem_aliasClass hkey hne y).mp (hall y hy)
    have hle := Set.encard_le_encard hsub
    rw [Set.encard_coe_eq_coe_finsetCard, List.toFinset_card_of_nodup hl, hnine] at hle
    exact lt_of_lt_of_le (by norm_num) hle

/-- The aliases of an alias. -/
theorem readingAliases_alias {key y : Bytes} (hy : y ∈ readingAliases key) :
    readingAliases y = readingAliases key := by
  obtain ⟨hne, hkey⟩ : key ≠ [] ∧ isValidUtf8 key = true := by
    unfold readingAliases at hy
    by_cases hguard : (key.isEmpty || !isValidUtf8 key) = true
    · rw [if_pos hguard] at hy
      exact absurd hy List.not_mem_nil
    · simpa using hguard
  obtain ⟨hsorted, hmem, hcard⟩ | ⟨halone, -⟩ := readingAliases_cases hkey hne
  · have hclass := aliasClass_eq ((hmem y).mp hy)
    obtain ⟨hy', hne'⟩ := accepted_of_mem_aliasClass hkey hne ((hmem y).mp hy)
    obtain ⟨hsorted', hmem', -⟩ | ⟨-, hcard'⟩ := readingAliases_cases hy' hne'
    · refine List.Perm.eq_of_pairwise (fun a b _ _ hab hba => absurd hab (lt_asymm hba)) hsorted' hsorted ?_
      rw [List.perm_ext_iff_of_nodup (hsorted'.imp ne_of_lt) (hsorted.imp ne_of_lt)]
      intro z
      rw [hmem', hmem, hclass]
    · rw [hclass] at hcard'
      exact absurd hcard (not_le_of_gt hcard')
  · rw [halone, List.mem_singleton] at hy
    rw [hy]

/-! ## The normal form -/

/-- A codepoint and the one it is folded to. -/
def Folds (c d : ℕ) : Prop :=
  (0x30a1 ≤ c ∧ c ≤ 0x30f6 ∧ c = d + 0x60) ∨ (0xff01 ≤ c ∧ c ≤ 0xff5e ∧ c = d + 0xfee0)

/-- Codepoints that differ by folds. -/
abbrev SameSound : ℕ → ℕ → Prop := Relation.EqvGen Folds

/-- What the folding leaves of a codepoint. -/
theorem normalizeCodepoint_cases (c : ℕ) :
    Folds c (normalizeCodepoint c)
      ∨ normalizeCodepoint c = c ∧ ¬ (0x30a1 ≤ c ∧ c ≤ 0x30f6) ∧ ¬ (0xff01 ≤ c ∧ c ≤ 0xff5e) := by
  unfold Folds normalizeCodepoint
  dsimp only
  split_ifs <;> omega

/-- A folded codepoint is not folded again. -/
theorem normalizeCodepoint_of_folds {c d : ℕ} (h : Folds c d) :
    normalizeCodepoint c = d ∧ normalizeCodepoint d = d := by
  unfold Folds at h
  unfold normalizeCodepoint
  dsimp only
  constructor <;> split_ifs <;> omega

/-- **The folding identifies what differs by folds.** -/
theorem normalizeCodepoint_eq_iff (c d : ℕ) :
    normalizeCodepoint c = normalizeCodepoint d ↔ SameSound c d := by
  have hself : ∀ c, SameSound c (normalizeCodepoint c) := by
    intro c
    obtain hfold | ⟨hsame, -⟩ := normalizeCodepoint_cases c
    · exact .rel _ _ hfold
    · rw [hsame]
      exact .refl c
  constructor
  · intro h
    exact .trans _ _ _ (hself c) (h ▸ .symm _ _ (hself d))
  · intro h
    induction h with
    | rel c d hfold =>
      obtain ⟨hc, hd⟩ := normalizeCodepoint_of_folds hfold
      rw [hc, hd]
    | refl c => rfl
    | symm c d _ ih => exact ih.symm
    | trans c d e _ _ ih ih' => exact ih.trans ih'

/-- A codepoint that a reading has. -/
def Readable (cp : ℕ) : Prop := cp.isValidChar ∧ cp ≠ 0

/-- A folded codepoint is one that a reading has. -/
theorem Readable.normalize {cp : ℕ} (h : Readable cp) : Readable (normalizeCodepoint cp) := by
  unfold Readable Nat.isValidChar at *
  unfold normalizeCodepoint
  dsimp only
  split_ifs <;> omega

/-- **`Encode` writes the octets of a scalar value.** -/
theorem encode_eq {n : ℕ} (h : n.isValidChar) : encode n = encodeScalar n := by
  rw [← encodeUtf8_eq h]
  have hmask : ∀ {value k : ℕ}, value < 2 ^ k → value &&& (2 ^ k - 1) = value :=
    fun hlt => Nat.and_two_pow_sub_one_of_lt_two_pow hlt
  unfold Nat.isValidChar at h
  unfold encode encodeUtf8
  simp only [← Nat.lt_succ_iff, Nat.shiftRight_eq_div_pow]
  split_ifs with h₁ h₂ h₃
  · rfl
  · rw [show n / 2 ^ 6 &&& 0x1f = n / 2 ^ 6 from hmask (k := 5) (by omega)]
  · rw [show n / 2 ^ 12 &&& 0x0f = n / 2 ^ 12 from hmask (k := 4) (by omega)]
  · rw [show n / 2 ^ 18 &&& 0x07 = n / 2 ^ 18 from hmask (k := 3) (by omega)]

/-- A text that begins with a character. -/
theorem decodeAll_append {scalar : Bytes} (h : isScalar scalar = true) (hnul : scalar ≠ [0])
    (text : Bytes) :
    decodeAll (scalar ++ text) = (decodeAll text).map (scalarValue scalar :: ·) := by
  have hdecode := decode_append h hnul text
  obtain ⟨c, tail, rfl⟩ := List.exists_cons_of_ne_nil (ne_nil_of_isScalar h)
  rw [List.cons_append] at hdecode ⊢
  rw [decodeAll]
  split
  · rename_i hnone
    rw [hnone] at hdecode
    cases hdecode
  · rename_i hsome
    rw [hsome] at hdecode
    cases hdecode
    rfl

/-- The octets of a codepoint that a reading has. -/
theorem Readable.encode {cp : ℕ} (h : Readable cp) :
    isScalar (encode cp) = true ∧ encode cp ≠ [0] ∧ scalarValue (Dictionary.encode cp) = cp := by
  obtain ⟨c, hc, hoctets⟩ := exists_char_of_isValidChar h.1
  rw [encode_eq h.1, ← hoctets]
  have hvalue := scalarValue_utf8EncodeChar c
  rw [hc] at hvalue
  refine ⟨Ipc.Json.isScalar_utf8EncodeChar c, fun hnul => h.2 ?_, hvalue⟩
  rw [← hvalue, hnul]
  rfl

/-- **Codepoints that are written are read back.** -/
theorem decodeAll_flatMap_encode {cps : List ℕ} (h : ∀ cp ∈ cps, Readable cp) :
    decodeAll (cps.flatMap encode) = some cps := by
  induction cps with
  | nil =>
    rw [List.flatMap_nil, decodeAll]
  | cons cp cps ih =>
    obtain ⟨hscalar, hnul, hvalue⟩ := (h cp List.mem_cons_self).encode
    rw [List.flatMap_cons, decodeAll_append hscalar hnul, hvalue,
      ih (fun cp' hcp' => h cp' (List.mem_cons_of_mem cp hcp'))]
    rfl

/-- What is read is a codepoint that a reading has. -/
theorem readable_of_decode {text rest : Bytes} {cp : ℕ} (h : decode text = some (cp, rest)) :
    Readable cp := by
  obtain ⟨scalar, hscalar, hnul, -, hvalue⟩ := isScalar_of_decode h
  obtain ⟨c, hc⟩ := exists_char_of_isScalar hscalar
  rw [hvalue, hc, scalarValue_utf8EncodeChar]
  refine ⟨c.valid, fun hzero => hnul ?_⟩
  rw [hc, utf8EncodeChar_eq, hzero]
  rfl

/-- What a text decodes to. -/
theorem readable_of_decodeAll {text : Bytes} {cps : List ℕ} (h : decodeAll text = some cps) :
    ∀ cp ∈ cps, Readable cp := by
  induction text using decodeAll.induct generalizing cps with
  | case1 =>
    rw [decodeAll] at h
    rw [← Option.some.inj h]
    exact fun cp hcp => absurd hcp List.not_mem_nil
  | case2 c text hnone =>
    rw [decodeAll] at h
    split at h
    · cases h
    · rename_i hsome
      rw [hnone] at hsome
      cases hsome
  | case3 c text cp rest hsome ih =>
    rw [decodeAll] at h
    split at h
    · cases h
    · rename_i hsome'
      rw [hsome] at hsome'
      cases hsome'
      obtain ⟨cps', hcps', rfl⟩ := Option.map_eq_some_iff.mp h
      intro cp' hcp'
      obtain rfl | hcp' := List.mem_cons.mp hcp'
      · exact readable_of_decode hsome
      · exact ih hcps' cp' hcp'

/-- **The normal form decodes to the folded codepoints.** -/
theorem decodeAll_normalizeReading {text : Bytes} {cps : List ℕ} (h : decodeAll text = some cps) :
    decodeAll (normalizeReading text) = some (cps.map normalizeCodepoint) := by
  have hreadable : ∀ cp ∈ cps.map normalizeCodepoint, Readable cp := by
    intro cp hcp
    obtain ⟨cp', hcp', rfl⟩ := List.mem_map.mp hcp
    exact (readable_of_decodeAll h cp' hcp').normalize
  have hval : normalizeReading text = (cps.map normalizeCodepoint).flatMap encode := by
    rw [normalizeReading, h, List.flatMap_map]
    rfl
  rw [hval, decodeAll_flatMap_encode hreadable]

/-- The normal form is its own. -/
theorem normalizeReading_idem (text : Bytes) :
    normalizeReading (normalizeReading text) = normalizeReading text := by
  cases hcps : decodeAll text with
  | none =>
    have hval : normalizeReading text = [] := by
      rw [normalizeReading, hcps]
      rfl
    rw [hval, normalizeReading, decodeAll]
    rfl
  | some cps =>
    have hagain := decodeAll_normalizeReading hcps
    have hidem : ∀ cp, normalizeCodepoint (normalizeCodepoint cp) = normalizeCodepoint cp := by
      intro cp
      obtain hfold | ⟨hsame, -⟩ := normalizeCodepoint_cases cp
      · exact (normalizeCodepoint_of_folds hfold).2
      · rw [hsame, hsame]
    rw [normalizeReading, hagain, normalizeReading, hcps]
    simp only [Option.map_some, Option.getD_some, List.flatMap_map, hidem]

/-- **Two readings have one normal form when they differ by folds.** -/
theorem normalizeReading_eq_iff {x y : Bytes} {cps cps' : List ℕ} (hx : decodeAll x = some cps)
    (hy : decodeAll y = some cps') :
    normalizeReading x = normalizeReading y ↔ List.Forall₂ SameSound cps cps' := by
  have hmaps : normalizeReading x = normalizeReading y
      ↔ cps.map normalizeCodepoint = cps'.map normalizeCodepoint := by
    constructor
    · intro h
      have hboth := decodeAll_normalizeReading hx
      rw [h, decodeAll_normalizeReading hy] at hboth
      exact (Option.some.inj hboth).symm
    · intro h
      have hval : ∀ {text cps}, decodeAll text = some cps →
          normalizeReading text = (cps.map normalizeCodepoint).flatMap encode := by
        intro text cps hcps
        rw [normalizeReading, hcps, List.flatMap_map]
        rfl
      rw [hval hx, hval hy, h]
  rw [hmaps, ← List.forall₂_eq_eq_eq, List.forall₂_map_left_iff, List.forall₂_map_right_iff]
  simp only [normalizeCodepoint_eq_iff]

/-- **The spellings of a reading.** The aliases are the class of the reading in
order, or the reading alone where the class has more than eight members; an alias
has the same aliases. The normal form is its own, and the same for the readings
that differ by folds. -/
theorem readingAliases_spec (key : Bytes) (hne : key ≠ []) (hkey : isValidUtf8 key = true) :
    ((aliasClass key).encard ≤ 8 → (readingAliases key).Pairwise (· < ·)
      ∧ ∀ y, y ∈ readingAliases key ↔ y ∈ aliasClass key)
    ∧ (8 < (aliasClass key).encard → readingAliases key = [key])
    ∧ (∀ x y, y ∈ readingAliases x → readingAliases y = readingAliases x)
    ∧ (∀ text, normalizeReading (normalizeReading text) = normalizeReading text)
    ∧ ∀ x y cps cps', decodeAll x = some cps → decodeAll y = some cps' →
      (normalizeReading x = normalizeReading y ↔ List.Forall₂ SameSound cps cps') := by
  have halias := readingAliases_cases hkey hne
  refine ⟨fun hcard => ?_, fun hcard => ?_, fun x y hy => readingAliases_alias hy,
    normalizeReading_idem, fun x y cps cps' hx hy => normalizeReading_eq_iff hx hy⟩
  · obtain ⟨hsorted, hmem, -⟩ | ⟨-, hcard'⟩ := halias
    · exact ⟨hsorted, hmem⟩
    · exact absurd hcard (not_le_of_gt hcard')
  · obtain ⟨-, -, hcard'⟩ | ⟨halone, -⟩ := halias
    · exact absurd hcard' (not_le_of_gt hcard)
    · exact halone

/-- A reading with an alias. -/
theorem isValidUtf8_hanadi : isValidUtf8 (utf8 "はなぢ") = true := by decide +kernel

set_option maxRecDepth 10000 in
/-- A class of two. -/
theorem aliasClass_hanadi :
    aliasClass (utf8 "はなぢ") = {utf8 "はなぢ", utf8 "はなじ"} := by
  have hsteps : respellings pairs (utf8 "はなぢ") = [utf8 "はなじ"]
      ∧ respellings pairs (utf8 "はなじ") = [utf8 "はなぢ"] := by
    decide
  ext y
  rw [Set.mem_insert_iff, Set.mem_singleton_iff, ← mem_aliasClass isValidUtf8_hanadi (by decide)]
  constructor
  · intro h
    induction h with
    | refl => exact Or.inl rfl
    | tail _ hstep ih =>
      obtain rfl | rfl := ih
      · rw [hsteps.1] at hstep
        exact Or.inr (List.mem_singleton.mp hstep)
      · rw [hsteps.2] at hstep
        exact Or.inl (List.mem_singleton.mp hstep)
  · rintro (rfl | rfl)
    · exact .refl
    · refine .single ?_
      rw [hsteps.1]
      exact List.mem_singleton_self _

/-- The aliases of a member of that class. -/
theorem readingAliases_spec_hanadi :
    (∀ y, y ∈ readingAliases (utf8 "はなぢ") ↔ y = utf8 "はなぢ" ∨ y = utf8 "はなじ")
      ∧ readingAliases (utf8 "はなじ") = readingAliases (utf8 "はなぢ") := by
  have hspec := readingAliases_spec (utf8 "はなぢ") (by decide) isValidUtf8_hanadi
  have hcard : (aliasClass (utf8 "はなぢ")).encard ≤ 8 := by
    rw [aliasClass_hanadi]
    refine (Set.encard_insert_le _ _).trans ?_
    rw [Set.encard_singleton]
    norm_num
  have hmem : ∀ y, y ∈ readingAliases (utf8 "はなぢ") ↔ y = utf8 "はなぢ" ∨ y = utf8 "はなじ" := by
    intro y
    rw [(hspec.1 hcard).2, aliasClass_hanadi, Set.mem_insert_iff, Set.mem_singleton_iff]
  exact ⟨hmem, hspec.2.2.1 _ _ ((hmem _).mpr (Or.inr rfl))⟩

example : normalizeReading (utf8 "カナＡ") = utf8 "かなA" := by decide +kernel

end AzooKey.Core.Dictionary

import Mathlib

/-!
# Cuts of a list

A list is cut into consecutive parts, none of them empty, one for each unit of
another list. Which part a unit can take is a parameter. `IsCut` says what a cut
is, `cuts` lists them all, each once, and `count` counts them; the count of a list
of units is a sum over the part that the first unit takes (`count_cons`). A count
need not be exact to tell whether a cut is the only one (`min_sum_map_min`).
-/

namespace Cuts

variable {U C : Type*}

/-- **A cut**: the parts, one for each unit. -/
structure IsCut (takes : U → List C → Bool) (us : List U) (cs : List C)
    (parts : List (List C)) : Prop where
  flatten : parts.flatten = cs
  takes : List.Forall₂ (fun u part => part ≠ [] ∧ takes u part = true) us parts

/-- The ways to cut one part off. -/
def splits (cs : List C) : List (List C × List C) :=
  (List.range cs.length).map (fun i => (cs.take (i + 1), cs.drop (i + 1)))

/-- All cuts. -/
def cuts (takes : U → List C → Bool) : List U → List C → List (List (List C))
  | [], [] => [[]]
  | [], _ :: _ => []
  | u :: us, cs => (splits cs).flatMap (fun p =>
      if takes u p.1 then (cuts takes us p.2).map (p.1 :: ·) else [])

/-- How many cuts there are. -/
def count (takes : U → List C → Bool) (us : List U) (cs : List C) : ℕ := (cuts takes us cs).length

/-- A split is a part and the rest. -/
theorem mem_splits {cs : List C} {p : List C × List C} :
    p ∈ splits cs ↔ p.1 ≠ [] ∧ p.1 ++ p.2 = cs := by
  unfold splits
  rw [List.mem_map]
  constructor
  · rintro ⟨i, hi, rfl⟩
    refine ⟨fun hnil => ?_, List.take_append_drop _ _⟩
    have hlen := congrArg List.length hnil
    rw [List.length_take, List.length_nil] at hlen
    have := List.mem_range.mp hi
    omega
  · rintro ⟨hne, rfl⟩
    have hpos := List.length_pos_iff.mpr hne
    refine ⟨p.1.length - 1, List.mem_range.mpr (by rw [List.length_append]; omega), ?_⟩
    rw [Nat.sub_add_cancel hpos, List.take_left, List.drop_left]

/-- Splits differ in the length of the part. -/
theorem nodup_splits (cs : List C) : (splits cs).Nodup := by
  refine List.Nodup.map_on (fun i hi j hj h => ?_) List.nodup_range
  have hlen := congrArg List.length (Prod.mk.inj h).1
  simp only [List.length_take] at hlen
  have hi := List.mem_range.mp hi
  have hj := List.mem_range.mp hj
  omega

section Takes

variable {takes : U → List C → Bool}

/-- A cut of a list that begins with a unit. -/
theorem isCut_cons {u : U} {us : List U} {cs : List C} {parts : List (List C)} :
    IsCut takes (u :: us) cs parts ↔ ∃ p ∈ splits cs, takes u p.1 = true
      ∧ ∃ rest, IsCut takes us p.2 rest ∧ parts = p.1 :: rest := by
  constructor
  · rintro ⟨hflat, htakes⟩
    cases htakes with
    | @cons _ part _ rest hpart hrest =>
      exact ⟨(part, rest.flatten), mem_splits.mpr ⟨hpart.1, hflat⟩, hpart.2, rest, ⟨rfl, hrest⟩, rfl⟩
  · rintro ⟨p, hp, htake, rest, ⟨hflat, hrest⟩, rfl⟩
    obtain ⟨hne, happend⟩ := mem_splits.mp hp
    exact ⟨by rw [List.flatten_cons, hflat, happend], .cons ⟨hne, htake⟩ hrest⟩

/-- **Every cut is listed.** -/
theorem mem_cuts {us : List U} {cs : List C} {parts : List (List C)} :
    parts ∈ cuts takes us cs ↔ IsCut takes us cs parts := by
  induction us generalizing cs parts with
  | nil =>
    constructor
    · intro h
      cases cs with
      | nil =>
        rw [cuts, List.mem_singleton] at h
        rw [h]
        exact ⟨rfl, .nil⟩
      | cons c cs => exact absurd h List.not_mem_nil
    · rintro ⟨hflat, htakes⟩
      cases htakes
      rw [← hflat]
      exact List.mem_singleton_self _
  | cons u us ih =>
    rw [isCut_cons, cuts, List.mem_flatMap]
    refine exists_congr (fun p => and_congr_right (fun _ => ?_))
    by_cases htake : takes u p.1 = true
    · rw [if_pos htake, List.mem_map]
      constructor
      · rintro ⟨rest, hrest, rfl⟩
        exact ⟨htake, rest, ih.mp hrest, rfl⟩
      · rintro ⟨-, rest, hrest, rfl⟩
        exact ⟨rest, ih.mpr hrest, rfl⟩
    · rw [if_neg htake]
      exact ⟨fun h => absurd h List.not_mem_nil, fun h => absurd h.1 htake⟩

/-- **Every cut is listed once.** -/
theorem nodup_cuts (us : List U) (cs : List C) : (cuts takes us cs).Nodup := by
  induction us generalizing cs with
  | nil =>
    cases cs with
    | nil => exact List.nodup_singleton _
    | cons c cs => exact List.nodup_nil
  | cons u us ih =>
    rw [cuts, List.nodup_flatMap]
    refine ⟨fun p _ => ?_, (nodup_splits cs).imp_of_mem (fun {p q} hp hq hne => ?_)⟩
    · split_ifs
      · exact (ih p.2).map (fun _ _ h => (List.cons.inj h).2)
      · exact List.nodup_nil
    · -- Two splits with the same part are the same.
      intro parts hparts hparts'
      dsimp only at hparts hparts'
      split_ifs at hparts hparts'
      · obtain ⟨rest, -, rfl⟩ := List.mem_map.mp hparts
        obtain ⟨rest', -, heq⟩ := List.mem_map.mp hparts'
        have hpart := (List.cons.inj heq).1
        refine hne (Prod.ext hpart.symm ?_)
        have happend := (mem_splits.mp hp).2.trans (mem_splits.mp hq).2.symm
        rw [hpart] at happend
        exact List.append_cancel_left happend
      all_goals simp at hparts hparts'

/-- **One cut is counted when there is exactly one.** -/
theorem count_eq_one_iff {us : List U} {cs : List C} :
    count takes us cs = 1 ↔ ∃! parts, IsCut takes us cs parts := by
  unfold count
  rw [List.length_eq_one_iff]
  constructor
  · rintro ⟨parts, hparts⟩
    refine ⟨parts, mem_cuts.mp (by rw [hparts]; exact List.mem_singleton_self _), fun other h => ?_⟩
    have hmem := mem_cuts.mpr h
    rw [hparts] at hmem
    exact List.mem_singleton.mp hmem
  · rintro ⟨parts, hcut, hunique⟩
    refine ⟨parts, ?_⟩
    have hperm : (cuts takes us cs).Perm [parts] :=
      (List.perm_ext_iff_of_nodup (nodup_cuts us cs) (List.nodup_singleton _)).mpr (fun other =>
        ⟨fun h => List.mem_singleton.mpr (hunique other (mem_cuts.mp h)), fun h => by
          rw [List.mem_singleton.mp h]
          exact mem_cuts.mpr hcut⟩)
    exact List.perm_singleton.mp hperm

/-- The cuts of no units. -/
theorem count_nil (cs : List C) : count takes [] cs = if cs = [] then 1 else 0 := by
  cases cs <;> rfl

/-- **The count is a sum over what the first unit takes.** -/
theorem count_cons (u : U) (us : List U) (cs : List C) :
    count takes (u :: us) cs = ((List.range cs.length).map (fun i =>
      if takes u (cs.take (i + 1)) then count takes us (cs.drop (i + 1)) else 0)).sum := by
  unfold count
  rw [cuts, List.length_flatMap, splits, List.map_map]
  refine congrArg List.sum (List.map_congr_left (fun i _ => ?_))
  show (if takes u (cs.take (i + 1)) then _ else _ : List (List (List C))).length = _
  split_ifs
  · exact List.length_map _
  · rfl

/-- **A unit that takes anything.** -/
theorem count_cons_of_any {u : U} (hany : ∀ part, takes u part = true) (us : List U) (cs : List C) :
    count takes (u :: us) cs
      = ((List.range cs.length).map (fun i => count takes us (cs.drop (i + 1)))).sum := by
  rw [count_cons]
  simp only [hany, if_true]

/-- **A unit that takes one element.** -/
theorem count_cons_of_single {u : U} (hsingle : ∀ part, takes u part = true → part.length = 1)
    (us : List U) (c : C) (cs : List C) :
    count takes (u :: us) (c :: cs) = if takes u [c] then count takes us cs else 0 := by
  rw [count_cons, List.length_cons, List.range_succ_eq_map, List.map_cons, List.sum_cons,
    List.map_map]
  have hrest : (List.map ((fun i => if takes u ((c :: cs).take (i + 1)) then
      count takes us ((c :: cs).drop (i + 1)) else 0) ∘ Nat.succ) (List.range cs.length)).sum = 0 := by
    refine List.sum_eq_zero (fun n hn => ?_)
    obtain ⟨i, hi, rfl⟩ := List.mem_map.mp hn
    refine if_neg (fun htake => ?_)
    have hlen := hsingle _ htake
    rw [List.length_take, List.length_cons] at hlen
    have := List.mem_range.mp hi
    omega
  rw [hrest]
  rfl

/-- No part can be cut off nothing. -/
theorem count_cons_nil (u : U) (us : List U) : count takes (u :: us) [] = 0 := rfl

end Takes

/-! ## Saturated counts -/

/-- **Summands may be saturated** when the sum is. -/
theorem min_sum_map_min {α : Type*} (k : ℕ) (f : α → ℕ) (l : List α) :
    min k (l.map (fun x => min k (f x))).sum = min k (l.map f).sum := by
  induction l with
  | nil => rfl
  | cons x l ih =>
    simp only [List.map_cons, List.sum_cons]
    omega

end Cuts

import Mathlib

/-!
# The best of a set, a number of them

A search that keeps only the `k` cheapest answers says three things of what it
keeps: they are answers, they come in the order of their costs, and whatever is
left out costs no less than any of them, and is left out only because there
are `k`. `IsKBest` is that statement of a list and a set.

A set `C` covers a larger one when whoever of the larger set is missing has
`k` in `C` that cost no more (`Covers`). The best of `C` are then the best of
the larger set (`IsKBest.of_covers`), which is why a dynamic programme may
prune: what has been left out of a part covers what its extensions leave out
(`Covers.extend`).

`offer` puts one more answer into a list that is kept sorted and short.
-/

namespace KBest

variable {α γ : Type*} [LinearOrder γ]

/-- **The `k` best of a set**, the cheapest first. -/
structure IsKBest (cost : α → γ) (k : ℕ) (S : Set α) (best : List α) : Prop where
  nodup : best.Nodup
  mem : ∀ x ∈ best, x ∈ S
  sorted : best.Pairwise (fun x y => cost x ≤ cost y)
  length_le : best.length ≤ k
  full : ∀ x ∈ S, x ∉ best → best.length = k ∧ ∀ y ∈ best, cost y ≤ cost x

/-- **A part of a set that is enough to find the `k` best.** -/
structure Covers (cost : α → γ) (k : ℕ) (C S : Set α) : Prop where
  subset : C ⊆ S
  better : ∀ x ∈ S, x ∉ C →
    ∃ l : List α, l.Nodup ∧ k ≤ l.length ∧ ∀ y ∈ l, y ∈ C ∧ cost y ≤ cost x

/-- The best under another name. -/
theorem IsKBest.map {β : Type*} {cost : α → γ} {cost' : β → γ} {k : ℕ} {S : Set α} {best : List α}
    (hbest : IsKBest cost k S best) {f : α → β} (hinjective : Function.Injective f)
    (hcost : ∀ x, cost' (f x) = cost x) : IsKBest cost' k (f '' S) (best.map f) where
  nodup := hbest.nodup.map hinjective
  mem y hy := by
    obtain ⟨x, hx, rfl⟩ := List.mem_map.mp hy
    exact ⟨x, hbest.mem x hx, rfl⟩
  sorted := by
    rw [List.pairwise_map]
    simpa only [hcost] using hbest.sorted
  length_le := by
    rw [List.length_map]
    exact hbest.length_le
  full := by
    rintro y ⟨x, hx, rfl⟩ hnot
    obtain ⟨hlength, hle⟩ := hbest.full x hx (fun hmem => hnot (List.mem_map_of_mem hmem))
    refine ⟨by rw [List.length_map, hlength], fun z hz => ?_⟩
    obtain ⟨z', hz', rfl⟩ := List.mem_map.mp hz
    rw [hcost, hcost]
    exact hle z' hz'

/-! ## The costs of the best -/

section Costs

variable {cost : α → γ} {k : ℕ} {S : Set α} {best best' : List α}

/-- Two lists of the best have one length. -/
theorem IsKBest.length_le_length (h : IsKBest cost k S best) (h' : IsKBest cost k S best') :
    best'.length ≤ best.length := by
  by_cases hall : ∀ x ∈ best', x ∈ best
  · exact (h'.nodup.subperm hall).length_le
  · rw [not_forall] at hall
    obtain ⟨x, hall⟩ := hall
    rw [Classical.not_imp] at hall
    rw [(h.full x (h'.mem x hall.1) hall.2).1]
    exact h'.length_le

/-- The costs of one list of the best do not lie above those of another. -/
theorem IsKBest.cost_le_cost (h : IsKBest cost k S best) (h' : IsKBest cost k S best') {i : ℕ}
    (hi : i < best.length) (hi' : i < best'.length) : cost best[i] ≤ cost best'[i] := by
  by_contra hlt
  have hlt := not_le.mp hlt
  -- one of the first of the other list is missing, and is cheaper than what is there
  have hmissing : ¬ ∀ x ∈ best'.take (i + 1), x ∈ best.take i := by
    intro hall
    have hlength := ((h'.nodup.sublist (List.take_sublist (i + 1) _)).subperm hall).length_le
    rw [List.length_take, List.length_take] at hlength
    omega
  rw [not_forall] at hmissing
  obtain ⟨x, hmissing⟩ := hmissing
  rw [Classical.not_imp] at hmissing
  obtain ⟨hx, hnot⟩ := hmissing
  have hcost : cost x ≤ cost best'[i] := by
    obtain ⟨j, hj, rfl⟩ := List.mem_take_iff_getElem.mp hx
    obtain hji | hji := lt_or_eq_of_le (show j ≤ i by omega)
    · exact List.pairwise_iff_getElem.mp h'.sorted j i (by omega) hi' hji
    · subst hji
      exact le_rfl
  by_cases hmem : x ∈ best
  · obtain ⟨j, hj, rfl⟩ := List.mem_iff_getElem.mp hmem
    have hij : i ≤ j := by
      by_contra hji
      exact hnot (List.mem_take_iff_getElem.mpr ⟨j, by omega, rfl⟩)
    have hsorted : cost best[i] ≤ cost best[j] := by
      obtain hij | hij := lt_or_eq_of_le hij
      · exact List.pairwise_iff_getElem.mp h.sorted i j hi hj hij
      · subst hij
        exact le_rfl
    exact absurd (hsorted.trans hcost) (not_le.mpr hlt)
  · have hfull := (h.full x (h'.mem x (List.mem_of_mem_take hx)) hmem).2 _ (List.getElem_mem hi)
    exact absurd (hfull.trans hcost) (not_le.mpr hlt)

/-- **Two lists of the best have the same costs.** -/
theorem IsKBest.map_cost_eq (h : IsKBest cost k S best) (h' : IsKBest cost k S best') :
    best.map cost = best'.map cost := by
  have hlength : best.length = best'.length :=
    le_antisymm (h'.length_le_length h) (h.length_le_length h')
  refine List.ext_getElem (by rw [List.length_map, List.length_map, hlength]) (fun i hi hi' => ?_)
  rw [List.length_map] at hi hi'
  rw [List.getElem_map, List.getElem_map]
  exact le_antisymm (h.cost_le_cost h' hi hi') (h'.cost_le_cost h hi' hi)

end Costs

section Covers

variable {cost : α → γ} {k : ℕ} {S C : Set α} {best : List α}

/-- **The best of what covers a set are the best of the set.** -/
theorem IsKBest.of_covers (hbest : IsKBest cost k C best) (hcovers : Covers cost k C S) :
    IsKBest cost k S best where
  nodup := hbest.nodup
  mem x hx := hcovers.subset (hbest.mem x hx)
  sorted := hbest.sorted
  length_le := hbest.length_le
  full x hx hnot := by
    by_cases hC : x ∈ C
    · exact hbest.full x hC hnot
    · obtain ⟨l, hnodup, hlength, hl⟩ := hcovers.better x hx hC
      by_cases hall : ∀ y ∈ l, y ∈ best
      · -- the cover of `x` is all of the best
        have hsub : l.Subperm best := hnodup.subperm hall
        have hperm : l.Perm best := hsub.perm_of_length_le (hbest.length_le.trans hlength)
        refine ⟨le_antisymm hbest.length_le (hlength.trans hperm.length_eq.le), fun y hy => ?_⟩
        exact (hl y (hperm.mem_iff.mpr hy)).2
      · rw [not_forall] at hall
        obtain ⟨y, hall⟩ := hall
        rw [Classical.not_imp] at hall
        obtain ⟨hfull, hle⟩ := hbest.full y (hl y hall.1).1 hall.2
        exact ⟨hfull, fun z hz => (hle z hz).trans (hl y hall.1).2⟩

/-- The best of a set cover it. -/
theorem IsKBest.covers (hbest : IsKBest cost k S best) : Covers cost k {x | x ∈ best} S where
  subset x hx := hbest.mem x hx
  better x hx hnot :=
    ⟨best, hbest.nodup, (hbest.full x hx hnot).1.ge, fun y hy => ⟨hy, (hbest.full x hx hnot).2 y hy⟩⟩

/-- Two sets are covered by what covers each of them. -/
theorem Covers.union {C' S' : Set α} (h : Covers cost k C S) (h' : Covers cost k C' S') :
    Covers cost k (C ∪ C') (S ∪ S') where
  subset := Set.union_subset_union h.subset h'.subset
  better x hx hnot := by
    rcases hx with hx | hx
    · obtain ⟨l, hnodup, hlength, hl⟩ := h.better x hx (fun hC => hnot (Or.inl hC))
      exact ⟨l, hnodup, hlength, fun y hy => ⟨Or.inl (hl y hy).1, (hl y hy).2⟩⟩
    · obtain ⟨l, hnodup, hlength, hl⟩ := h'.better x hx (fun hC => hnot (Or.inr hC))
      exact ⟨l, hnodup, hlength, fun y hy => ⟨Or.inr (hl y hy).1, (hl y hy).2⟩⟩

/-- A set covers itself. -/
theorem Covers.refl (cost : α → γ) (k : ℕ) (S : Set α) : Covers cost k S S where
  subset := Set.Subset.rfl
  better _ hx hnot := absurd hx hnot

/-- **What is left out of a part is not missed in its extensions.** The extensions are
a family of injections that keep the order of the costs. -/
theorem Covers.extend {β ι : Type*} {source : β → γ} {part pruned : ι → Set β}
    {ext : ι → β → α} (hinjective : ∀ i, Function.Injective (ext i))
    (hmono : ∀ i x y, source x ≤ source y → cost (ext i x) ≤ cost (ext i y))
    (hpruned : ∀ i, Covers source k (pruned i) (part i)) :
    Covers cost k {z | ∃ i, ∃ x ∈ pruned i, ext i x = z} {z | ∃ i, ∃ x ∈ part i, ext i x = z} where
  subset := by
    rintro z ⟨i, x, hx, rfl⟩
    exact ⟨i, x, (hpruned i).subset hx, rfl⟩
  better := by
    rintro z ⟨i, x, hx, rfl⟩ hnot
    obtain ⟨l, hnodup, hlength, hl⟩ :=
      (hpruned i).better x hx (fun hpruned => hnot ⟨i, x, hpruned, rfl⟩)
    refine ⟨l.map (ext i), hnodup.map (hinjective i), by rwa [List.length_map], fun y hy => ?_⟩
    obtain ⟨x', hx', rfl⟩ := List.mem_map.mp hy
    exact ⟨⟨i, x', (hl x' hx').1, rfl⟩, hmono i _ _ (hl x' hx').2⟩

end Covers

/-! ## Keeping the best -/

/-- **One more answer for a list that is kept sorted and short**: it is inserted behind
all that cost no more, unless that is too far behind, and the last one gives way. -/
def offer (cost : α → γ) (k : ℕ) (x : α) (best : List α) : List α :=
  let place := best.findIdx (fun y => cost x < cost y)
  if k ≤ place then best
  else
    let inserted := best.insertIdx place x
    if k < inserted.length then inserted.dropLast else inserted

/-- Offering commutes with a map that keeps the costs. -/
theorem map_offer {β : Type*} (cost : α → γ) (k : ℕ) (f : β → α) (x : β) (best : List β) :
    offer cost k (f x) (best.map f) = (offer (fun y => cost (f y)) k x best).map f := by
  have hplace : (best.map f).findIdx (fun y => decide (cost (f x) < cost y))
      = best.findIdx (fun y => decide (cost (f x) < cost (f y))) :=
    List.findIdx_map _ _ _
  unfold offer
  dsimp only
  rw [hplace, ← List.map_insertIdx, List.length_map, ← List.map_dropLast]
  split_ifs <;> rfl

/-- Offering depends on the costs of what is there only. -/
theorem offer_congr {cost cost' : α → γ} {k : ℕ} {x : α} {best : List α} (hx : cost x = cost' x)
    (h : ∀ y ∈ best, cost y = cost' y) : offer cost k x best = offer cost' k x best := by
  have hplace : best.findIdx (fun y => decide (cost x < cost y))
      = best.findIdx (fun y => decide (cost' x < cost' y)) := by
    induction best with
    | nil => rfl
    | cons a best ih =>
      rw [List.findIdx_cons, List.findIdx_cons, ih (fun y hy => h y (List.mem_cons_of_mem _ hy)), hx,
        h a List.mem_cons_self]
  unfold offer
  rw [hplace]

/-- What is kept was there or is new. -/
theorem mem_offer {cost : α → γ} {k : ℕ} {x y : α} {best : List α} (h : y ∈ offer cost k x best) :
    y = x ∨ y ∈ best := by
  unfold offer at h
  dsimp only at h
  split_ifs at h with hfar hlong
  · exact Or.inr h
  · exact (List.eq_or_mem_of_mem_insertIdx (List.mem_of_mem_dropLast h))
  · exact List.eq_or_mem_of_mem_insertIdx h

/-- What is kept after several offers was there or is one of them. -/
theorem mem_foldl_offer {cost : α → γ} {k : ℕ} {y : α} {xs best : List α}
    (h : y ∈ xs.foldl (fun best x => offer cost k x best) best) : y ∈ xs ∨ y ∈ best := by
  induction xs generalizing best with
  | nil => exact Or.inr h
  | cons x xs ih =>
    obtain hxs | hmem := ih h
    · exact Or.inl (List.mem_cons_of_mem _ hxs)
    · obtain rfl | hbest := mem_offer hmem
      · exact Or.inl List.mem_cons_self
      · exact Or.inr hbest

/-- Several offers commute with a map that keeps the costs of what is there. -/
theorem map_foldl_offer {β : Type*} {cost : α → γ} {cost' : β → γ} {k : ℕ} (f : β → α)
    {xs best : List β} (hxs : ∀ x ∈ xs, cost' x = cost (f x))
    (hbest : ∀ x ∈ best, cost' x = cost (f x)) :
    (xs.foldl (fun best x => offer cost' k x best) best).map f
      = (xs.map f).foldl (fun best x => offer cost k x best) (best.map f) := by
  induction xs generalizing best with
  | nil => rfl
  | cons x xs ih =>
    have hx := hxs x List.mem_cons_self
    have hoffer : (offer cost' k x best).map f = offer cost k (f x) (best.map f) := by
      rw [map_offer, offer_congr hx hbest]
    rw [List.foldl_cons, List.map_cons, List.foldl_cons, ← hoffer]
    refine ih (fun y hy => hxs y (List.mem_cons_of_mem _ hy)) (fun y hy => ?_)
    obtain rfl | hy := mem_offer hy
    · exact hx
    · exact hbest y hy

section Offer

variable {cost : α → γ} {k : ℕ} {S : Set α} {best : List α} {x : α}

/-- The list before and behind the place of a new answer. -/
theorem exists_place (cost : α → γ) (x : α) (hsorted : best.Pairwise (fun x y => cost x ≤ cost y)) :
    ∃ front back, best = front ++ back ∧ best.findIdx (fun y => decide (cost x < cost y)) = front.length
      ∧ (∀ y ∈ front, cost y ≤ cost x) ∧ ∀ y ∈ back, cost x < cost y := by
  induction best with
  | nil => exact ⟨[], [], rfl, rfl, by simp, by simp⟩
  | cons a best ih =>
    obtain ⟨ha, hbest⟩ := List.pairwise_cons.mp hsorted
    by_cases hlt : cost x < cost a
    · refine ⟨[], a :: best, rfl, ?_, by simp, fun y hy => ?_⟩
      · rw [List.findIdx_cons, decide_eq_true hlt]
        rfl
      · rcases List.mem_cons.mp hy with rfl | hy
        · exact hlt
        · exact lt_of_lt_of_le hlt (ha y hy)
    · obtain ⟨front, back, rfl, hplace, hfront, hback⟩ := ih hbest
      refine ⟨a :: front, back, rfl, ?_, fun y hy => ?_, hback⟩
      · rw [List.findIdx_cons, decide_eq_false hlt, hplace]
        rfl
      · rcases List.mem_cons.mp hy with rfl | hy
        · exact not_lt.mp hlt
        · exact hfront y hy

/-- What is inserted at the place stands between the two parts. -/
theorem insertIdx_append (front back : List α) (x : α) :
    (front ++ back).insertIdx front.length x = front ++ x :: back := by
  induction front with
  | nil => rfl
  | cons a front ih =>
    show a :: (front ++ back).insertIdx front.length x = a :: (front ++ x :: back)
    rw [ih]

/-- A list with a new answer at its place is sorted. -/
theorem sorted_insert {front back : List α}
    (hsorted : (front ++ back).Pairwise (fun x y => cost x ≤ cost y))
    (hfront : ∀ y ∈ front, cost y ≤ cost x) (hback : ∀ y ∈ back, cost x < cost y) :
    (front ++ x :: back).Pairwise (fun x y => cost x ≤ cost y) := by
  obtain ⟨hsortedFront, hsortedBack, hcross⟩ := List.pairwise_append.mp hsorted
  refine List.pairwise_append.mpr ⟨hsortedFront,
    List.pairwise_cons.mpr ⟨fun y hy => (hback y hy).le, hsortedBack⟩, fun y hy z hz => ?_⟩
  rcases List.mem_cons.mp hz with rfl | hz
  · exact hfront y hy
  · exact hcross y hy z hz

/-- **The best of a set and of one more answer.** -/
theorem IsKBest.offer (hbest : IsKBest cost k S best) (hx : x ∉ S) :
    IsKBest cost k (insert x S) (offer cost k x best) := by
  obtain ⟨front, back, hsplit, hplace, hfront, hback⟩ := exists_place cost x hbest.sorted
  have hnew : x ∉ best := fun hmem => hx (hbest.mem x hmem)
  unfold KBest.offer
  dsimp only
  rw [hplace]
  by_cases hfar : k ≤ front.length
  · -- all of the kept ones stand in front of the new one
    rw [if_pos hfar]
    have hlength := hbest.length_le
    rw [hsplit, List.length_append] at hlength
    have hnil : back = [] := List.eq_nil_of_length_eq_zero (by omega)
    rw [hnil, List.append_nil] at hsplit
    refine ⟨hbest.nodup, fun y hy => Or.inr (hbest.mem y hy), hbest.sorted, hbest.length_le, ?_⟩
    rintro y (rfl | hy) hnot
    · rw [hsplit]
      exact ⟨le_antisymm (hsplit ▸ hbest.length_le) hfar, hfront⟩
    · exact hbest.full y hy hnot
  · rw [if_neg hfar, hsplit, insertIdx_append]
    have hsorted := sorted_insert (hsplit ▸ hbest.sorted) hfront hback
    have hmem : ∀ y, y ∈ front ++ x :: back ↔ y = x ∨ y ∈ best := by
      intro y
      rw [hsplit, List.mem_append, List.mem_append, List.mem_cons]
      tauto
    have hnodup : (front ++ x :: back).Nodup := by
      rw [List.nodup_middle, ← hsplit]
      exact List.nodup_cons.mpr ⟨hnew, hbest.nodup⟩
    have hlength : (front ++ x :: back).length = best.length + 1 := by
      rw [hsplit, List.length_append, List.length_append, List.length_cons]
      omega
    have hall : ∀ y ∈ front ++ x :: back, y ∈ insert x S := by
      intro y hy
      obtain rfl | hy := (hmem y).mp hy
      · exact Or.inl rfl
      · exact Or.inr (hbest.mem y hy)
    have hle := hbest.length_le
    split_ifs with hlong
    · -- the list was full, and its last element gives way
      have hne : front ++ x :: back ≠ [] := by simp
      have hlast := List.dropLast_append_getLast hne
      have hcross := (List.pairwise_append.mp (hlast ▸ hsorted)).2.2
      refine ⟨hnodup.sublist (List.dropLast_sublist _),
        fun y hy => hall y (List.mem_of_mem_dropLast hy), hsorted.sublist (List.dropLast_sublist _),
        by rw [List.length_dropLast]; omega, fun y hy hnot => ?_⟩
      refine ⟨by rw [List.length_dropLast]; omega, fun z hz => ?_⟩
      by_cases hy' : y ∈ front ++ x :: back
      · rw [← hlast, List.mem_append, List.mem_singleton] at hy'
        exact hcross z hz y (List.mem_singleton.mpr (hy'.resolve_left hnot))
      · have hyS : y ∈ S := hy.resolve_left (fun heq => hy' ((hmem y).mpr (Or.inl heq)))
        have hout := (hbest.full y hyS (fun hy => hy' ((hmem y).mpr (Or.inr hy)))).2
        obtain rfl | hz' := (hmem z).mp (List.mem_of_mem_dropLast hz)
        · -- the new one is kept, so that one behind it has given way
          cases hcase : back with
          | nil =>
            rw [hcase, List.dropLast_concat] at hz
            exact absurd (by rw [hsplit]; exact List.mem_append_left _ hz) hnew
          | cons b back' =>
            have hb : b ∈ back := hcase ▸ List.mem_cons_self
            refine (hback b hb).le.trans (hout b ?_)
            rw [hsplit]
            exact List.mem_append_right _ hb
        · exact hout z hz'
    · refine ⟨hnodup, hall, hsorted, not_lt.mp hlong, fun y hy hnot => ?_⟩
      have hyS : y ∈ S := hy.resolve_left (fun heq => hnot ((hmem y).mpr (Or.inl heq)))
      have hfull := (hbest.full y hyS (fun hy => hnot ((hmem y).mpr (Or.inr hy)))).1
      omega

/-- **The best of a set and of further answers**, offered one after another. -/
theorem IsKBest.foldl_offer {xs : List α} (hbest : IsKBest cost k S best) (hnodup : xs.Nodup)
    (hxs : ∀ x ∈ xs, x ∉ S) :
    IsKBest cost k (S ∪ {x | x ∈ xs}) (xs.foldl (fun best x => KBest.offer cost k x best) best) := by
  induction xs generalizing S best with
  | nil => simpa using hbest
  | cons x xs ih =>
    obtain ⟨hx, hnodup⟩ := List.nodup_cons.mp hnodup
    have hstep := ih (hbest.offer (hxs x List.mem_cons_self)) hnodup (fun y hy => by
      rintro (rfl | hS)
      · exact hx hy
      · exact hxs y (List.mem_cons_of_mem _ hy) hS)
    have hset : insert x S ∪ {y | y ∈ xs} = S ∪ {y | y ∈ x :: xs} := by
      ext y
      simp only [Set.mem_union, Set.mem_insert_iff, Set.mem_ofPred_eq, List.mem_cons]
      tauto
    rw [List.foldl_cons, ← hset]
    exact hstep

end Offer

/-! ## Sorting -/

section Sorting

variable {cost : α → γ} {k : ℕ}

/-- **The first of a sorted list are the best of its elements.** -/
theorem isKBest_take_insertionSort {l : List α} (hnodup : l.Nodup) :
    IsKBest cost k {x | x ∈ l}
      ((l.insertionSort (fun x y => cost x ≤ cost y)).take k) := by
  have hperm := List.perm_insertionSort (fun x y => cost x ≤ cost y) l
  have hsorted : (l.insertionSort (fun x y => cost x ≤ cost y)).Pairwise
      (fun x y => cost x ≤ cost y) := by
    have : Std.Total (fun x y : α => cost x ≤ cost y) := ⟨fun x y => le_total _ _⟩
    have : IsTrans α (fun x y : α => cost x ≤ cost y) := ⟨fun _ _ _ => le_trans⟩
    exact List.pairwise_insertionSort _ _
  refine ⟨(hperm.nodup_iff.mpr hnodup).sublist (List.take_sublist _ _),
    fun x hx => hperm.mem_iff.mp (List.mem_of_mem_take hx), hsorted.sublist (List.take_sublist _ _),
    by rw [List.length_take]; exact Nat.min_le_left _ _, fun x hx hnot => ?_⟩
  rw [← List.take_append_drop k (l.insertionSort (fun x y => cost x ≤ cost y))] at hsorted
  have hdrop : x ∈ (l.insertionSort (fun x y => cost x ≤ cost y)).drop k := by
    have hmem := hperm.mem_iff.mpr hx
    rw [← List.take_append_drop k (l.insertionSort (fun x y => cost x ≤ cost y)),
      List.mem_append] at hmem
    exact hmem.resolve_left hnot
  refine ⟨?_, fun y hy => (List.pairwise_append.mp hsorted).2.2 y hy x hdrop⟩
  have hpos := List.length_pos_of_mem hdrop
  rw [List.length_drop] at hpos
  rw [List.length_take]
  omega

/-- **The costs of the best are the smallest costs.** -/
theorem IsKBest.map_cost_eq_take {S : Set α} {best all : List α} (h : IsKBest cost k S best)
    (hnodup : all.Nodup) (hall : ∀ x, x ∈ all ↔ x ∈ S) :
    best.map cost = ((all.map cost).insertionSort (fun a b => a ≤ b)).take k := by
  have hset : {x | x ∈ all} = S := Set.ext hall
  have hsorted := @isKBest_take_insertionSort _ _ _ cost k _ hnodup
  rw [hset] at hsorted
  rw [h.map_cost_eq hsorted, List.map_take]
  congr 1
  exact List.map_insertionSort (fun x y => cost x ≤ cost y) (fun a b => a ≤ b) cost all
    (fun _ _ _ _ => Iff.rfl)

end Sorting

end KBest

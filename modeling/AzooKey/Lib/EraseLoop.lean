import AzooKey.Lib.OrderedMap

/-!
# Loops over a map that erase as they go

`for (it = begin(); it != end();)` over an ordered map, with a body that either
erases the entry at the iterator and goes on with the one behind it, or changes
its value and moves on. An iterator is the key that it stands at, and `none` is
the end, so what stands behind it is looked up in the map as it is by then.

Such a loop visits every entry once (`entries_eraseLoop`): it skips no neighbour
of an entry that was erased.
-/

variable {K V : Type*} [LinearOrder K]

namespace AssocList

/-- An entry between others is erased. -/
theorem erase_append {done rest : List (K × V)} {k : K} {v : V}
    (h : Sorted (done ++ (k, v) :: rest)) : erase k (done ++ (k, v) :: rest) = done ++ rest := by
  obtain ⟨-, hrest, hbefore⟩ := List.pairwise_append.mp h
  have hdone : ∀ e ∈ done, decide (e.1 ≠ k) = true :=
    fun e he => decide_eq_true (hbefore e he _ List.mem_cons_self).ne
  have hbehind : ∀ e ∈ rest, decide (e.1 ≠ k) = true :=
    fun e he => decide_eq_true ((List.pairwise_cons.mp hrest).1 e he).ne'
  rw [erase, List.filter_append, List.filter_eq_self.mpr hdone, List.filter_cons_of_neg (by simp),
    List.filter_eq_self.mpr hbehind]

/-- An entry between others gets another value. -/
theorem assign_append {done rest : List (K × V)} {k : K} {v : V} (v' : V)
    (h : ∀ e ∈ done, e.1 < k) :
    assign k v' (done ++ (k, v) :: rest) = done ++ (k, v') :: rest := by
  induction done with
  | nil => simp [assign, insertWith]
  | cons d done ih =>
    have hd := h d List.mem_cons_self
    have htail := ih (fun e he => h e (List.mem_cons_of_mem _ he))
    unfold assign at htail ⊢
    rw [List.cons_append, insertWith, if_neg hd.asymm, if_neg hd.ne', htail, List.cons_append]

/-- What stands behind a key, between entries before it and entries after it. -/
theorem upperBound_append {done rest : List (K × V)} {k : K} (hdone : ∀ e ∈ done, e.1 ≤ k)
    (hrest : ∀ e ∈ rest, k < e.1) : upperBound (done ++ rest) k = rest.head? := by
  have hnone : done.find? (fun e => decide (k < e.1)) = none :=
    List.find?_eq_none.mpr (fun e he => by simpa using hdone e he)
  rw [upperBound, List.find?_append, hnone, Option.none_or]
  cases rest with
  | nil => rfl
  | cons e rest =>
    rw [List.find?_cons_of_pos (by simpa using hrest e List.mem_cons_self), List.head?_cons]

end AssocList

namespace OrderedMap

/-- `begin()`. -/
def first (m : OrderedMap K V) : Option K := m.entries.head?.map Prod.fst

/-- The iterator behind a key. -/
def next (m : OrderedMap K V) (k : K) : Option K := (m.upperBound k).map Prod.fst

section Loop

variable (f : K → V → Option V × Bool)

/-- So many turns of the loop. The body says what the value becomes, `none` for
an entry that is erased, and whether it changed anything. -/
def visit : ℕ → OrderedMap K V × Bool → Option K → OrderedMap K V × Bool
  | 0, acc, _ => acc
  | _ + 1, acc, none => acc
  | n + 1, acc, some k =>
    match acc.1.find? k with
    | none => acc
    | some v =>
      let left := f k v
      let m := match left.1 with
        | none => acc.1.erase k
        | some v' => acc.1.assign k v'
      visit n (m, acc.2 || left.2) (m.next k)

/-- **The loop**, and whether it changed anything. -/
def eraseLoop (m : OrderedMap K V) : OrderedMap K V × Bool := visit f m.size (m, false) m.first

/-- What the body leaves of an entry. -/
def visited (e : K × V) : Option (K × V) := (f e.1 e.2).1.map (fun v => (e.1, v))


/-- **The turns that are left visit the entries that are left.** -/
theorem visit_eq {n : ℕ} {acc : OrderedMap K V × Bool} {done rest : List (K × V)}
    (hentries : acc.1.entries = done ++ rest) (hn : rest.length ≤ n) :
    (visit f n acc (rest.head?.map Prod.fst)).1.entries = done ++ rest.filterMap (visited f)
      ∧ (visit f n acc (rest.head?.map Prod.fst)).2
        = (acc.2 || rest.any (fun e => (f e.1 e.2).2)) := by
  induction n generalizing acc done rest with
  | zero =>
    have hrest : rest = [] := List.eq_nil_of_length_eq_zero (Nat.le_zero.mp hn)
    rw [hrest] at hentries ⊢
    simp [visit, hentries]
  | succ n ih =>
    cases rest with
    | nil => simp [visit, hentries]
    | cons e rest =>
      obtain ⟨k, v⟩ := e
      have hsorted : AssocList.Sorted (done ++ (k, v) :: rest) := hentries ▸ acc.1.sorted
      obtain ⟨-, hfrom, hbefore⟩ := List.pairwise_append.mp hsorted
      have hbehind : ∀ e ∈ rest, k < e.1 := (List.pairwise_cons.mp hfrom).1
      have hdone : ∀ e ∈ done, e.1 < k := fun e he => hbefore e he _ List.mem_cons_self
      have hfound : acc.1.find? k = some v :=
        acc.1.find?_eq_some_iff.mpr (by rw [hentries]; simp)
      have hlength : rest.length ≤ n := Nat.le_of_succ_le_succ hn
      rw [List.head?_cons, Option.map_some, visit, hfound]
      dsimp only
      cases hf : (f k v).1 with
      | none =>
        have hleft : (acc.1.erase k).entries = done ++ rest := by
          show AssocList.erase k acc.1.entries = _
          rw [hentries, AssocList.erase_append hsorted]
        have hnext : (acc.1.erase k).next k = rest.head?.map Prod.fst := by
          rw [next, upperBound, hleft,
            AssocList.upperBound_append (fun e he => (hdone e he).le) hbehind]
        dsimp only
        rw [hnext]
        obtain ⟨hvisit, hchanged⟩ := @ih (acc.1.erase k, acc.2 || (f k v).2) _ _ hleft hlength
        refine ⟨?_, ?_⟩
        · rw [hvisit, List.filterMap_cons_none (by rw [visited, hf]; rfl)]
        · rw [hchanged, List.any_cons, Bool.or_assoc]
      | some v' =>
        have hleft : (acc.1.assign k v').entries = (done ++ [(k, v')]) ++ rest := by
          show AssocList.assign k v' acc.1.entries = _
          rw [hentries, AssocList.assign_append v' hdone, List.append_assoc, List.singleton_append]
        have hnext : (acc.1.assign k v').next k = rest.head?.map Prod.fst := by
          have hupto : ∀ e ∈ done ++ [(k, v')], e.1 ≤ k := by
            intro e he
            rcases List.mem_append.mp he with he | he
            · exact (hdone e he).le
            · rw [List.mem_singleton.mp he]
          rw [next, upperBound, hleft, AssocList.upperBound_append hupto hbehind]
        dsimp only
        rw [hnext]
        obtain ⟨hvisit, hchanged⟩ :=
          @ih (acc.1.assign k v', acc.2 || (f k v).2) _ _ hleft hlength
        refine ⟨?_, ?_⟩
        · rw [hvisit, List.filterMap_cons_some (by rw [visited, hf]; rfl), List.append_assoc,
            List.singleton_append]
        · rw [hchanged, List.any_cons, Bool.or_assoc]

/-- **The loop visits every entry once.** -/
theorem entries_eraseLoop (m : OrderedMap K V) :
    (eraseLoop f m).1.entries = m.entries.filterMap (visited f) :=
  (@visit_eq K V _ f _ (m, false) [] m.entries rfl le_rfl).1

/-- Whether the body changed anything at some entry. -/
theorem changed_eraseLoop (m : OrderedMap K V) :
    (eraseLoop f m).2 = m.entries.any (fun e => (f e.1 e.2).2) :=
  (@visit_eq K V _ f _ (m, false) [] m.entries rfl le_rfl).2

/-- **What is found after the loop.** -/
theorem find?_eraseLoop (m : OrderedMap K V) (k : K) :
    (eraseLoop f m).1.find? k = (m.find? k).bind (fun v => (f k v).1) := by
  refine Option.ext (fun v => ?_)
  rw [find?_eq_some_iff, entries_eraseLoop, List.mem_filterMap, Option.bind_eq_some_iff]
  constructor
  · rintro ⟨⟨k', w⟩, hmem, hvisited⟩
    obtain ⟨v', hv', heq⟩ := Option.map_eq_some_iff.mp hvisited
    obtain ⟨rfl, rfl⟩ := Prod.mk.inj heq
    exact ⟨w, m.find?_eq_some_iff.mpr hmem, hv'⟩
  · rintro ⟨w, hw, hv⟩
    exact ⟨(k, w), m.find?_eq_some_iff.mp hw, by rw [visited, hv]; rfl⟩

end Loop

end OrderedMap

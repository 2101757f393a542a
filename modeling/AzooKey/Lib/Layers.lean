import AzooKey.Lib.OrderedMap

/-!
# Layers of settings

A setting has the value of the last layer that defines it (`lastOf`). A map into which
the entries of one layer after the other are written, each of those that are admitted,
holds these values (`find?_overlay`, `lastOf_append_singleton`).
-/

namespace Layers

variable {K V : Type*}

/-- **The value of the last layer** that defines a key. -/
def lastOf (layers : List (K → Option V)) (k : K) : Option V :=
  layers.foldl (fun v layer => (layer k).or v) none

/-- One layer more. -/
theorem lastOf_append_singleton (layers : List (K → Option V)) (layer : K → Option V) (k : K) :
    lastOf (layers ++ [layer]) k = (layer k).or (lastOf layers k) := by
  rw [lastOf, List.foldl_append]
  rfl

variable [LinearOrder K]

/-- Write the admitted entries of a layer. -/
def overlay (admits : K → V → Bool) (entries : List (K × V)) (m : OrderedMap K V) : OrderedMap K V :=
  entries.foldl (fun m e => if admits e.1 e.2 then m.assign e.1 e.2 else m) m

/-- A key that no entry has keeps its value. -/
theorem find?_overlay_of_notMem (admits : K → V → Bool) {entries : List (K × V)} {k : K}
    (h : ∀ v, (k, v) ∉ entries) (m : OrderedMap K V) :
    (overlay admits entries m).find? k = m.find? k := by
  induction entries generalizing m with
  | nil => rfl
  | cons e entries ih =>
    have hne : k ≠ e.1 := fun hk => h e.2 (hk ▸ List.mem_cons_self)
    rw [overlay, List.foldl_cons]
    show (overlay admits entries _).find? k = _
    rw [ih (fun v hv => h v (List.mem_cons_of_mem _ hv))]
    split
    · rw [OrderedMap.find?_assign, if_neg hne]
    · rfl

/-- **What is found after a layer was written.** -/
theorem find?_overlay (admits : K → V → Bool) {entries : List (K × V)}
    (hentries : AssocList.Sorted entries) (m : OrderedMap K V) (k : K) :
    (overlay admits entries m).find? k
      = ((AssocList.find? entries k).filter (admits k)).or (m.find? k) := by
  induction entries generalizing m with
  | nil => rfl
  | cons e entries ih =>
    have he := List.pairwise_cons.mp hentries
    rw [overlay, List.foldl_cons]
    show (overlay admits entries _).find? k = _
    by_cases hk : k = e.1
    · subst hk
      have habsent : ∀ v, (e.1, v) ∉ entries := fun v hv => absurd (he.1 _ hv) (lt_irrefl _)
      rw [find?_overlay_of_notMem admits habsent, AssocList.find?, if_pos rfl]
      by_cases hadmits : admits e.1 e.2 = true
      · rw [if_pos hadmits, OrderedMap.find?_assign, if_pos rfl, Option.filter_some_pos hadmits,
          Option.some_or]
      · rw [if_neg hadmits, Option.filter_some_neg (Bool.eq_false_iff.mpr hadmits), Option.none_or]
    · rw [ih he.2, AssocList.find?, if_neg hk]
      split
      · rw [OrderedMap.find?_assign, if_neg hk]
      · rfl

end Layers

import AzooKey.Host.Dispatcher
import AzooKey.Lib.RecentWindow

/-!
# The ring of applied observations

`NoteObservationIdLocked` of `inference-host/src/InferenceEngine.cpp`, with its two
containers: a set of the identifiers that were applied, and a deque of the same
identifiers in the order in which they came. The set answers whether an identifier
was applied, the deque says which one leaves.

The two are a `RecentWindow` of identifiers (`Agrees`), and a call offers an
identifier to it (`agrees_note`). So what a call answers is what the window does,
and the engine of the dispatcher, which has the deque only, answers the same
(`noteObservationId_eq`).
-/

namespace AzooKey.Host

/-- `applied_observation_id_set_` and `applied_observation_ids_`. -/
structure AppliedObservations where
  idSet : Finset Bytes
  ids : List Bytes

namespace AppliedObservations

/-- The ring of a new engine. -/
def empty : AppliedObservations := ⟨∅, []⟩

/-- The loop that evicts: while the deque is too long, its front leaves both
containers. -/
def evict (idSet : Finset Bytes) : List Bytes → AppliedObservations
  | [] => ⟨idSet, []⟩
  | front :: ids =>
    if maxTrackedObservationIds < (front :: ids).length then evict (idSet.erase front) ids
    else ⟨idSet, front :: ids⟩

/-- **`NoteObservationIdLocked`.** -/
def noteObservationIdLocked (s : AppliedObservations) (observationId : Bytes) :
    Bool × AppliedObservations :=
  if observationId.isEmpty then (true, s)
  else if observationId ∈ s.idSet then (false, s)
  else (true, evict (insert observationId s.idSet) (s.ids ++ [observationId]))

/-- The ring after a sequence of calls. -/
def run (s : AppliedObservations) (calls : List Bytes) : AppliedObservations :=
  calls.foldl (fun s id => (s.noteObservationIdLocked id).2) s

/-- The identifiers, other than the empty one, that a sequence of calls accepts. -/
def accepted (s : AppliedObservations) : List Bytes → List Bytes
  | [] => []
  | id :: calls =>
    if id ≠ [] ∧ (s.noteObservationIdLocked id).1 = true then
      id :: accepted (s.noteObservationIdLocked id).2 calls
    else accepted (s.noteObservationIdLocked id).2 calls

/-- **The two containers hold the same identifiers**, without duplicates and not
too many. -/
structure Consistent (s : AppliedObservations) : Prop where
  same : ∀ id, id ∈ s.idSet ↔ id ∈ s.ids
  nodup : s.ids.Nodup
  length_le : s.ids.length ≤ maxTrackedObservationIds
  card_le : s.idSet.card ≤ maxTrackedObservationIds

/-! ## The ring is a window -/

/-- The windows of the engine. -/
abbrev Window : Type := RecentWindow Bytes maxTrackedObservationIds

/-- The ring holds what a window holds. -/
structure Agrees (s : AppliedObservations) (w : Window) : Prop where
  ids : s.ids = w.keys
  idSet : s.idSet = w.keys.toFinset

/-- A ring that is a window is consistent. -/
theorem Agrees.consistent {s : AppliedObservations} {w : Window} (h : s.Agrees w) :
    s.Consistent where
  same id := by rw [h.idSet, h.ids, List.mem_toFinset]
  nodup := h.ids ▸ w.nodup
  length_le := h.ids ▸ w.length_le
  card_le := by
    rw [h.idSet]
    exact (List.toFinset_card_le _).trans w.length_le

/-- The new ring is the new window. -/
theorem agrees_empty : empty.Agrees RecentWindow.empty := ⟨rfl, rfl⟩

/-- **What eviction leaves**: the end of the deque, and its identifiers. -/
theorem evict_eq {ids : List Bytes} (hnodup : ids.Nodup) :
    evict ids.toFinset ids
      = ⟨(ids.rtake maxTrackedObservationIds).toFinset, ids.rtake maxTrackedObservationIds⟩ := by
  induction ids with
  | nil => rfl
  | cons front ids ih =>
    obtain ⟨hfront, hids⟩ := List.nodup_cons.mp hnodup
    rw [evict]
    by_cases hlong : maxTrackedObservationIds < (front :: ids).length
    · have hset : (front :: ids).toFinset.erase front = ids.toFinset := by
        rw [List.toFinset_cons, Finset.erase_insert (by rwa [List.mem_toFinset])]
      have hend : (front :: ids).rtake maxTrackedObservationIds
          = ids.rtake maxTrackedObservationIds := by
        rw [List.length_cons] at hlong
        rw [List.rtake, List.rtake, List.length_cons, Nat.succ_sub (by omega), List.drop_succ_cons]
      rw [if_pos hlong, hset, ih hids, hend]
    · rw [if_neg hlong, List.rtake, Nat.sub_eq_zero_of_le (not_lt.mp hlong), List.drop_zero]

/-- The empty identifier changes nothing. -/
theorem note_nil (s : AppliedObservations) : s.noteObservationIdLocked [] = (true, s) := rfl

/-- **A call offers its identifier to the window.** -/
theorem agrees_note {s : AppliedObservations} {w : Window} (h : s.Agrees w) {id : Bytes}
    (hne : id ≠ []) :
    (s.noteObservationIdLocked id).1 = (w.offer id).1
      ∧ (s.noteObservationIdLocked id).2.Agrees (w.offer id).2 := by
  have hset : id ∈ s.idSet ↔ id ∈ w.keys := by rw [h.idSet, List.mem_toFinset]
  unfold noteObservationIdLocked
  rw [if_neg (by simpa using hne)]
  by_cases hmem : id ∈ w.keys
  · rw [if_pos (hset.mpr hmem), RecentWindow.offer_of_mem hmem]
    exact ⟨rfl, h⟩
  · have hinsert : insert id s.idSet = (w.keys ++ [id]).toFinset := by
      rw [h.idSet]
      ext
      simp
    have hnodup : (w.keys ++ [id]).Nodup :=
      List.nodup_append.mpr ⟨w.nodup, List.nodup_singleton id, fun _ ha _ hb heq =>
        hmem (List.mem_singleton.mp hb ▸ heq ▸ ha)⟩
    rw [if_neg (hset.not.mpr hmem), RecentWindow.offer_of_not_mem hmem, hinsert, h.ids,
      evict_eq hnodup]
    refine ⟨rfl, ⟨?_, ?_⟩⟩
    · show _ = (w.push id hmem).keys
      rw [w.keys_push hmem]
    · rw [w.keys_push hmem]

/-- **A sequence of calls offers its identifiers**, and accepts what the window
does. -/
theorem agrees_run {s : AppliedObservations} {w : Window} (h : s.Agrees w) (calls : List Bytes) :
    (s.run calls).Agrees (w.run (calls.filter (fun id => decide (id ≠ []))))
      ∧ s.accepted calls = w.accepted (calls.filter (fun id => decide (id ≠ []))) := by
  induction calls generalizing s w with
  | nil => exact ⟨h, rfl⟩
  | cons id calls ih =>
    show ((s.noteObservationIdLocked id).2.run calls).Agrees _ ∧ _
    by_cases hne : id = []
    · obtain ⟨hrun, haccepted⟩ := ih h
      rw [hne, note_nil, List.filter_cons_of_neg (by simp), accepted, note_nil,
        if_neg (fun hid => hid.1 rfl)]
      exact ⟨hrun, haccepted⟩
    · obtain ⟨hanswer, hnext⟩ := agrees_note h hne
      obtain ⟨hrun, haccepted⟩ := ih hnext
      rw [List.filter_cons_of_pos (by simpa using hne), accepted, RecentWindow.accepted, hanswer,
        haccepted]
      refine ⟨hrun, ?_⟩
      by_cases hnew : (w.offer id).1 = true
      · rw [if_pos ⟨hne, hnew⟩, if_pos hnew]
      · rw [if_neg (fun hid => hnew hid.2), if_neg hnew]

/-- The ring after any sequence of calls, as a window. -/
theorem exists_agrees (calls : List Bytes) : ∃ w : Window, (empty.run calls).Agrees w
    ∧ w.keys = (empty.accepted calls).rtake maxTrackedObservationIds := by
  obtain ⟨hrun, haccepted⟩ := agrees_run agrees_empty calls
  refine ⟨_, hrun, ?_⟩
  rw [RecentWindow.keys_run, haccepted]
  rfl

/-- **The dispatcher's engine answers as the ring does**, and keeps its deque. -/
theorem noteObservationId_eq {s : AppliedObservations} (h : s.Consistent) {e : Engine}
    (he : e.appliedObservationIds = s.ids) (id : Bytes) :
    (e.noteObservationId id).1 = (s.noteObservationIdLocked id).1
      ∧ (e.noteObservationId id).2.appliedObservationIds = (s.noteObservationIdLocked id).2.ids := by
  have hagrees : s.Agrees ⟨s.ids, h.nodup, h.length_le⟩ :=
    ⟨rfl, Finset.ext (fun id => (h.same id).trans List.mem_toFinset.symm)⟩
  unfold Engine.noteObservationId
  by_cases hne : id = []
  · rw [hne, note_nil]
    exact ⟨rfl, he⟩
  · obtain ⟨hanswer, hnext⟩ := agrees_note hagrees hne
    rw [hanswer, hnext.ids, if_neg (by simpa using hne), he]
    by_cases hmem : id ∈ s.ids
    · rw [if_pos hmem, RecentWindow.offer_of_mem hmem]
      exact ⟨rfl, he⟩
    · rw [if_neg hmem, RecentWindow.offer_of_not_mem hmem]
      exact ⟨rfl, rfl⟩

/-- **What the ring does.** After any sequence of calls, the two containers hold
the same identifiers, without duplicates and not too many; a call answers no if its
identifier is one of the last ones that were accepted, and only then; and an
observation that comes again while not too many newer ones were accepted is
applied once. -/
theorem noteObservationIdLocked_spec :
    (∀ calls, (empty.run calls).Consistent)
      ∧ (∀ calls id, ((empty.run calls).noteObservationIdLocked id).1 = false
          ↔ id ≠ [] ∧ id ∈ (empty.accepted calls).rtake maxTrackedObservationIds)
      ∧ ∀ calls id again, id ≠ [] → ((empty.run calls).noteObservationIdLocked id).1 = true →
          ((empty.run (calls ++ [id])).accepted again).length ≤ maxTrackedObservationIds →
            ((empty.run calls).accepted (id :: again)).count id = 1 := by
  refine ⟨fun calls => ?_, fun calls id => ?_, fun calls id again hne hnew hfew => ?_⟩
  · obtain ⟨w, hw, -⟩ := exists_agrees calls
    exact hw.consistent
  · obtain ⟨w, hw, hkeys⟩ := exists_agrees calls
    by_cases hne : id = []
    · rw [hne, note_nil]
      exact iff_of_false (by simp) (fun h => h.1 rfl)
    · rw [(agrees_note hw hne).1, RecentWindow.offer_eq_false_iff, hkeys]
      exact (and_iff_right hne).symm
  · obtain ⟨w, hw, -⟩ := exists_agrees calls
    have hrun : empty.run (calls ++ [id]) = ((empty.run calls).noteObservationIdLocked id).2 := by
      rw [run, List.foldl_append]
      rfl
    obtain ⟨hanswer, hnext⟩ := agrees_note hw hne
    have hmem : id ∉ w.keys := by
      rw [hanswer] at hnew
      exact fun hmem => absurd (RecentWindow.offer_eq_false_iff.mpr hmem) (by simp [hnew])
    rw [hrun] at hfew
    rw [accepted, if_pos ⟨hne, hnew⟩, List.count_cons_self]
    rw [RecentWindow.offer_of_not_mem hmem] at hnext
    rw [(agrees_run hnext again).2] at hfew ⊢
    -- the identifier is the newest of the window
    have hlast : (w.push id hmem).keys = (w.keys.drop (w.keys.length + 1 - maxTrackedObservationIds))
        ++ id :: [] := by
      have hpos : 0 < maxTrackedObservationIds := Nat.mul_pos (by norm_num) (by norm_num)
      rw [w.keys_push hmem, List.rtake, List.length_append, List.length_singleton,
        List.drop_append_of_le_length]
      exact Nat.sub_le_iff_le_add.mpr (Nat.add_le_add_left hpos _)
    rw [List.count_eq_zero_of_not_mem (RecentWindow.not_mem_accepted hlast hfew)]

end AppliedObservations

end AzooKey.Host

import AzooKey.Lib.Bytes
import AzooKey.Lib.OrderedMap

/-!
# The request scheduler

`inference-host/src/RequestScheduler.cpp`: for every client the requests that
are under way, and a flag for each of them that a `Cancel` sets. Every
function holds the mutex from its first line on, so that each is one step on
the state.

A flag is a `std::shared_ptr`, here an index into the flags that were ever
made: a request keeps its flag when the entry of the request is gone. A
cancel state has its flag before the mutex is released, so it is no option
here.
-/

namespace AzooKey.Host

/-- Request identifiers are ordered as numbers. -/
instance UInt64.linearOrder : LinearOrder UInt64 where
  le_refl a := UInt64.le_refl a
  le_trans _ _ _ := UInt64.le_trans
  le_antisymm _ _ := UInt64.le_antisymm
  le_total := UInt64.le_total
  lt_iff_le_not_ge a b := by
    rw [UInt64.lt_iff_toNat_lt, UInt64.le_iff_toNat_le, UInt64.le_iff_toNat_le]
    omega
  toDecidableLE := inferInstance
  toDecidableEq := inferInstance
  toDecidableLT := inferInstance

/-- A flag, by its place among the flags that were made. -/
abbrev Flag := ℕ

/-- `CancelState`. -/
structure CancelState where
  flag : Flag
  activeCount : ℕ

/-- `ClientState`. -/
structure ClientState where
  latest : UInt64 := 0
  activeConnections : ℕ := 0
  pendingRequests : ℕ := 0
  cancelStates : OrderedMap UInt64 CancelState := .empty

/-- `kMaxPendingRequestsPerClient`. -/
def maxPendingRequestsPerClient : ℕ := 64

namespace ClientState

/-- `PruneInactiveBeforeLocked`. -/
def pruneInactiveBefore (client : ClientState) (requestId : UInt64) : ClientState :=
  let kept := client.cancelStates.filter
    (fun id state => !(decide (id ≤ requestId) && state.activeCount == 0))
  { client with cancelStates := kept }

/-- The request has a cancel state, and is one more that is under way. -/
def activate (client : ClientState) (requestId : UInt64) (state : CancelState) : ClientState :=
  { client with
    cancelStates := client.cancelStates.assign requestId ⟨state.flag, state.activeCount + 1⟩
    pendingRequests := client.pendingRequests + 1 }

/-- `CompleteRequest`, for the state of the client. -/
def completeRequest (client : ClientState) (requestId : UInt64) : ClientState :=
  match client.cancelStates.find? requestId with
  | none => client
  | some state =>
    let pending :=
      if 0 < state.activeCount then client.pendingRequests - 1 else client.pendingRequests
    let count := if 0 < state.activeCount then state.activeCount - 1 else state.activeCount
    let states :=
      if count = 0 then client.cancelStates.erase requestId
      else client.cancelStates.assign requestId ⟨state.flag, count⟩
    { client with cancelStates := states, pendingRequests := pending }

end ClientState

/-- **`RequestScheduler`**: the clients, and the flags that were made. -/
structure Scheduler where
  clients : OrderedMap Bytes ClientState
  flags : List Bool

namespace Scheduler

/-- The scheduler at the start. -/
def initial : Scheduler := ⟨.empty, []⟩

/-- `client_states_[client_id]`, which is made when it is not there. -/
def client (s : Scheduler) (clientId : Bytes) : ClientState := (s.clients.find? clientId).getD {}

/-- The state of a client is written back. -/
def setClient (s : Scheduler) (clientId : Bytes) (client : ClientState) : Scheduler :=
  { s with clients := s.clients.assign clientId client }

/-- Whether a flag is set. -/
def IsSet (s : Scheduler) (flag : Flag) : Prop := s.flags[flag]? = some true

/-- `RegisterClient`. -/
def registerClient (s : Scheduler) (clientId : Bytes) : Scheduler :=
  if clientId = [] then s
  else
    let client := s.client clientId
    s.setClient clientId { client with activeConnections := client.activeConnections + 1 }

/-- `UnregisterClient`. -/
def unregisterClient (s : Scheduler) (clientId : Bytes) : Scheduler :=
  if clientId = [] then s
  else
    match s.clients.find? clientId with
    | none => s
    | some client =>
      if client.activeConnections - 1 = 0 then { s with clients := s.clients.erase clientId }
      else s.setClient clientId { client with activeConnections := client.activeConnections - 1 }

/-- `Cancel`. -/
def cancel (s : Scheduler) (clientId : Bytes) (requestId : UInt64) : Scheduler :=
  let client := s.client clientId
  match client.cancelStates.find? requestId with
  | some state => { s.setClient clientId client with flags := s.flags.set state.flag true }
  | none =>
    if maxPendingRequestsPerClient ≤ client.cancelStates.size then s.setClient clientId client
    else
      let states := client.cancelStates.assign requestId ⟨s.flags.length, 0⟩
      { s.setClient clientId { client with cancelStates := states } with
        flags := s.flags ++ [true] }

/-- The flag that `Cancel` sets, unless the limit is reached. -/
def cancelledFlag (s : Scheduler) (clientId : Bytes) (requestId : UInt64) : Option Flag :=
  match (s.client clientId).cancelStates.find? requestId with
  | some state => some state.flag
  | none =>
    if maxPendingRequestsPerClient ≤ (s.client clientId).cancelStates.size then none
    else some s.flags.length

/-- `TrackCancellation`: the flag, unless a limit is reached. -/
def trackCancellation (s : Scheduler) (clientId : Bytes) (requestId : UInt64) :
    Option Flag × Scheduler :=
  let client := s.client clientId
  if maxPendingRequestsPerClient ≤ client.pendingRequests then (none, s.setClient clientId client)
  else
    match client.cancelStates.find? requestId with
    | some state => (some state.flag, s.setClient clientId (client.activate requestId state))
    | none =>
      let client :=
        if maxPendingRequestsPerClient ≤ client.cancelStates.size then
          client.pruneInactiveBefore (UInt64.ofNat (2 ^ 64 - 1))
        else client
      if maxPendingRequestsPerClient ≤ client.cancelStates.size then
        (none, s.setClient clientId client)
      else
        (some s.flags.length,
          { s.setClient clientId (client.activate requestId ⟨s.flags.length, 0⟩) with
            flags := s.flags ++ [false] })

/-- `CompleteRequest`. -/
def completeRequest (s : Scheduler) (clientId : Bytes) (requestId : UInt64) : Scheduler :=
  match s.clients.find? clientId with
  | none => s
  | some client => s.setClient clientId (client.completeRequest requestId)

/-- `MarkLatest`. -/
def markLatest (s : Scheduler) (clientId : Bytes) (requestId : UInt64) : Scheduler :=
  let client := { s.client clientId with latest := requestId }
  s.setClient clientId (client.pruneInactiveBefore requestId)

/-- What a client is after it is written back. -/
theorem client_setClient (s : Scheduler) (clientId : Bytes) (client : ClientState) (c : Bytes) :
    (s.setClient clientId client).client c = if c = clientId then client else s.client c := by
  show ((s.clients.assign clientId client).find? c).getD {} = _
  rw [OrderedMap.find?_assign]
  split <;> rfl

/-- A client that is written back as it was. -/
theorem client_setClient_self (s : Scheduler) (clientId : Bytes) (c : Bytes) :
    (s.setClient clientId (s.client clientId)).client c = s.client c := by
  rw [client_setClient]
  split
  · rename_i h
    rw [h]
  · rfl

/-- **What `Cancel` does**: it sets the flag of the request, or makes one that is
set, unless the client has too many of them. -/
theorem cancel_cases (s : Scheduler) (clientId : Bytes) (requestId : UInt64) :
    (∃ state, (s.client clientId).cancelStates.find? requestId = some state
        ∧ s.cancelledFlag clientId requestId = some state.flag
        ∧ (∀ c, (s.cancel clientId requestId).client c = s.client c)
        ∧ (s.cancel clientId requestId).flags = s.flags.set state.flag true)
      ∨ (s.client clientId).cancelStates.find? requestId = none
        ∧ ((s.cancelledFlag clientId requestId = none
            ∧ (∀ c, (s.cancel clientId requestId).client c = s.client c)
            ∧ (s.cancel clientId requestId).flags = s.flags)
          ∨ (s.client clientId).cancelStates.size < maxPendingRequestsPerClient
            ∧ s.cancelledFlag clientId requestId = some s.flags.length
            ∧ (∀ c, (s.cancel clientId requestId).client c = if c = clientId then
                { s.client clientId with cancelStates :=
                    (s.client clientId).cancelStates.assign requestId ⟨s.flags.length, 0⟩ }
                else s.client c)
            ∧ (s.cancel clientId requestId).flags = s.flags ++ [true]) := by
  unfold cancel cancelledFlag
  dsimp only
  cases hfind : (s.client clientId).cancelStates.find? requestId with
  | some state => exact Or.inl ⟨state, rfl, rfl, s.client_setClient_self clientId, rfl⟩
  | none =>
    refine Or.inr ⟨rfl, ?_⟩
    dsimp only
    split_ifs with hfull
    · exact Or.inl ⟨rfl, s.client_setClient_self clientId, rfl⟩
    · exact Or.inr ⟨not_le.mp hfull, rfl, s.client_setClient clientId _, rfl⟩

/-- **The state of a client without some of the entries that are not in use.** -/
structure Pruned (client client' : ClientState) : Prop where
  pending : client'.pendingRequests = client.pendingRequests
  states : client'.cancelStates = client.cancelStates
    ∨ ∃ id, client'.cancelStates = (client.pruneInactiveBefore id).cancelStates

/-- **What `TrackCancellation` does**: it makes the request one that is under
way, with the flag that is there or a new one, or it refuses. -/
theorem track_cases (s : Scheduler) (clientId : Bytes) (requestId : UInt64) :
    ((s.trackCancellation clientId requestId).1 = none
        ∧ ∃ client, Pruned (s.client clientId) client
          ∧ client.activeConnections = (s.client clientId).activeConnections
          ∧ (∀ c, (s.trackCancellation clientId requestId).2.client c
              = if c = clientId then client else s.client c)
          ∧ (s.trackCancellation clientId requestId).2.flags = s.flags)
      ∨ (s.client clientId).pendingRequests < maxPendingRequestsPerClient
        ∧ ((∃ state, (s.client clientId).cancelStates.find? requestId = some state
            ∧ (s.trackCancellation clientId requestId).1 = some state.flag
            ∧ (∀ c, (s.trackCancellation clientId requestId).2.client c
                = if c = clientId then (s.client clientId).activate requestId state
                  else s.client c)
            ∧ (s.trackCancellation clientId requestId).2.flags = s.flags)
          ∨ (s.client clientId).cancelStates.find? requestId = none
            ∧ ∃ client, Pruned (s.client clientId) client
              ∧ client.activeConnections = (s.client clientId).activeConnections
              ∧ client.cancelStates.size < maxPendingRequestsPerClient
              ∧ (s.trackCancellation clientId requestId).1 = some s.flags.length
              ∧ (∀ c, (s.trackCancellation clientId requestId).2.client c
                  = if c = clientId then client.activate requestId ⟨s.flags.length, 0⟩
                    else s.client c)
              ∧ (s.trackCancellation clientId requestId).2.flags = s.flags ++ [false]) := by
  unfold trackCancellation
  dsimp only
  split
  · exact Or.inl ⟨rfl, s.client clientId, ⟨rfl, Or.inl rfl⟩, rfl, s.client_setClient clientId _, rfl⟩
  · rename_i hpending
    cases hfind : (s.client clientId).cancelStates.find? requestId with
    | some state =>
      exact Or.inr ⟨not_le.mp hpending, Or.inl ⟨state, rfl, rfl, s.client_setClient clientId _, rfl⟩⟩
    | none =>
      dsimp only
      have hpruned : Pruned (s.client clientId)
          (if maxPendingRequestsPerClient ≤ (s.client clientId).cancelStates.size then
            (s.client clientId).pruneInactiveBefore (UInt64.ofNat (2 ^ 64 - 1))
          else s.client clientId) := by
        split
        · exact ⟨rfl, Or.inr ⟨_, rfl⟩⟩
        · exact ⟨rfl, Or.inl rfl⟩
      have hconnections : (if maxPendingRequestsPerClient ≤ (s.client clientId).cancelStates.size then
            (s.client clientId).pruneInactiveBefore (UInt64.ofNat (2 ^ 64 - 1))
          else s.client clientId).activeConnections = (s.client clientId).activeConnections := by
        split <;> rfl
      generalize (if maxPendingRequestsPerClient ≤ (s.client clientId).cancelStates.size then
            (s.client clientId).pruneInactiveBefore (UInt64.ofNat (2 ^ 64 - 1))
          else s.client clientId) = client at hpruned hconnections ⊢
      split
      · exact Or.inl ⟨rfl, client, hpruned, hconnections, s.client_setClient clientId _, rfl⟩
      · rename_i hsize
        exact Or.inr ⟨not_le.mp hpending, Or.inr ⟨rfl, client, hpruned, hconnections,
          not_le.mp hsize, rfl, s.client_setClient clientId _, rfl⟩⟩

/-- What is left was there. -/
theorem Pruned.find? {client client' : ClientState} (h : Pruned client client') {id : UInt64}
    {state : CancelState} (hfind : client'.cancelStates.find? id = some state) :
    client.cancelStates.find? id = some state := by
  rcases h.states with hstates | ⟨id', hstates⟩
  · rwa [hstates] at hfind
  · rw [hstates] at hfind
    change (client.cancelStates.filter _).find? id = some state at hfind
    rw [OrderedMap.find?_filter] at hfind
    exact (Option.filter_eq_some_iff.mp hfind).1

/-- What is in use is left. -/
theorem Pruned.find?_active {client client' : ClientState} (h : Pruned client client') {id : UInt64}
    {state : CancelState} (hfind : client.cancelStates.find? id = some state)
    (hactive : 0 < state.activeCount) : client'.cancelStates.find? id = some state := by
  rcases h.states with hstates | ⟨id', hstates⟩
  · rwa [hstates]
  · rw [hstates]
    show (client.cancelStates.filter _).find? id = some state
    rw [OrderedMap.find?_filter, hfind, Option.filter_some, if_pos]
    simp [hactive.ne']

end Scheduler

/-! ## The requests of a client -/

/-- **The state of a client is right for the requests that are under way**: how
many there are of each identifier. -/
structure ClientState.Counts (client : ClientState) (count : UInt64 → ℕ) : Prop where
  pending : client.pendingRequests = client.cancelStates.total CancelState.activeCount
  pending_le : client.pendingRequests ≤ maxPendingRequestsPerClient
  size_le : client.cancelStates.size ≤ maxPendingRequestsPerClient
  active : ∀ id state, client.cancelStates.find? id = some state → state.activeCount = count id

namespace ClientState.Counts

variable {client : ClientState} {count : UInt64 → ℕ}

/-- A client without requests. -/
theorem empty : ClientState.Counts {} (fun _ => 0) where
  pending := rfl
  pending_le := Nat.zero_le _
  size_le := Nat.zero_le _
  active := fun _ _ h => by cases h

/-- Pruning keeps the requests. -/
theorem pruneInactiveBefore (h : client.Counts count) (requestId : UInt64) :
    (client.pruneInactiveBefore requestId).Counts count where
  pending := by
    show client.pendingRequests = (client.cancelStates.filter _).total _
    rw [OrderedMap.total_filter]
    · exact h.pending
    · intro id state _ hdropped
      simp only [Bool.not_eq_false', Bool.and_eq_true, beq_iff_eq] at hdropped
      exact hdropped.2
  pending_le := h.pending_le
  size_le := (client.cancelStates.size_filter_le _).trans h.size_le
  active := by
    intro id state hfind
    change (client.cancelStates.filter _).find? id = some state at hfind
    rw [OrderedMap.find?_filter] at hfind
    exact h.active id state (Option.filter_eq_some_iff.mp hfind).1

/-- A state that differs in nothing that counts. -/
theorem congr {client' : ClientState} (h : client.Counts count)
    (hpending : client'.pendingRequests = client.pendingRequests)
    (hstates : client'.cancelStates = client.cancelStates) : client'.Counts count where
  pending := by rw [hpending, hstates]; exact h.pending
  pending_le := by rw [hpending]; exact h.pending_le
  size_le := by rw [hstates]; exact h.size_le
  active := by rw [hstates]; exact h.active

/-- Entries that are not in use do not count. -/
theorem pruned {client' : ClientState} (h : client.Counts count)
    (hpruned : Scheduler.Pruned client client') : client'.Counts count := by
  rcases hpruned.states with hstates | ⟨id, hstates⟩
  · exact h.congr hpruned.pending hstates
  · exact (h.pruneInactiveBefore id).congr hpruned.pending hstates

/-- One entry more takes one place more, unless it was there. -/
theorem size_assign (m : OrderedMap UInt64 CancelState) (id : UInt64) (state : CancelState) :
    (m.assign id state).size + (m.find? id).elim 0 (fun _ => 1) = m.size + 1 := by
  rw [OrderedMap.size_eq_total, OrderedMap.size_eq_total]
  exact m.total_assign (fun _ => 1) id state

/-- **A flag is made for a request that is not under way.** -/
theorem assign_new (h : client.Counts count) {id : UInt64} (hnone : client.cancelStates.find? id = none)
    (hsize : client.cancelStates.size < maxPendingRequestsPerClient) (hcount : count id = 0)
    (flag : Flag) :
    ({ client with cancelStates := client.cancelStates.assign id ⟨flag, 0⟩ } : ClientState).Counts
      count where
  pending := by
    have htotal := client.cancelStates.total_assign CancelState.activeCount id ⟨flag, 0⟩
    rw [hnone] at htotal
    exact h.pending.trans htotal.symm
  pending_le := h.pending_le
  size_le := by
    have hassign := size_assign client.cancelStates id ⟨flag, 0⟩
    rw [hnone, Option.elim_none] at hassign
    show (client.cancelStates.assign id ⟨flag, 0⟩).size ≤ _
    omega
  active := by
    intro id' state hfind
    change (client.cancelStates.assign id ⟨flag, 0⟩).find? id' = some state at hfind
    rw [OrderedMap.find?_assign] at hfind
    split at hfind
    · rename_i hid
      obtain rfl := Option.some.inj hfind
      rw [hid, hcount]
    · exact h.active id' state hfind

/-- **A request more is under way.** -/
theorem activate (h : client.Counts count) {id : UInt64} {state : CancelState}
    (hpending : client.pendingRequests < maxPendingRequestsPerClient)
    (hstate : client.cancelStates.find? id = some state
      ∨ client.cancelStates.find? id = none ∧ state.activeCount = 0 ∧ count id = 0
        ∧ client.cancelStates.size < maxPendingRequestsPerClient) :
    (client.activate id state).Counts (Function.update count id (count id + 1)) where
  pending := by
    have htotal := client.cancelStates.total_assign CancelState.activeCount id
      ⟨state.flag, state.activeCount + 1⟩
    have hpending := h.pending
    show client.pendingRequests + 1 = (client.cancelStates.assign id _).total _
    rcases hstate with hfind | ⟨hfind, hzero, -⟩
    · rw [hfind, Option.elim_some] at htotal
      dsimp only at htotal
      omega
    · rw [hfind, Option.elim_none] at htotal
      dsimp only at htotal
      omega
  pending_le := hpending
  size_le := by
    have hassign := size_assign client.cancelStates id ⟨state.flag, state.activeCount + 1⟩
    have hle := h.size_le
    show (client.cancelStates.assign id _).size ≤ _
    rcases hstate with hfind | ⟨hfind, -, -, hsize⟩
    · rw [hfind, Option.elim_some] at hassign
      omega
    · rw [hfind, Option.elim_none] at hassign
      omega
  active := by
    intro id' state' hfind
    change (client.cancelStates.assign id _).find? id' = some state' at hfind
    rw [OrderedMap.find?_assign] at hfind
    by_cases hid : id' = id
    · rw [if_pos hid] at hfind
      obtain rfl := Option.some.inj hfind
      rw [hid, Function.update_self]
      rcases hstate with hfind | ⟨-, hzero, hcount, -⟩
      · rw [h.active id state hfind]
      · rw [hzero, hcount]
    · rw [if_neg hid] at hfind
      rw [Function.update_of_ne hid]
      exact h.active id' state' hfind

/-- **A request is done.** -/
theorem completeRequest (h : client.Counts count) {id : UInt64} {state : CancelState}
    (hfind : client.cancelStates.find? id = some state) (hcount : 0 < count id) :
    (client.completeRequest id).Counts (Function.update count id (count id - 1)) := by
  have hactive := h.active id state hfind
  have hpos : 0 < state.activeCount := by omega
  have hpending := h.pending
  unfold ClientState.completeRequest
  rw [hfind]
  dsimp only
  rw [if_pos hpos, if_pos hpos]
  by_cases hzero : state.activeCount - 1 = 0
  · rw [if_pos hzero]
    have htotal := client.cancelStates.total_erase CancelState.activeCount id
    rw [hfind, Option.elim_some] at htotal
    refine ⟨?_, (Nat.sub_le _ _).trans h.pending_le, ?_, fun id' state' hfind' => ?_⟩
    · show client.pendingRequests - 1 = (client.cancelStates.erase id).total _
      omega
    · have hsize := client.cancelStates.total_erase (fun _ => 1) id
      rw [← OrderedMap.size_eq_total, ← OrderedMap.size_eq_total] at hsize
      show (client.cancelStates.erase id).size ≤ _
      have := h.size_le
      omega
    · change (client.cancelStates.erase id).find? id' = some state' at hfind'
      rw [OrderedMap.find?_erase] at hfind'
      by_cases hid : id' = id
      · rw [if_pos hid] at hfind'
        cases hfind'
      · rw [if_neg hid] at hfind'
        rw [Function.update_of_ne hid]
        exact h.active id' state' hfind'
  · rw [if_neg hzero]
    have htotal := client.cancelStates.total_assign CancelState.activeCount id
      ⟨state.flag, state.activeCount - 1⟩
    rw [hfind, Option.elim_some] at htotal
    dsimp only at htotal
    refine ⟨?_, (Nat.sub_le _ _).trans h.pending_le, ?_, fun id' state' hfind' => ?_⟩
    · show client.pendingRequests - 1 = (client.cancelStates.assign id _).total _
      omega
    · have hassign := size_assign client.cancelStates id ⟨state.flag, state.activeCount - 1⟩
      rw [hfind, Option.elim_some] at hassign
      show (client.cancelStates.assign id _).size ≤ _
      have := h.size_le
      omega
    · change (client.cancelStates.assign id _).find? id' = some state' at hfind'
      rw [OrderedMap.find?_assign] at hfind'
      by_cases hid : id' = id
      · rw [if_pos hid] at hfind'
        obtain rfl := Option.some.inj hfind'
        rw [hid, Function.update_self, ← hactive]
      · rw [if_neg hid] at hfind'
        rw [Function.update_of_ne hid]
        exact h.active id' state' hfind'

end ClientState.Counts

end AzooKey.Host

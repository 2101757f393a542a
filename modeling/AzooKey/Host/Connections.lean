import AzooKey.Host.RequestScheduler

/-!
# The connections of the host

Any number of connections over one scheduler, each with the calls that
`Dispatcher.cpp` makes: it registers its client, tracks requests, marks some as
the latest, completes each that was not refused (`RequestCompletionGuard`),
cancels any, and unregisters when none of its requests is under way. Two
connections may have the same client, and two requests the same identifier.
The calls of the connections come in any order.

`Consistent` is what all states of all runs have in common: a client counts the
connections and requests that there are, a request that is under way has an
entry with its flag, and every flag has an owner, the one client and request it
was ever given to and cancelled for.
-/

namespace AzooKey.Host

/-- A connection: its client, and its requests that are under way with the flags
that `TrackCancellation` returned. -/
structure Connection where
  client : Bytes
  inFlight : List (UInt64 × Flag)

/-- The host: the scheduler and the connections. -/
structure HostState where
  scheduler : Scheduler
  connections : List Connection

/-- A call, with what it answers; a `Cancel`, with the flag that it sets. -/
inductive Event
  | registered (clientId : Bytes)
  | tracked (clientId : Bytes) (requestId : UInt64) (flag : Option Flag)
  | markedLatest (clientId : Bytes) (requestId : UInt64)
  | completed (clientId : Bytes) (requestId : UInt64) (flag : Flag)
  | cancelled (clientId : Bytes) (requestId : UInt64) (flag : Option Flag)
  | unregistered (clientId : Bytes)

/-- A connection with what `TrackCancellation` returned for a request. -/
def Connection.track (k : Connection) (requestId : UInt64) : Option Flag → Connection
  | none => k
  | some flag => { k with inFlight := (requestId, flag) :: k.inFlight }

/-- **A call of one of the connections.** -/
inductive Step : HostState → Event → HostState → Prop
  | register (s : Scheduler) (ks : List Connection) (clientId : Bytes) :
      Step ⟨s, ks⟩ (.registered clientId) ⟨s.registerClient clientId, ⟨clientId, []⟩ :: ks⟩
  | track (s : Scheduler) (before after : List Connection) (k : Connection) (requestId : UInt64) :
      Step ⟨s, before ++ k :: after⟩
        (.tracked k.client requestId (s.trackCancellation k.client requestId).1)
        ⟨(s.trackCancellation k.client requestId).2,
          before ++ k.track requestId (s.trackCancellation k.client requestId).1 :: after⟩
  | markLatest (s : Scheduler) (before after : List Connection) (k : Connection)
      (requestId : UInt64) :
      Step ⟨s, before ++ k :: after⟩ (.markedLatest k.client requestId)
        ⟨s.markLatest k.client requestId, before ++ k :: after⟩
  | complete (s : Scheduler) (before after : List Connection) (clientId : Bytes)
      (xs ys : List (UInt64 × Flag)) (requestId : UInt64) (flag : Flag) :
      Step ⟨s, before ++ ⟨clientId, xs ++ (requestId, flag) :: ys⟩ :: after⟩
        (.completed clientId requestId flag)
        ⟨s.completeRequest clientId requestId, before ++ ⟨clientId, xs ++ ys⟩ :: after⟩
  | cancel (s : Scheduler) (before after : List Connection) (k : Connection) (requestId : UInt64) :
      Step ⟨s, before ++ k :: after⟩
        (.cancelled k.client requestId (s.cancelledFlag k.client requestId))
        ⟨s.cancel k.client requestId, before ++ k :: after⟩
  | unregister (s : Scheduler) (before after : List Connection) (clientId : Bytes) :
      Step ⟨s, before ++ ⟨clientId, []⟩ :: after⟩ (.unregistered clientId)
        ⟨s.unregisterClient clientId, before ++ after⟩

/-- **The states that some run reaches**, with the calls of the run, the last one
first. -/
inductive Reachable : List Event → HostState → Prop
  | start : Reachable [] ⟨.initial, []⟩
  | step {log : List Event} {s s' : HostState} {e : Event} : Reachable log s → Step s e s' →
      Reachable (e :: log) s'

/-! ## The requests that are under way -/

/-- A request: its client, its identifier and the flag that was returned for
it. -/
structure Request where
  client : Bytes
  id : UInt64
  flag : Flag

/-- The requests of a connection. -/
def Connection.requests (k : Connection) : List Request :=
  k.inFlight.map (fun r => ⟨k.client, r.1, r.2⟩)

/-- The requests that are under way. -/
def requests (ks : List Connection) : List Request := ks.flatMap Connection.requests

/-- How many requests of a client are under way under an identifier. -/
def count (ks : List Connection) (clientId : Bytes) (id : UInt64) : ℕ :=
  (requests ks).countP (fun r => r.client = clientId ∧ r.id = id)

/-- How many connections a client has. -/
def connectionsOf (ks : List Connection) (clientId : Bytes) : ℕ :=
  ks.countP (fun k => k.client = clientId)

/-- The requests of some connections and one more. -/
theorem requests_append (before after : List Connection) (k : Connection) :
    requests (before ++ k :: after) = requests before ++ (k.requests ++ requests after) := by
  rw [requests, List.flatMap_append, List.flatMap_cons]
  rfl

/-- A request that is under way counts. -/
theorem count_pos {ks : List Connection} {r : Request} (h : r ∈ requests ks) :
    0 < count ks r.client r.id :=
  List.countP_pos_iff.mpr ⟨r, h, by simp⟩

/-- What counts is a request that is under way. -/
theorem exists_request {ks : List Connection} {clientId : Bytes} {id : UInt64}
    (h : 0 < count ks clientId id) : ∃ r ∈ requests ks, r.client = clientId ∧ r.id = id := by
  obtain ⟨r, hr, hp⟩ := List.countP_pos_iff.mp h
  exact ⟨r, hr, by simpa using hp⟩

/-- A request more. -/
theorem count_track (before after : List Connection) (k : Connection) (id : UInt64) (flag : Flag)
    (c : Bytes) : count (before ++ k.track id (some flag) :: after) c
      = if c = k.client then
          Function.update (count (before ++ k :: after) c) id (count (before ++ k :: after) c id + 1)
        else count (before ++ k :: after) c := by
  funext id'
  have hone : count (before ++ k.track id (some flag) :: after) c id'
      = (if k.client = c ∧ id = id' then 1 else 0) + count (before ++ k :: after) c id' := by
    unfold count
    rw [requests_append, requests_append]
    simp only [Connection.track, Connection.requests, List.map_cons, List.cons_append,
      List.countP_append, List.countP_cons, decide_eq_true_eq]
    omega
  rw [hone]
  by_cases hc : c = k.client
  · rw [if_pos hc]
    by_cases hid : id' = id
    · rw [if_pos ⟨hc.symm, hid.symm⟩, hid, Function.update_self, Nat.add_comm]
    · rw [if_neg (fun h => hid h.2.symm), Function.update_of_ne hid, Nat.zero_add]
  · rw [if_neg hc, if_neg (fun h => hc h.1.symm), Nat.zero_add]

/-- A request less. -/
theorem count_complete (before after : List Connection) (clientId : Bytes)
    (xs ys : List (UInt64 × Flag)) (id : UInt64) (flag : Flag) (c : Bytes) :
    count (before ++ ⟨clientId, xs ++ ys⟩ :: after) c
      = if c = clientId then
          Function.update (count (before ++ ⟨clientId, xs ++ (id, flag) :: ys⟩ :: after) c) id
            (count (before ++ ⟨clientId, xs ++ (id, flag) :: ys⟩ :: after) c id - 1)
        else count (before ++ ⟨clientId, xs ++ (id, flag) :: ys⟩ :: after) c := by
  funext id'
  have hone : count (before ++ ⟨clientId, xs ++ (id, flag) :: ys⟩ :: after) c id'
      = (if clientId = c ∧ id = id' then 1 else 0)
        + count (before ++ ⟨clientId, xs ++ ys⟩ :: after) c id' := by
    unfold count
    rw [requests_append, requests_append]
    simp only [Connection.requests, List.map_append, List.map_cons, List.countP_append,
      List.countP_cons, decide_eq_true_eq]
    omega
  by_cases hc : c = clientId
  · rw [if_pos hc]
    by_cases hid : id' = id
    · subst hid
      rw [if_pos ⟨hc.symm, rfl⟩] at hone
      rw [Function.update_self]
      omega
    · rw [if_neg (fun h => hid h.2.symm)] at hone
      rw [Function.update_of_ne hid]
      omega
  · rw [if_neg (fun h => hc h.1.symm)] at hone
    rw [if_neg hc]
    omega

/-- A connection without requests adds none. -/
theorem requests_idle (before after : List Connection) (clientId : Bytes) :
    requests (before ++ ⟨clientId, []⟩ :: after) = requests (before ++ after) := by
  rw [requests_append, requests, requests, requests, List.flatMap_append]
  rfl

/-- Without a connection a client has no requests. -/
theorem count_eq_zero {ks : List Connection} {clientId : Bytes} (h : connectionsOf ks clientId = 0)
    (id : UInt64) : count ks clientId id = 0 := by
  by_contra hne
  obtain ⟨r, hr, hclient, -⟩ := exists_request (Nat.pos_of_ne_zero hne)
  obtain ⟨k, hk, hkr⟩ := List.mem_flatMap.mp hr
  obtain ⟨p, -, rfl⟩ := List.mem_map.mp hkr
  exact List.countP_eq_zero.mp h k hk (decide_eq_true hclient)

/-! ## What every run keeps -/

/-- The client, the request and the flag that a call brings together. -/
def Event.given : Event → Option Request
  | .tracked clientId requestId (some flag) => some ⟨clientId, requestId, flag⟩
  | .cancelled clientId requestId (some flag) => some ⟨clientId, requestId, flag⟩
  | _ => none

/-- **The scheduler agrees with the connections**, and every flag has one owner. -/
structure Consistent (log : List Event) (s : HostState) (owner : Flag → Bytes × UInt64) : Prop where
  counts : ∀ c, (s.scheduler.client c).Counts (count s.connections c)
  registered : ∀ c, c ≠ [] →
    (s.scheduler.client c).activeConnections = connectionsOf s.connections c
  entry : ∀ c id state, (s.scheduler.client c).cancelStates.find? id = some state →
    state.flag < s.scheduler.flags.length ∧ owner state.flag = (c, id)
  request : ∀ r ∈ requests s.connections, ∃ state,
    (s.scheduler.client r.client).cancelStates.find? r.id = some state ∧ state.flag = r.flag
  logged : ∀ e ∈ log, ∀ r ∈ e.given,
    r.flag < s.scheduler.flags.length ∧ owner r.flag = (r.client, r.id)
  set : ∀ flag, s.scheduler.IsSet flag → ∃ c id, Event.cancelled c id (some flag) ∈ log

namespace Consistent

variable {log : List Event} {s : HostState} {owner : Flag → Bytes × UInt64} {e : Event}

/-- Nothing is under way at the start. -/
theorem start : Consistent [] ⟨.initial, []⟩ (fun _ => ([], 0)) where
  counts := fun _ => .empty
  registered := fun _ _ => rfl
  entry := fun _ _ _ h => by cases h
  request := fun _ h => by cases h
  logged := fun _ h => by cases h
  set := fun _ h => by cases h

/-- A request without a cancel state is not under way. -/
theorem count_eq_zero_of_none (h : Consistent log s owner) {c : Bytes} {id : UInt64}
    (hnone : (s.scheduler.client c).cancelStates.find? id = none) : count s.connections c id = 0 := by
  by_contra hne
  obtain ⟨r, hr, rfl, rfl⟩ := exists_request (Nat.pos_of_ne_zero hne)
  obtain ⟨state, hstate, -⟩ := h.request r hr
  rw [hnone] at hstate
  cases hstate

/-- A step that sets no flag. -/
theorem set_cons (h : Consistent log s owner) {s' : HostState}
    (hflags : s'.scheduler.flags = s.scheduler.flags) (flag : Flag)
    (hset : s'.scheduler.IsSet flag) : ∃ c id, Event.cancelled c id (some flag) ∈ e :: log := by
  unfold Scheduler.IsSet at hset
  rw [hflags] at hset
  obtain ⟨c, id, hmem⟩ := h.set flag hset
  exact ⟨c, id, List.mem_cons_of_mem _ hmem⟩

/-- A step that brings no request and flag together. -/
theorem logged_cons (h : Consistent log s owner) {s' : HostState}
    (hflags : s'.scheduler.flags = s.scheduler.flags) (he : e.given = none) :
    ∀ e' ∈ e :: log, ∀ r ∈ e'.given,
      r.flag < s'.scheduler.flags.length ∧ owner r.flag = (r.client, r.id) := by
  intro e' hmem r hr
  rw [hflags]
  rcases List.mem_cons.mp hmem with rfl | hmem
  · rw [he] at hr
    cases hr
  · exact h.logged e' hmem r hr

/-- One client is changed, and keeps what is in use. -/
theorem pruned_updated {sch sch' : Scheduler} {clientId : Bytes} {client : ClientState}
    (hclient : ∀ c, sch'.client c = if c = clientId then client else sch.client c)
    (hself : Scheduler.Pruned (sch.client clientId) client) (c : Bytes) :
    Scheduler.Pruned (sch.client c) (sch'.client c) := by
  rw [hclient]
  split
  · rename_i heq
    rw [heq]
    exact hself
  · exact ⟨rfl, Or.inl rfl⟩

/-- One client is changed, and keeps the number of its connections. -/
theorem registered_updated {sch sch' : Scheduler} {ks ks' : List Connection} {clientId : Bytes}
    {client : ClientState} (h : Consistent log ⟨sch, ks⟩ owner)
    (hclient : ∀ c, sch'.client c = if c = clientId then client else sch.client c)
    (hself : client.activeConnections = (sch.client clientId).activeConnections)
    (hconnections : ∀ c, connectionsOf ks' c = connectionsOf ks c) (c : Bytes) (hc : c ≠ []) :
    (sch'.client c).activeConnections = connectionsOf ks' c := by
  refine Eq.trans ?_ ((h.registered c hc).trans (hconnections c).symm)
  rw [hclient]
  split
  · rename_i heq
    rw [heq]
    exact hself
  · rfl

/-- **A step that only drops what is not in use.** -/
theorem keep (h : Consistent log s owner) {s' : HostState}
    (hclient : ∀ c, Scheduler.Pruned (s.scheduler.client c) (s'.scheduler.client c))
    (hflags : s'.scheduler.flags = s.scheduler.flags)
    (hrequests : requests s'.connections = requests s.connections)
    (hregistered : ∀ c, c ≠ [] →
      (s'.scheduler.client c).activeConnections = connectionsOf s'.connections c)
    (he : e.given = none) : Consistent (e :: log) s' owner where
  counts := by
    intro c
    have hcount : count s'.connections c = count s.connections c := by
      funext id
      rw [count, hrequests, count]
    rw [hcount]
    exact (h.counts c).pruned (hclient c)
  registered := hregistered
  entry := by
    intro c id state hfind
    rw [hflags]
    exact h.entry c id state ((hclient c).find? hfind)
  request := by
    intro r hr
    rw [hrequests] at hr
    obtain ⟨state, hfind, hflag⟩ := h.request r hr
    refine ⟨state, (hclient r.client).find?_active hfind ?_, hflag⟩
    rw [(h.counts r.client).active r.id state hfind]
    exact count_pos hr
  logged := h.logged_cons hflags he
  set := h.set_cons hflags

/-- Registering counts the connection. -/
theorem register {sch : Scheduler} {ks : List Connection} (h : Consistent log ⟨sch, ks⟩ owner)
    (clientId : Bytes) : Consistent (.registered clientId :: log)
      ⟨sch.registerClient clientId, ⟨clientId, []⟩ :: ks⟩ owner := by
  have hclient : ∀ c, (sch.registerClient clientId).client c
      = if clientId ≠ [] ∧ c = clientId then
          { sch.client c with activeConnections := (sch.client c).activeConnections + 1 }
        else sch.client c := by
    intro c
    unfold Scheduler.registerClient
    by_cases hempty : clientId = []
    · rw [if_pos hempty, if_neg (fun h => h.1 hempty)]
    · rw [if_neg hempty]
      dsimp only
      rw [Scheduler.client_setClient]
      by_cases hc : c = clientId
      · rw [if_pos hc, if_pos ⟨hempty, hc⟩, hc]
      · rw [if_neg hc, if_neg (fun h => hc h.2)]
  have hflags : (sch.registerClient clientId).flags = sch.flags := by
    unfold Scheduler.registerClient
    split <;> rfl
  refine h.keep (fun c => ?_) hflags rfl (fun c hc => ?_) rfl
  · show Scheduler.Pruned (sch.client c) ((sch.registerClient clientId).client c)
    rw [hclient]
    split <;> exact ⟨rfl, Or.inl rfl⟩
  · show ((sch.registerClient clientId).client c).activeConnections = _
    have hbefore : (sch.client c).activeConnections = connectionsOf ks c := h.registered c hc
    rw [hclient, connectionsOf, List.countP_cons]
    by_cases heq : c = clientId
    · rw [if_pos ⟨heq ▸ hc, heq⟩, if_pos (decide_eq_true heq.symm)]
      dsimp only
      rw [hbefore]
      rfl
    · rw [if_neg (fun h => heq h.2), if_neg (by simpa using Ne.symm heq), hbefore]
      rfl

/-- Marking drops what is not in use. -/
theorem markLatest {sch : Scheduler} {ks : List Connection} (h : Consistent log ⟨sch, ks⟩ owner)
    (clientId : Bytes) (requestId : UInt64) : Consistent (.markedLatest clientId requestId :: log)
      ⟨sch.markLatest clientId requestId, ks⟩ owner := by
  have hclient : ∀ c, (sch.markLatest clientId requestId).client c = if c = clientId then
      ({ sch.client clientId with latest := requestId } : ClientState).pruneInactiveBefore requestId
      else sch.client c := sch.client_setClient clientId _
  exact h.keep (pruned_updated hclient ⟨rfl, Or.inr ⟨requestId, rfl⟩⟩) rfl rfl
    (h.registered_updated hclient rfl (fun _ => rfl)) rfl

/-- **A new flag has the owner it was made for.** -/
theorem newFlag (h : Consistent log s owner) {s' : HostState} (clientId : Bytes) (requestId : UInt64)
    {b : Bool} (hflags : s'.scheduler.flags = s.scheduler.flags ++ [b])
    (hcounts : ∀ c, (s'.scheduler.client c).Counts (count s'.connections c))
    (hregistered : ∀ c, c ≠ [] →
      (s'.scheduler.client c).activeConnections = connectionsOf s'.connections c)
    (hentry : ∀ c id state, (s'.scheduler.client c).cancelStates.find? id = some state →
      (s.scheduler.client c).cancelStates.find? id = some state
        ∨ c = clientId ∧ id = requestId ∧ state.flag = s.scheduler.flags.length)
    (hrequest : ∀ r ∈ requests s'.connections, ∃ state,
      (s'.scheduler.client r.client).cancelStates.find? r.id = some state ∧ state.flag = r.flag)
    (hgiven : e.given = some ⟨clientId, requestId, s.scheduler.flags.length⟩)
    (hset : b = true → e = .cancelled clientId requestId (some s.scheduler.flags.length)) :
    Consistent (e :: log) s'
      (Function.update owner s.scheduler.flags.length (clientId, requestId)) where
  counts := hcounts
  registered := hregistered
  entry := by
    intro c id state hfind
    rw [hflags, List.length_append, List.length_singleton]
    rcases hentry c id state hfind with hold | ⟨rfl, rfl, hflag⟩
    · obtain ⟨hlt, howner⟩ := h.entry c id state hold
      rw [Function.update_of_ne hlt.ne]
      exact ⟨hlt.trans (Nat.lt_succ_self _), howner⟩
    · rw [hflag, Function.update_self]
      exact ⟨Nat.lt_succ_self _, rfl⟩
  request := hrequest
  logged := by
    intro e' hmem r hr
    rw [hflags, List.length_append, List.length_singleton]
    rcases List.mem_cons.mp hmem with rfl | hmem
    · rw [hgiven] at hr
      obtain rfl := Option.some.inj hr
      rw [Function.update_self]
      exact ⟨Nat.lt_succ_self _, rfl⟩
    · obtain ⟨hlt, howner⟩ := h.logged e' hmem r hr
      rw [Function.update_of_ne hlt.ne]
      exact ⟨hlt.trans (Nat.lt_succ_self _), howner⟩
  set := by
    intro flag hflag
    unfold Scheduler.IsSet at hflag
    rw [hflags] at hflag
    by_cases heq : flag = s.scheduler.flags.length
    · rw [heq, List.getElem?_concat_length] at hflag
      rw [heq, hset (Option.some.inj hflag)]
      exact ⟨clientId, requestId, List.mem_cons_self⟩
    · have hle := (List.getElem?_eq_some_iff.mp hflag).1
      rw [List.length_append, List.length_singleton] at hle
      have hlt : flag < s.scheduler.flags.length := lt_of_le_of_ne (Nat.lt_succ_iff.mp hle) heq
      rw [List.getElem?_append_left hlt] at hflag
      obtain ⟨c, id, hmem⟩ := h.set flag hflag
      exact ⟨c, id, List.mem_cons_of_mem _ hmem⟩

/-- **Cancelling sets the flag of the request, or one that is made for it.** -/
theorem cancel {sch : Scheduler} {ks : List Connection} (h : Consistent log ⟨sch, ks⟩ owner)
    (clientId : Bytes) (requestId : UInt64) : ∃ owner', Consistent
      (.cancelled clientId requestId (sch.cancelledFlag clientId requestId) :: log)
      ⟨sch.cancel clientId requestId, ks⟩ owner' := by
  rcases sch.cancel_cases clientId requestId with ⟨state, hfind, hcancelled, hclient, hflags⟩ |
    ⟨hnone, ⟨hcancelled, hclient, hflags⟩ | ⟨hsize, hcancelled, hclient, hflags⟩⟩
  all_goals rw [hcancelled]
  · -- the flag that is there
    refine ⟨owner, fun c => ?_, fun c hc => ?_, fun c id state' hfind' => ?_, fun r hr => ?_,
      fun e hmem r hr => ?_, fun flag hset => ?_⟩
    · rw [hclient]
      exact h.counts c
    · rw [hclient]
      exact h.registered c hc
    · rw [hclient] at hfind'
      rw [hflags, List.length_set]
      exact h.entry c id state' hfind'
    · rw [hclient]
      exact h.request r hr
    · rw [hflags, List.length_set]
      rcases List.mem_cons.mp hmem with rfl | hmem
      · obtain rfl := Option.some.inj hr
        exact h.entry clientId requestId state hfind
      · exact h.logged e hmem r hr
    · unfold Scheduler.IsSet at hset
      rw [hflags, List.getElem?_set] at hset
      by_cases heq : state.flag = flag
      · rw [← heq]
        exact ⟨clientId, requestId, List.mem_cons_self⟩
      · rw [if_neg heq] at hset
        obtain ⟨c, id, hmem⟩ := h.set flag hset
        exact ⟨c, id, List.mem_cons_of_mem _ hmem⟩
  · -- too many of them
    refine ⟨owner, h.keep (fun c => ?_) hflags rfl (fun c hc => ?_) rfl⟩
    · show Scheduler.Pruned (sch.client c) ((sch.cancel clientId requestId).client c)
      rw [hclient]
      exact ⟨rfl, Or.inl rfl⟩
    · show ((sch.cancel clientId requestId).client c).activeConnections = _
      rw [hclient]
      exact h.registered c hc
  · -- a flag for a request that is not under way
    refine ⟨_, h.newFlag clientId requestId hflags (fun c => ?_)
      (h.registered_updated hclient rfl (fun _ => rfl))
      (fun c id state' hfind' => ?_) (fun r hr => ?_) rfl (fun _ => rfl)⟩
    · rw [hclient]
      split
      · rename_i hc
        rw [hc]
        exact (h.counts clientId).assign_new hnone hsize (h.count_eq_zero_of_none hnone) _
      · exact h.counts c
    · rw [hclient] at hfind'
      split at hfind'
      · rename_i hc
        dsimp only at hfind'
        rw [OrderedMap.find?_assign] at hfind'
        by_cases hid : id = requestId
        · rw [if_pos hid] at hfind'
          obtain rfl := Option.some.inj hfind'
          exact Or.inr ⟨hc, hid, rfl⟩
        · rw [if_neg hid, ← hc] at hfind'
          exact Or.inl hfind'
      · exact Or.inl hfind'
    · obtain ⟨state', hfind', hflag⟩ := h.request r hr
      refine ⟨state', ?_, hflag⟩
      rw [hclient]
      split
      · rename_i hc
        rw [hc] at hfind'
        dsimp only
        rw [OrderedMap.find?_assign, if_neg]
        · exact hfind'
        · intro hid
          rw [hid] at hfind'
          cases hnone.symm.trans hfind'
      · exact hfind'

/-- The entries of a client with a request more. -/
theorem find?_activate {client : ClientState} {requestId id : UInt64} {state : CancelState} :
    (client.activate requestId state).cancelStates.find? id
      = if id = requestId then some ⟨state.flag, state.activeCount + 1⟩
        else client.cancelStates.find? id :=
  OrderedMap.find?_assign _ _ _ _

/-- A request more, and the others. -/
theorem mem_requests_track {before after : List Connection} {k : Connection} {requestId : UInt64}
    {flag : Flag} {r : Request}
    (hr : r ∈ requests (before ++ k.track requestId (some flag) :: after)) :
    r = ⟨k.client, requestId, flag⟩ ∨ r ∈ requests (before ++ k :: after) := by
  rw [requests_append] at hr ⊢
  simp only [Connection.track, Connection.requests, List.map_cons, List.mem_append,
    List.mem_cons] at hr ⊢
  tauto

/-- Tracking keeps the number of connections. -/
theorem connectionsOf_track (before after : List Connection) (k : Connection) (requestId : UInt64)
    (flag : Option Flag) (c : Bytes) :
    connectionsOf (before ++ k.track requestId flag :: after) c
      = connectionsOf (before ++ k :: after) c := by
  have hclient : (k.track requestId flag).client = k.client := by cases flag <;> rfl
  unfold connectionsOf
  rw [List.countP_append, List.countP_append, List.countP_cons, List.countP_cons, hclient]

section Track

variable {sch sch' : Scheduler} {before after : List Connection} {k : Connection}
  {requestId : UInt64} {client : ClientState}

/-- A request that is refused. -/
theorem track_refused (h : Consistent log ⟨sch, before ++ k :: after⟩ owner)
    (hpruned : Scheduler.Pruned (sch.client k.client) client)
    (hconnections : client.activeConnections = (sch.client k.client).activeConnections)
    (hclient : ∀ c, sch'.client c = if c = k.client then client else sch.client c)
    (hflags : sch'.flags = sch.flags) :
    Consistent (.tracked k.client requestId none :: log) ⟨sch', before ++ k :: after⟩ owner :=
  h.keep (pruned_updated hclient hpruned) hflags rfl
    (h.registered_updated hclient hconnections (fun _ => rfl)) rfl

/-- A request whose entry is there: it gets the flag of the entry. -/
theorem track_again (h : Consistent log ⟨sch, before ++ k :: after⟩ owner) {state : CancelState}
    (hpending : (sch.client k.client).pendingRequests < maxPendingRequestsPerClient)
    (hfind : (sch.client k.client).cancelStates.find? requestId = some state)
    (hclient : ∀ c, sch'.client c
      = if c = k.client then (sch.client k.client).activate requestId state else sch.client c)
    (hflags : sch'.flags = sch.flags) :
    Consistent (.tracked k.client requestId (some state.flag) :: log)
      ⟨sch', before ++ k.track requestId (some state.flag) :: after⟩ owner := by
  have hentry := h.entry k.client requestId state hfind
  refine ⟨fun c => ?_, h.registered_updated hclient rfl (connectionsOf_track _ _ _ _ _),
    fun c id state' hfind' => ?_, fun r hr => ?_, fun e hmem r hr => ?_, h.set_cons hflags⟩
  · rw [hclient, count_track]
    split
    · rename_i heq
      rw [heq]
      exact (h.counts k.client).activate hpending (Or.inl hfind)
    · exact h.counts c
  · rw [hflags]
    rw [hclient] at hfind'
    split at hfind'
    · rename_i heq
      rw [find?_activate] at hfind'
      by_cases hid : id = requestId
      · rw [if_pos hid] at hfind'
        obtain rfl := Option.some.inj hfind'
        rw [heq, hid]
        exact hentry
      · rw [if_neg hid, ← heq] at hfind'
        exact h.entry c id state' hfind'
    · exact h.entry c id state' hfind'
  · rcases mem_requests_track hr with rfl | hr
    · refine ⟨⟨state.flag, state.activeCount + 1⟩, ?_, rfl⟩
      rw [hclient, if_pos rfl, find?_activate, if_pos rfl]
    · obtain ⟨state', hfind', hflag⟩ := h.request r hr
      rw [hclient]
      by_cases heq : r.client = k.client
      · rw [if_pos heq, find?_activate]
        rw [heq] at hfind'
        by_cases hid : r.id = requestId
        · rw [hid] at hfind'
          obtain rfl := Option.some.inj (hfind.symm.trans hfind')
          exact ⟨_, if_pos hid, hflag⟩
        · exact ⟨state', by rw [if_neg hid]; exact hfind', hflag⟩
      · exact ⟨state', by rw [if_neg heq]; exact hfind', hflag⟩
  · rw [hflags]
    rcases List.mem_cons.mp hmem with rfl | hmem
    · obtain rfl := Option.some.inj hr
      exact hentry
    · exact h.logged e hmem r hr

/-- A request that has no entry: a flag is made for it. -/
theorem track_new (h : Consistent log ⟨sch, before ++ k :: after⟩ owner)
    (hpending : (sch.client k.client).pendingRequests < maxPendingRequestsPerClient)
    (hfind : (sch.client k.client).cancelStates.find? requestId = none)
    (hpruned : Scheduler.Pruned (sch.client k.client) client)
    (hconnections : client.activeConnections = (sch.client k.client).activeConnections)
    (hsize : client.cancelStates.size < maxPendingRequestsPerClient)
    (hclient : ∀ c, sch'.client c
      = if c = k.client then client.activate requestId ⟨sch.flags.length, 0⟩ else sch.client c)
    (hflags : sch'.flags = sch.flags ++ [false]) :
    Consistent (.tracked k.client requestId (some sch.flags.length) :: log)
      ⟨sch', before ++ k.track requestId (some sch.flags.length) :: after⟩
      (Function.update owner sch.flags.length (k.client, requestId)) := by
  have hcount := h.count_eq_zero_of_none hfind
  -- pruning only drops entries, so there is still none for the request
  have hnone : client.cancelStates.find? requestId = none := by
    rw [Option.eq_none_iff_forall_ne_some]
    intro state hstate
    cases hfind.symm.trans (hpruned.find? hstate)
  refine h.newFlag k.client requestId hflags (fun c => ?_)
    (h.registered_updated hclient hconnections (connectionsOf_track _ _ _ _ _))
    (fun c id state' hfind' => ?_) (fun r hr => ?_) rfl (fun h => by cases h)
  · rw [hclient, count_track]
    split
    · rename_i heq
      rw [heq]
      refine ((h.counts k.client).pruned hpruned).activate ?_ (Or.inr ⟨hnone, rfl, hcount, hsize⟩)
      rw [hpruned.pending]
      exact hpending
    · exact h.counts c
  · rw [hclient] at hfind'
    split at hfind'
    · rename_i heq
      rw [find?_activate] at hfind'
      by_cases hid : id = requestId
      · rw [if_pos hid] at hfind'
        obtain rfl := Option.some.inj hfind'
        exact Or.inr ⟨heq, hid, rfl⟩
      · rw [if_neg hid] at hfind'
        rw [heq]
        exact Or.inl (hpruned.find? hfind')
    · exact Or.inl hfind'
  · rcases mem_requests_track hr with rfl | hr
    · refine ⟨⟨sch.flags.length, 1⟩, ?_, rfl⟩
      rw [hclient, if_pos rfl, find?_activate, if_pos rfl]
    · obtain ⟨state', hfind', hflag⟩ := h.request r hr
      refine ⟨state', ?_, hflag⟩
      rw [hclient]
      by_cases heq : r.client = k.client
      · have hactive : 0 < state'.activeCount := by
          rw [(h.counts r.client).active r.id state' hfind']
          exact count_pos hr
        rw [heq] at hfind'
        have hid : r.id ≠ requestId := by
          intro hid
          rw [hid] at hfind'
          cases hfind.symm.trans hfind'
        rw [if_pos heq, find?_activate, if_neg hid]
        exact hpruned.find?_active hfind' hactive
      · rw [if_neg heq]
        exact hfind'

end Track

/-- **Tracking makes the request one that is under way, with the flag that is
returned.** -/
theorem track {sch : Scheduler} {before after : List Connection} {k : Connection}
    (h : Consistent log ⟨sch, before ++ k :: after⟩ owner) (requestId : UInt64) :
    ∃ owner', Consistent
      (.tracked k.client requestId (sch.trackCancellation k.client requestId).1 :: log)
      ⟨(sch.trackCancellation k.client requestId).2,
        before ++ k.track requestId (sch.trackCancellation k.client requestId).1 :: after⟩ owner' := by
  rcases sch.track_cases k.client requestId with
    ⟨hnone, client, hpruned, hconnections, hclient, hflags⟩ | ⟨hpending,
      ⟨state, hfind, hsome, hclient, hflags⟩ |
      ⟨hfind, client, hpruned, hconnections, hsize, hsome, hclient, hflags⟩⟩
  · rw [hnone]
    exact ⟨owner, h.track_refused hpruned hconnections hclient hflags⟩
  · rw [hsome]
    exact ⟨owner, h.track_again hpending hfind hclient hflags⟩
  · rw [hsome]
    exact ⟨_, h.track_new hpending hfind hpruned hconnections hsize hclient hflags⟩

/-- The entries of a client after a request is done. -/
theorem find?_completeRequest {client : ClientState} {requestId : UInt64} {state : CancelState}
    (hfind : client.cancelStates.find? requestId = some state) (id : UInt64) :
    (client.completeRequest requestId).cancelStates.find? id
      = if id = requestId then
          if state.activeCount ≤ 1 then none else some ⟨state.flag, state.activeCount - 1⟩
        else client.cancelStates.find? id := by
  unfold ClientState.completeRequest
  rw [hfind]
  dsimp only
  by_cases hle : state.activeCount ≤ 1
  · have hzero : (if 0 < state.activeCount then state.activeCount - 1 else state.activeCount) = 0 := by
      split <;> omega
    rw [if_pos hzero, OrderedMap.find?_erase, if_pos hle]
  · rw [if_pos (show 0 < state.activeCount by omega),
      if_neg (show ¬ state.activeCount - 1 = 0 by omega), OrderedMap.find?_assign, if_neg hle]

/-- **Completing a request takes it away from the requests that are under way.** -/
theorem complete {sch : Scheduler} {before after : List Connection} {clientId : Bytes}
    {xs ys : List (UInt64 × Flag)} {requestId : UInt64} {flag : Flag}
    (h : Consistent log ⟨sch, before ++ ⟨clientId, xs ++ (requestId, flag) :: ys⟩ :: after⟩ owner) :
    Consistent (.completed clientId requestId flag :: log)
      ⟨sch.completeRequest clientId requestId, before ++ ⟨clientId, xs ++ ys⟩ :: after⟩ owner := by
  have hmem : (⟨clientId, requestId, flag⟩ : Request)
      ∈ requests (before ++ ⟨clientId, xs ++ (requestId, flag) :: ys⟩ :: after) := by
    rw [requests_append]
    simp [Connection.requests]
  have hsub : ∀ r, r ∈ requests (before ++ ⟨clientId, xs ++ ys⟩ :: after) →
      r ∈ requests (before ++ ⟨clientId, xs ++ (requestId, flag) :: ys⟩ :: after) := by
    intro r hr
    rw [requests_append] at hr ⊢
    simp only [Connection.requests, List.map_append, List.map_cons, List.mem_append,
      List.mem_cons] at hr ⊢
    tauto
  obtain ⟨state, hfind, hflag⟩ := h.request _ hmem
  have hpos := count_pos hmem
  have hactive : state.activeCount
      = count (before ++ ⟨clientId, xs ++ (requestId, flag) :: ys⟩ :: after) clientId requestId :=
    (h.counts clientId).active requestId state hfind
  have hclient : ∀ c, (sch.completeRequest clientId requestId).client c = if c = clientId then
      (sch.client clientId).completeRequest requestId else sch.client c := by
    intro c
    unfold Scheduler.completeRequest
    cases hsome : sch.clients.find? clientId with
    | none =>
      have hempty : sch.client clientId = {} := by rw [Scheduler.client, hsome]; rfl
      change (sch.client clientId).cancelStates.find? requestId = some state at hfind
      rw [hempty] at hfind
      cases hfind
    | some client =>
      have heq : sch.client clientId = client := by rw [Scheduler.client, hsome]; rfl
      rw [heq]
      exact sch.client_setClient clientId _ c
  have hflags : (sch.completeRequest clientId requestId).flags = sch.flags := by
    unfold Scheduler.completeRequest
    split <;> rfl
  have hcount := fun c => count_complete before after clientId xs ys requestId flag c
  have hconnections : ((sch.client clientId).completeRequest requestId).activeConnections
      = (sch.client clientId).activeConnections := by
    unfold ClientState.completeRequest
    split <;> rfl
  refine ⟨fun c => ?_, h.registered_updated hclient hconnections (fun c => ?_),
    fun c id state' hfind' => ?_, fun r hr => ?_, h.logged_cons hflags rfl, h.set_cons hflags⟩
  · rw [hclient, hcount]
    split
    · rename_i heq
      rw [heq]
      exact (h.counts clientId).completeRequest hfind hpos
    · exact h.counts c
  · unfold connectionsOf
    rw [List.countP_append, List.countP_append, List.countP_cons, List.countP_cons]
  · rw [hflags]
    rw [hclient] at hfind'
    split at hfind'
    · rename_i heq
      rw [find?_completeRequest hfind] at hfind'
      by_cases hid : id = requestId
      · rw [if_pos hid] at hfind'
        split at hfind'
        · cases hfind'
        · obtain rfl := Option.some.inj hfind'
          rw [heq, hid]
          exact h.entry clientId requestId state hfind
      · rw [if_neg hid, ← heq] at hfind'
        exact h.entry c id state' hfind'
    · exact h.entry c id state' hfind'
  · obtain ⟨state', hfind', hflag'⟩ := h.request r (hsub r hr)
    rw [hclient]
    by_cases heq : r.client = clientId
    · rw [if_pos heq, find?_completeRequest hfind]
      rw [heq] at hfind'
      by_cases hid : r.id = requestId
      · -- another request under the same identifier keeps the entry
        have hleft := count_pos hr
        rw [hcount, if_pos heq, hid, Function.update_self, heq] at hleft
        rw [hid] at hfind'
        obtain rfl := Option.some.inj (hfind.symm.trans hfind')
        refine ⟨⟨state.flag, state.activeCount - 1⟩, ?_, hflag'⟩
        rw [if_pos hid, if_neg (by rw [hactive]; omega)]
      · exact ⟨state', by rw [if_neg hid]; exact hfind', hflag'⟩
    · exact ⟨state', by rw [if_neg heq]; exact hfind', hflag'⟩

section Unregister

variable {sch sch' : Scheduler} {before after : List Connection} {clientId : Bytes}

/-- A connection less. -/
theorem connectionsOf_idle (before after : List Connection) (clientId c : Bytes) :
    connectionsOf (before ++ ⟨clientId, []⟩ :: after) c
      = connectionsOf (before ++ after) c + if clientId = c then 1 else 0 := by
  unfold connectionsOf
  rw [List.countP_append, List.countP_append, List.countP_cons]
  simp only [decide_eq_true_eq]
  omega

/-- The connections of another client. -/
theorem registered_other (h : Consistent log ⟨sch, before ++ ⟨clientId, []⟩ :: after⟩ owner)
    {c : Bytes} (hc : c ≠ []) (hne : c ≠ clientId) :
    (sch.client c).activeConnections = connectionsOf (before ++ after) c := by
  refine (h.registered c hc).trans ?_
  show connectionsOf (before ++ ⟨clientId, []⟩ :: after) c = _
  rw [connectionsOf_idle, if_neg (Ne.symm hne)]
  rfl

/-- The last connection of a client: the client is dropped, which has no requests. -/
theorem unregister_last (h : Consistent log ⟨sch, before ++ ⟨clientId, []⟩ :: after⟩ owner)
    (hzero : connectionsOf (before ++ after) clientId = 0)
    (hclient : ∀ c, sch'.client c = if c = clientId then {} else sch.client c)
    (hflags : sch'.flags = sch.flags) :
    Consistent (.unregistered clientId :: log) ⟨sch', before ++ after⟩ owner := by
  have hrequests := requests_idle before after clientId
  refine ⟨fun c => ?_, fun c hc => ?_, fun c id state hfind => ?_, fun r hr => ?_,
    h.logged_cons hflags rfl, h.set_cons hflags⟩
  · rw [hclient]
    split
    · rename_i heq
      have hnone : count (before ++ after) c = fun _ => 0 := by
        funext id
        rw [heq]
        exact count_eq_zero hzero id
      rw [hnone]
      exact .empty
    · have hcount : count (before ++ ⟨clientId, []⟩ :: after) c = count (before ++ after) c := by
        funext id
        rw [count, hrequests, count]
      rw [← hcount]
      exact h.counts c
  · rw [hclient]
    split
    · rename_i heq
      rw [heq]
      exact hzero.symm
    · exact h.registered_other hc ‹_›
  · rw [hflags]
    rw [hclient] at hfind
    split at hfind
    · cases hfind
    · exact h.entry c id state hfind
  · have hold : r ∈ requests (before ++ ⟨clientId, []⟩ :: after) := by rw [hrequests]; exact hr
    obtain ⟨state, hfind, hflag⟩ := h.request r hold
    refine ⟨state, ?_, hflag⟩
    rw [hclient, if_neg]
    · exact hfind
    · intro heq
      have hpos := count_pos hr
      rw [heq, count_eq_zero hzero] at hpos
      omega

/-- A connection of a client that has others: they are counted. -/
theorem unregister_others (h : Consistent log ⟨sch, before ++ ⟨clientId, []⟩ :: after⟩ owner)
    {n : ℕ} (hn : connectionsOf (before ++ after) clientId = n)
    (hclient : ∀ c, sch'.client c = if c = clientId then
      { sch.client clientId with activeConnections := n } else sch.client c)
    (hflags : sch'.flags = sch.flags) :
    Consistent (.unregistered clientId :: log) ⟨sch', before ++ after⟩ owner := by
  refine h.keep (pruned_updated hclient ⟨rfl, Or.inl rfl⟩) hflags
    (requests_idle before after clientId).symm (fun c hc => ?_) rfl
  show (sch'.client c).activeConnections = _
  rw [hclient]
  split
  · rename_i heq
    rw [heq]
    exact hn.symm
  · exact h.registered_other hc ‹_›

/-- A connection that was not registered. -/
theorem unregister_unnamed (h : Consistent log ⟨sch, before ++ ⟨[], []⟩ :: after⟩ owner) :
    Consistent (.unregistered [] :: log) ⟨sch, before ++ after⟩ owner :=
  h.keep (fun _ => ⟨rfl, Or.inl rfl⟩) rfl (requests_idle before after []).symm
    (fun _ hc => h.registered_other hc hc) rfl

end Unregister

/-- **Unregistering drops a client with its last connection.** -/
theorem unregister {sch : Scheduler} {before after : List Connection} {clientId : Bytes}
    (h : Consistent log ⟨sch, before ++ ⟨clientId, []⟩ :: after⟩ owner) :
    Consistent (.unregistered clientId :: log)
      ⟨sch.unregisterClient clientId, before ++ after⟩ owner := by
  by_cases hempty : clientId = []
  · subst hempty
    rw [Scheduler.unregisterClient, if_pos rfl]
    exact h.unregister_unnamed
  have hregistered : (sch.client clientId).activeConnections
      = connectionsOf (before ++ after) clientId + 1 := by
    refine (h.registered clientId hempty).trans ?_
    show connectionsOf (before ++ ⟨clientId, []⟩ :: after) clientId = _
    rw [connectionsOf_idle, if_pos rfl]
  -- the client is known, as this connection was counted
  obtain ⟨client, hsome⟩ : ∃ client, sch.clients.find? clientId = some client := by
    cases hfind : sch.clients.find? clientId with
    | some client => exact ⟨client, rfl⟩
    | none =>
      rw [Scheduler.client, hfind] at hregistered
      cases hregistered
  have hclient : sch.client clientId = client := by rw [Scheduler.client, hsome]; rfl
  rw [hclient] at hregistered
  rw [Scheduler.unregisterClient, if_neg hempty, hsome]
  dsimp only
  split
  · refine h.unregister_last (by omega) (fun c => ?_) rfl
    show ((sch.clients.erase clientId).find? c).getD {} = _
    rw [OrderedMap.find?_erase]
    split <;> rfl
  · refine h.unregister_others (by omega : _ = client.activeConnections - 1) (fun c => ?_) rfl
    rw [hclient]
    exact sch.client_setClient clientId _ c

/-- **Every call keeps the scheduler consistent.** -/
theorem step {s' : HostState} (h : Consistent log s owner) (hstep : Step s e s') :
    ∃ owner', Consistent (e :: log) s' owner' := by
  cases hstep with
  | register sch ks clientId => exact ⟨owner, h.register clientId⟩
  | track sch before after k requestId => exact h.track requestId
  | markLatest sch before after k requestId => exact ⟨owner, h.markLatest k.client requestId⟩
  | complete => exact ⟨owner, h.complete⟩
  | cancel sch before after k requestId => exact h.cancel k.client requestId
  | unregister => exact ⟨owner, h.unregister⟩

end Consistent

/-- **Every state that is reached is consistent.** -/
theorem Reachable.consistent {log : List Event} {s : HostState} (h : Reachable log s) :
    ∃ owner, Consistent log s owner := by
  induction h with
  | start => exact ⟨_, .start⟩
  | step _ hstep ih =>
    obtain ⟨owner, howner⟩ := ih
    exact howner.step hstep

/-- **The requests of all connections, in any order.** In every state that is
reached, the requests that a client has pending are those of its entries, and
neither the requests nor the entries exceed the limit; a `Cancel` sets the flag
of every request that is under way with its client and identifier, the very one
that `TrackCancellation` returned; and a flag is set by a `Cancel` only, each
with the one client and request that the flag was ever returned for. -/
theorem reachable_cancellation {log : List Event} {s : HostState} (h : Reachable log s) :
    (∀ c client, s.scheduler.clients.find? c = some client →
      client.pendingRequests = client.cancelStates.total CancelState.activeCount
        ∧ client.pendingRequests ≤ maxPendingRequestsPerClient
        ∧ client.cancelStates.size ≤ maxPendingRequestsPerClient)
      ∧ (∀ r ∈ requests s.connections, (s.scheduler.cancel r.client r.id).IsSet r.flag)
      ∧ (∀ flag, s.scheduler.IsSet flag → ∃ c id, Event.cancelled c id (some flag) ∈ log)
      ∧ ∀ c id c' id' flag, Event.cancelled c id (some flag) ∈ log →
        Event.tracked c' id' (some flag) ∈ log → c = c' ∧ id = id' := by
  obtain ⟨owner, howner⟩ := h.consistent
  refine ⟨fun c client hfind => ?_, fun r hr => ?_, howner.set,
    fun c id c' id' flag hcancelled htracked => ?_⟩
  · have hclient : s.scheduler.client c = client := by rw [Scheduler.client, hfind]; rfl
    have hcounts := howner.counts c
    rw [hclient] at hcounts
    exact ⟨hcounts.pending, hcounts.pending_le, hcounts.size_le⟩
  · obtain ⟨state, hfind, hflag⟩ := howner.request r hr
    rcases s.scheduler.cancel_cases r.client r.id with ⟨state', hfind', -, -, hflags⟩ | ⟨hnone, -⟩
    · obtain rfl := Option.some.inj (hfind.symm.trans hfind')
      have hlt := (howner.entry r.client r.id state hfind).1
      unfold Scheduler.IsSet
      rw [hflags, ← hflag, List.getElem?_set_self hlt]
    · cases hnone.symm.trans hfind
  · have hc := (howner.logged _ hcancelled _ rfl).2
    have ht := (howner.logged _ htracked _ rfl).2
    exact Prod.mk.inj (hc.symm.trans ht)

/-- A client that registers, sends a request and cancels it. -/
theorem reachable_oneRequest : ∃ log s, Reachable log s
    ∧ Event.tracked [0x61] 7 (some 0) ∈ log ∧ s.scheduler.IsSet 0 := by
  have hregister := Reachable.step .start (.register .initial [] [0x61])
  have htrack := Reachable.step hregister (.track _ [] [] ⟨[0x61], []⟩ 7)
  have hcancel := Reachable.step htrack (.cancel _ [] [] ⟨[0x61], [(7, 0)]⟩ 7)
  exact ⟨_, _, hcancel, List.mem_cons_of_mem _ List.mem_cons_self, rfl⟩

/-- Its flag was set by the `Cancel` with its client and identifier. -/
theorem reachable_cancellation_oneRequest : ∃ log s, Reachable log s ∧ s.scheduler.IsSet 0
    ∧ Event.tracked [0x61] 7 (some 0) ∈ log ∧ Event.cancelled [0x61] 7 (some 0) ∈ log := by
  obtain ⟨log, s, hreachable, htracked, hset⟩ := reachable_oneRequest
  obtain ⟨-, -, hcancelled, howner⟩ := reachable_cancellation hreachable
  obtain ⟨c, id, hmem⟩ := hcancelled 0 hset
  obtain ⟨rfl, rfl⟩ := howner c id _ _ 0 hmem htracked
  exact ⟨log, s, hreachable, hset, htracked, hmem⟩

end AzooKey.Host

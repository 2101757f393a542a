import AzooKey.Host.English.LogWrites

/-!
# The logs survive their writers

What a reader finds in a log after any sequence of calls that were carried out
or stopped anywhere. The overlay holds the operations of the calls that were
carried out and no others: the frame of a call that was stopped is never read,
neither then nor after later appends. For the journal, which is rewritten from
time to time, the same is said of the latest operation of each entry.

A journal that can be read stays so if and only if the frames that a call
leaves in it fit into `kMaxOverlayBytes` (`journalCrashSafe_iff`). No writer
checks that.
-/

namespace AzooKey.Host.English

open LittleEndian RawFile

/-! ## The latest operations -/

/-- The latest operation of an entry, with one operation more. -/
theorem latestEnglishJournalOp_append (ops : List OverlayOp) (op : OverlayOp) (key surface : Bytes) :
    latestEnglishJournalOp (ops ++ [op]) key surface
      = if op.key = key ∧ op.surface = surface then some op
        else latestEnglishJournalOp ops key surface := by
  unfold latestEnglishJournalOp
  rw [List.reverse_append, List.reverse_singleton, List.singleton_append, List.find?_cons]
  by_cases h : op.key = key ∧ op.surface = surface
  · simp [h.1, h.2]
  · rw [if_neg h]
    have hfalse : (decide (op.key = key) && decide (op.surface = surface)) = false := by
      simpa using h
    rw [hfalse]

/-- The latest operation of an entry, with one operation before. -/
theorem latestEnglishJournalOp_cons (op : OverlayOp) (ops : List OverlayOp) (key surface : Bytes) :
    latestEnglishJournalOp (op :: ops) key surface
      = (latestEnglishJournalOp ops key surface).or
        (if op.key = key ∧ op.surface = surface then some op else none) := by
  unfold latestEnglishJournalOp
  rw [List.reverse_cons, List.find?_append, List.find?_singleton]
  simp

/-- An entry of which there is an operation has a latest one. -/
theorem exists_latest_of_any {ops : List OverlayOp} {op : OverlayOp}
    (h : ops.any (sameEntry op) = true) :
    ∃ latest, latestEnglishJournalOp ops op.key op.surface = some latest := by
  obtain ⟨o, ho, hsame⟩ := List.any_eq_true.mp h
  simp only [sameEntry, Bool.and_eq_true, decide_eq_true_eq] at hsame
  refine Option.isSome_iff_exists.mp ?_
  unfold latestEnglishJournalOp
  rw [List.find?_isSome]
  exact ⟨o, List.mem_reverse.mpr ho, by simp [hsame.1.symm, hsame.2.symm]⟩

/-- **`LatestJournalOps` keeps the latest operations.** -/
theorem latestEnglishJournalOp_latestJournalOps (ops : List OverlayOp) (key surface : Bytes) :
    latestEnglishJournalOp (latestJournalOps ops) key surface
      = latestEnglishJournalOp ops key surface := by
  induction ops with
  | nil => rfl
  | cons op ops ih =>
    rw [latestJournalOps]
    by_cases hany : ops.any (sameEntry op) = true
    · rw [if_pos hany, ih, latestEnglishJournalOp_cons]
      by_cases hentry : op.key = key ∧ op.surface = surface
      · obtain ⟨latest, hlatest⟩ := exists_latest_of_any hany
        rw [hentry.1, hentry.2] at hlatest
        rw [hlatest, Option.some_or]
      · rw [if_neg hentry, Option.or_none]
    · rw [if_neg hany, latestEnglishJournalOp_cons, latestEnglishJournalOp_cons, ih]

/-- They are some of the operations. -/
theorem latestJournalOps_sublist (ops : List OverlayOp) : (latestJournalOps ops).Sublist ops := by
  induction ops with
  | nil => exact List.Sublist.slnil
  | cons op ops ih =>
    rw [latestJournalOps]
    by_cases hany : ops.any (sameEntry op) = true
    · rw [if_pos hany]
      exact ih.cons op
    · rw [if_neg hany]
      exact ih.cons_cons op

/-- **An entry that is dropped has no operation**, and the others keep theirs. -/
theorem latestEnglishJournalOp_dropEntry (key surface : Bytes) (ops : List OverlayOp)
    (key' surface' : Bytes) : latestEnglishJournalOp (dropEntry key surface ops) key' surface'
      = if key = key' ∧ surface = surface' then none
        else latestEnglishJournalOp ops key' surface' := by
  unfold latestEnglishJournalOp dropEntry
  rw [← List.filter_reverse]
  induction ops.reverse with
  | nil => simp
  | cons op ops ih =>
    by_cases hdrop : op.key = key ∧ op.surface = surface
    · rw [List.filter_cons_of_neg (by simp [hdrop.1, hdrop.2]), ih, List.find?_cons]
      by_cases hentry : key = key' ∧ surface = surface'
      · rw [if_pos hentry, if_pos hentry]
      · rw [if_neg hentry, if_neg hentry]
        have hfalse : (decide (op.key = key') && decide (op.surface = surface')) = false := by
          rw [hdrop.1, hdrop.2]
          simpa using hentry
        rw [hfalse]
    · have hkeep : (!(decide (op.key = key) && decide (op.surface = surface))) = true := by
        rw [Bool.not_eq_true', Bool.and_eq_false_iff, decide_eq_false_iff_not,
          decide_eq_false_iff_not]
        exact not_and_or.mp hdrop
      rw [List.filter_cons, if_pos hkeep, List.find?_cons, List.find?_cons]
      by_cases hmatch : op.key = key' ∧ op.surface = surface'
      · have htrue : (decide (op.key = key') && decide (op.surface = surface')) = true := by
          simpa using hmatch
        rw [htrue, if_neg (fun h => hdrop ⟨hmatch.1.trans h.1.symm, hmatch.2.trans h.2.symm⟩)]
      · have hfalse : (decide (op.key = key') && decide (op.surface = surface')) = false := by
          simpa using hmatch
        rw [hfalse]
        exact ih

/-- Fewer operations have fewer frames. -/
theorem length_encodeFrames_le_of_sublist {ops ops' : List OverlayOp} (h : ops.Sublist ops') :
    (encodeFrames ops).length ≤ (encodeFrames ops').length := by
  induction h with
  | slnil => exact Nat.le_refl _
  | cons op _ ih =>
    rw [encodeFrames_cons, List.length_append]
    omega
  | cons_cons op _ ih =>
    rw [encodeFrames_cons, encodeFrames_cons, List.length_append, List.length_append]
    omega

/-! ## The calls that write a journal -/

/-- A call that changes the journal. -/
inductive JournalCall
  | append (op : OverlayOp)
  | retract (key surface : Bytes)

namespace JournalCall

/-- Its writes; none when it does not change the journal. -/
def writes (file : Bytes) : JournalCall → List Write
  | .append op =>
    match appendEnglishJournalOp file op with
    | .appended ws => ws
    | .reset ws => ws
    | _ => []
  | .retract key surface =>
    match retractEnglishJournalEntry file key surface with
    | .retracted ws => ws
    | _ => []

/-- The entry that it is about. -/
def entry : JournalCall → Bytes × Bytes
  | .append op => (op.key, op.surface)
  | .retract key surface => (key, surface)

/-- The latest operation that it asks for. -/
def asked : JournalCall → Option OverlayOp
  | .append op => some op
  | .retract _ _ => none

/-- What it asks for, of the latest operations of all entries. -/
def apply (latest : Bytes → Bytes → Option OverlayOp) (call : JournalCall) :
    Bytes → Bytes → Option OverlayOp :=
  fun key surface => if call.entry = (key, surface) then call.asked else latest key surface

/-- An operation that is appended is well formed. -/
def WellFormed : JournalCall → Prop
  | .append op => op.WellFormed
  | .retract _ _ => True

end JournalCall

/-- The operations that an append leaves in a journal. -/
def journalAfter (ops : List OverlayOp) (op : OverlayOp) : List OverlayOp :=
  if journalOutgrown ops op then rewritten ops op else ops ++ [op]

/-- **The frames that a call leaves in a journal fit**, if it writes at all. A
retraction leaves fewer than there were. -/
def JournalFits (file : Bytes) : JournalCall → Prop
  | .append op => ∀ ops endOffset, loadEnglishJournal file = .ok ops endOffset →
      journalFull ops op = true ∨ (encodeFrames (journalAfter ops op)).length ≤ maxOverlayBytes
  | .retract _ _ => True

/-- **A journal as a call may leave it**: it can be read, and the latest
operations are the old ones, apart from the one that the call asks for. -/
def JournalCrashSafe (file : Bytes) (call : JournalCall) : Prop :=
  ∀ ops endOffset, loadEnglishJournal file = .ok ops endOffset → ∀ n, ∃ ops' endOffset',
    loadEnglishJournal (stopped file (call.writes file) n) = .ok ops' endOffset'
      ∧ ∀ key surface, latestEnglishJournalOp ops' key surface = latestEnglishJournalOp ops key surface
        ∨ call.entry = (key, surface) ∧ latestEnglishJournalOp ops' key surface = call.asked

/-- A journal that was encoded is a log, if its frames fit. -/
theorem isLog_encodeJournal {ops : List OverlayOp} (hops : ∀ op ∈ ops, op.WellFormed)
    (hfits : (encodeFrames ops).length ≤ maxOverlayBytes) :
    IsLog journalMagic 0 ops [] (encodeJournal ops) :=
  ⟨by rw [List.append_nil]; rfl, hops, by rw [List.append_nil]; exact hfits⟩

/-- A log of the journal is loaded. -/
theorem IsLog.load {field : UInt32} {ops : List OverlayOp} {tail file : Bytes}
    (h : IsLog journalMagic field ops tail file) :
    loadEnglishJournal file = .ok ops (16 + (encodeFrames ops).length) :=
  loadEnglishJournal_eq_ok_iff.mpr ⟨rfl, field, tail, h⟩

/-- **A journal whose frames do not fit cannot be read.** -/
theorem loadEnglishJournal_of_lt {field count : UInt32} {body : Bytes}
    (h : maxOverlayBytes < body.length) :
    loadEnglishJournal (logHead journalMagic field count ++ body) = .unavailable := by
  have hlength := length_logHead length_journalMagic field count
  unfold loadEnglishJournal
  rw [List.length_append, hlength, if_neg (by omega), if_pos (by omega)]

section Calls

variable {file : Bytes} {ops : List OverlayOp} {endOffset : ℕ}

/-- The operations of a rewritten journal are well formed. -/
theorem wellFormed_rewritten {op : OverlayOp} (hops : ∀ o ∈ ops, o.WellFormed)
    (hop : op.WellFormed) : ∀ o ∈ rewritten ops op, o.WellFormed := by
  intro o ho
  rcases List.mem_append.mp ho with ho | ho
  · exact hops o ((latestJournalOps_sublist ops).subset (List.mem_of_mem_filter ho))
  · rw [List.mem_singleton.mp ho]
    exact hop

/-- The latest operations of a rewritten journal. -/
theorem latest_rewritten (ops : List OverlayOp) (op : OverlayOp) (key surface : Bytes) :
    latestEnglishJournalOp (rewritten ops op) key surface
      = (JournalCall.append op).apply (latestEnglishJournalOp ops) key surface := by
  unfold rewritten JournalCall.apply JournalCall.entry JournalCall.asked
  rw [latestEnglishJournalOp_append, latestEnglishJournalOp_dropEntry,
    latestEnglishJournalOp_latestJournalOps]
  by_cases h : op.key = key ∧ op.surface = surface
  · rw [if_pos h, if_pos (Prod.ext h.1 h.2)]
  · rw [if_neg h, if_neg h, if_neg (fun heq => h (Prod.mk.inj heq))]

/-- A retraction replaces the journal, or does nothing. -/
theorem writes_retract (hload : loadEnglishJournal file = .ok ops endOffset) (key surface : Bytes) :
    (JournalCall.retract key surface).writes file
        = [.replace (encodeJournal (dropEntry key surface (latestJournalOps ops)))]
      ∨ (JournalCall.retract key surface).writes file = [] := by
  unfold JournalCall.writes retractEnglishJournalEntry
  rw [hload]
  dsimp only
  cases latestEnglishJournalOp ops key surface with
  | none => exact Or.inr rfl
  | some op =>
    by_cases hkind : op.kind = .upsert
    · exact Or.inl (by simp [hkind])
    · exact Or.inr (by simp [hkind])

/-- **The states of a journal that is written.** Until the last write it has the
operations that it had; then the latest ones are those that the call asks
for. -/
theorem load_stopped (hload : loadEnglishJournal file = .ok ops endOffset) {call : JournalCall}
    (hcall : call.WellFormed) (hfits : JournalFits file call) (n : ℕ) :
    ∃ ops' endOffset', loadEnglishJournal (stopped file (call.writes file) n) = .ok ops' endOffset'
      ∧ latestEnglishJournalOp ops' = if call.writes file ≠ [] ∧ (call.writes file).length ≤ n
        then call.apply (latestEnglishJournalOp ops) else latestEnglishJournalOp ops := by
  obtain ⟨rfl, field, tail, hlog⟩ := loadEnglishJournal_eq_ok_iff.mp hload
  -- a rewritten journal is there after the one write, and not before
  have hreplace : ∀ {ops' : List OverlayOp}, (∀ op ∈ ops', op.WellFormed) →
      (encodeFrames ops').length ≤ maxOverlayBytes →
      (latestEnglishJournalOp ops' = call.apply (latestEnglishJournalOp ops)) →
      call.writes file = [.replace (encodeJournal ops')] →
      ∃ ops' endOffset', loadEnglishJournal (stopped file (call.writes file) n) = .ok ops' endOffset'
        ∧ latestEnglishJournalOp ops' = if call.writes file ≠ [] ∧ (call.writes file).length ≤ n
          then call.apply (latestEnglishJournalOp ops) else latestEnglishJournalOp ops := by
    intro ops' hops' hfit hlatest hwrites
    rw [hwrites]
    rcases n with _ | n
    · refine ⟨ops, _, by rw [stopped_zero]; exact hload, ?_⟩
      rw [if_neg (fun h => absurd h.2 (by simp))]
    · refine ⟨ops', _, by rw [stopped_cons_succ, stopped_nil]; exact (isLog_encodeJournal hops' hfit).load, ?_⟩
      rw [if_pos ⟨by simp, by simp⟩, hlatest]
  have hnone : call.writes file = [] →
      ∃ ops' endOffset', loadEnglishJournal (stopped file (call.writes file) n) = .ok ops' endOffset'
        ∧ latestEnglishJournalOp ops' = if call.writes file ≠ [] ∧ (call.writes file).length ≤ n
          then call.apply (latestEnglishJournalOp ops) else latestEnglishJournalOp ops := by
    intro hwrites
    rw [hwrites]
    refine ⟨ops, _, by rw [stopped_nil]; exact hload, ?_⟩
    rw [if_neg (fun h => h.1 rfl)]
  cases call with
  | append op =>
    have hop : op.WellFormed := hcall
    by_cases hfull : journalFull ops op = true
    · refine hnone ?_
      simp [JournalCall.writes, appendEnglishJournalOp, hop.accepted, hload, hfull]
    · have hfit := (hfits ops _ hload).resolve_left hfull
      unfold journalAfter at hfit
      by_cases hgrown : journalOutgrown ops op = true
      · rw [if_pos hgrown] at hfit
        refine hreplace (wellFormed_rewritten hlog.wellFormed hop) hfit
          (funext fun key => funext fun surface => latest_rewritten ops op key surface) ?_
        simp [JournalCall.writes, appendEnglishJournalOp, hop.accepted, hload, hfull, hgrown]
      · rw [if_neg hgrown] at hfit
        have hwrites : (JournalCall.append op).writes file = appendWrites file.length
            (16 + (encodeFrames ops).length) op (UInt32.ofNat (ops.length + 1)) := by
          simp [JournalCall.writes, appendEnglishJournalOp, hop.accepted, hload, hfull, hgrown]
        obtain ⟨hbefore, hdone⟩ := isLog_stopped_appendWrites hlog length_journalMagic hop hfit n
        have hne : appendWrites file.length (16 + (encodeFrames ops).length) op
            (UInt32.ofNat (ops.length + 1)) ≠ [] := by
          simp [appendWrites]
        rw [hwrites]
        rcases lt_or_ge n (appendWrites file.length (16 + (encodeFrames ops).length) op
            (UInt32.ofNat (ops.length + 1))).length with hlt | hge
        · obtain ⟨tail', hlog'⟩ := hbefore hlt
          refine ⟨ops, _, hlog'.load, ?_⟩
          rw [if_neg (fun h => absurd h.2 (not_le.mpr hlt))]
        · refine ⟨ops ++ [op], _, (hdone hge).load, ?_⟩
          rw [if_pos ⟨hne, hge⟩]
          funext key surface
          rw [latestEnglishJournalOp_append]
          unfold JournalCall.apply JournalCall.entry JournalCall.asked
          by_cases h : op.key = key ∧ op.surface = surface
          · rw [if_pos h, if_pos (Prod.ext h.1 h.2)]
          · rw [if_neg h, if_neg (fun heq => h (Prod.mk.inj heq))]
  | retract key surface =>
    have hsub : (dropEntry key surface (latestJournalOps ops)).Sublist ops :=
      List.filter_sublist.trans (latestJournalOps_sublist ops)
    rcases writes_retract hload key surface with hwrites | hwrites
    · refine hreplace (fun o ho => hlog.wellFormed o (hsub.subset ho)) ?_ ?_ hwrites
      · have hle := length_encodeFrames_le_of_sublist hsub
        have hbound := hlog.length_le
        rw [List.length_append] at hbound
        omega
      · funext key' surface'
        unfold JournalCall.apply JournalCall.entry JournalCall.asked
        rw [latestEnglishJournalOp_dropEntry, latestEnglishJournalOp_latestJournalOps]
        by_cases h : key = key' ∧ surface = surface'
        · rw [if_pos h, if_pos (Prod.ext h.1 h.2)]
        · rw [if_neg h, if_neg (fun heq => h (Prod.mk.inj heq))]
    · exact hnone hwrites

end Calls

/-- **A journal survives a call, stopped anywhere, if and only if the frames
fit.** -/
theorem journalCrashSafe_iff {file : Bytes} {call : JournalCall} (hcall : call.WellFormed) :
    JournalCrashSafe file call ↔ JournalFits file call := by
  constructor
  · intro h
    cases call with
    | retract key surface => trivial
    | append op =>
      have hop : op.WellFormed := hcall
      intro ops endOffset hload
      obtain ⟨rfl, field, tail, hlog⟩ := loadEnglishJournal_eq_ok_iff.mp hload
      by_cases hfull : journalFull ops op = true
      · exact Or.inl hfull
      · refine Or.inr (not_lt.mp fun hlarge => ?_)
        unfold journalAfter at hlarge
        by_cases hgrown : journalOutgrown ops op = true
        · -- the journal that replaces the old one is too large
          rw [if_pos hgrown] at hlarge
          have hwrites : (JournalCall.append op).writes file
              = [.replace (encodeJournal (rewritten ops op))] := by
            simp [JournalCall.writes, appendEnglishJournalOp, hop.accepted, hload, hfull, hgrown]
          obtain ⟨ops', endOffset', hload', -⟩ := h ops _ hload 1
          rw [hwrites, stopped_cons_succ, stopped_zero] at hload'
          have hlost : loadEnglishJournal (encodeJournal (rewritten ops op)) = .unavailable :=
            loadEnglishJournal_of_lt hlarge
          exact absurd (hlost.symm.trans hload') (by simp)
        · -- the frame makes the journal too large, and so does its count
          rw [if_neg hgrown] at hlarge
          have hwrites : (JournalCall.append op).writes file = appendWrites file.length
              (16 + (encodeFrames ops).length) op (UInt32.ofNat (ops.length + 1)) := by
            simp [JournalCall.writes, appendEnglishJournalOp, hop.accepted, hload, hfull, hgrown]
          obtain ⟨ops', endOffset', hload', -⟩ := h ops _ hload (appendWrites file.length
            (16 + (encodeFrames ops).length) op (UInt32.ofNat (ops.length + 1))).length
          rw [hwrites, (stopped_appendWrites hlog length_journalMagic op _ _).2.2 (Nat.le_refl _),
            loadEnglishJournal_of_lt hlarge] at hload'
          cases hload'
  · intro hfits ops endOffset hload n
    obtain ⟨ops', endOffset', hload', hlatest⟩ := load_stopped hload hcall hfits n
    refine ⟨ops', endOffset', hload', fun key surface => ?_⟩
    rw [hlatest]
    split
    · unfold JournalCall.apply
      by_cases hentry : call.entry = (key, surface)
      · rw [if_pos hentry]
        exact Or.inr ⟨hentry, rfl⟩
      · rw [if_neg hentry]
        exact Or.inl rfl
    · exact Or.inl rfl

/-! ## Sequences of calls -/

/-- **An overlay after appends for a base**, each carried out or stopped
anywhere, with the operations of those that were carried out. -/
inductive OverlayRun (hash : UInt32) (file : Bytes) : List OverlayOp → Bytes → Prop
  | start : OverlayRun hash file [] file
  | append {done : List OverlayOp} {file' : Bytes} {op : OverlayOp} {ws : List Write} (n : ℕ) :
      OverlayRun hash file done file' → op.WellFormed → OverlayFits file' hash op →
      appendEnglishOverlayOp file' hash op = some ws →
      OverlayRun hash file (if n < ws.length then done else done ++ [op]) (stopped file' ws n)

/-- An append that is carried out. -/
theorem OverlayRun.carriedOut {hash : UInt32} {file file' : Bytes} {done : List OverlayOp}
    (h : OverlayRun hash file done file') {op : OverlayOp} (hop : op.WellFormed)
    (hfits : OverlayFits file' hash op) {ws : List Write}
    (hws : appendEnglishOverlayOp file' hash op = some ws) :
    OverlayRun hash file (done ++ [op]) (after file' ws) := by
  have hrun := h.append ws.length hop hfits hws
  rw [if_neg (lt_irrefl _), stopped_of_le (Nat.le_refl _)] at hrun
  exact hrun

/-- **A journal after calls**, each carried out or stopped anywhere, with those
that were carried out. -/
inductive JournalRun (file : Bytes) : List JournalCall → Bytes → Prop
  | start : JournalRun file [] file
  | call {done : List JournalCall} {file' : Bytes} {call : JournalCall} (n : ℕ) :
      JournalRun file done file' → call.WellFormed → JournalFits file' call →
      JournalRun file (if call.writes file' ≠ [] ∧ (call.writes file').length ≤ n
        then done ++ [call] else done) (stopped file' (call.writes file') n)

/-- **The frame of an append that was stopped is never read.** -/
theorem OverlayRun.read {hash : UInt32} {file file' : Bytes} {done : List OverlayOp}
    (h : OverlayRun hash file done file') {c : OverlayContents}
    (hread : readEnglishOverlay file = some c) (hhash : c.header.baseFingerprint = hash) :
    ∃ c', readEnglishOverlay file' = some c' ∧ c'.header.baseFingerprint = hash
      ∧ c'.ops = c.ops ++ done := by
  induction h with
  | start => exact ⟨c, hread, hhash, (List.append_nil _).symm⟩
  | @append done file' op ws n _ hop hfits hws ih =>
    obtain ⟨c', hread', hhash', hops⟩ := ih
    have hstep := readEnglishOverlay_stopped hread' hhash' hop (hfits c' hread' hhash') hws n
    refine ⟨_, hstep, rfl, ?_⟩
    by_cases hn : n < ws.length
    · rw [if_pos hn, if_pos hn, hops]
    · rw [if_neg hn, if_neg hn, hops, List.append_assoc]

/-- **The latest operations are those of the calls that were carried out.** -/
theorem JournalRun.latest {file file' : Bytes} {done : List JournalCall}
    (h : JournalRun file done file') {ops : List OverlayOp} {endOffset : ℕ}
    (hload : loadEnglishJournal file = .ok ops endOffset) :
    ∃ ops' endOffset', loadEnglishJournal file' = .ok ops' endOffset'
      ∧ latestEnglishJournalOp ops' = done.foldl JournalCall.apply (latestEnglishJournalOp ops) := by
  induction h with
  | start => exact ⟨ops, endOffset, hload, rfl⟩
  | @call done file' call n _ hcall hfits ih =>
    obtain ⟨ops', endOffset', hload', hlatest⟩ := ih
    obtain ⟨ops'', endOffset'', hload'', hlatest'⟩ := load_stopped hload' hcall hfits n
    refine ⟨ops'', endOffset'', hload'', ?_⟩
    rw [hlatest', hlatest]
    by_cases hdone : call.writes file' ≠ [] ∧ (call.writes file').length ≤ n
    · rw [if_pos hdone, if_pos hdone, List.foldl_append, List.foldl_cons, List.foldl_nil]
    · rw [if_neg hdone, if_neg hdone]

/-- **The logs survive writers that stop.** An overlay of the base keeps its
operations, with or without the new one; from any other overlay nothing but the
new operation can be read for the base; a journal survives a call if and only if
the frames fit; and after any sequence of calls, carried out or stopped, the
logs hold what the calls asked for that were carried out. -/
theorem logs_survive_stops (file : Bytes) (hash : UInt32) (op : OverlayOp) (call : JournalCall) :
    (∀ (ws : List Write) (n : ℕ), op.WellFormed → OverlayFits file hash op →
      appendEnglishOverlayOp file hash op = some ws →
      (∀ c, readEnglishOverlay file = some c → c.header.baseFingerprint = hash →
        ∃ c', readEnglishOverlay (stopped file ws n) = some c' ∧ c'.header.baseFingerprint = hash
          ∧ (c'.ops = c.ops ∨ c'.ops = c.ops ++ [op]))
      ∧ (¬ Matches file hash → ∀ c, readEnglishOverlay (stopped file ws n) = some c →
        c.header.baseFingerprint = hash → ∀ o ∈ c.ops, o = op))
    ∧ (call.WellFormed → (JournalCrashSafe file call ↔ JournalFits file call))
    ∧ (∀ (file' : Bytes) (done : List OverlayOp) (c : OverlayContents),
      OverlayRun hash file done file' → readEnglishOverlay file = some c →
      c.header.baseFingerprint = hash → ∃ c', readEnglishOverlay file' = some c'
        ∧ c'.header.baseFingerprint = hash ∧ c'.ops = c.ops ++ done)
    ∧ (∀ (file' : Bytes) (done : List JournalCall) (ops : List OverlayOp) (endOffset : ℕ),
      JournalRun file done file' → loadEnglishJournal file = .ok ops endOffset →
      ∃ ops' endOffset', loadEnglishJournal file' = .ok ops' endOffset'
        ∧ latestEnglishJournalOp ops'
          = done.foldl JournalCall.apply (latestEnglishJournalOp ops)) := by
  refine ⟨fun ws n hop hfits hws => ⟨fun c hread hhash => ?_, fun hnot c hread hhash => ?_⟩,
    fun hcall => journalCrashSafe_iff hcall,
    fun file' done c h hread hhash => h.read hread hhash,
    fun file' done ops endOffset h hload => h.latest hload⟩
  · have hstep := readEnglishOverlay_stopped hread hhash hop (hfits c hread hhash) hws n
    refine ⟨_, hstep, rfl, ?_⟩
    by_cases hn : n < ws.length
    · exact Or.inl (if_pos hn)
    · exact Or.inr (if_neg hn)
  · intro o ho
    rcases ops_stopped_of_not_matches hnot hop hws n hread hhash with hops | hops
    · rw [hops] at ho
      cases ho
    · rw [hops] at ho
      exact List.mem_singleton.mp ho

/-- A word. -/
def goOp : OverlayOp := ⟨.upsert, 0, utf8 "go", utf8 "Go", 1⟩

/-- It is well formed. -/
theorem wellFormed_goOp : goOp.WellFormed :=
  ⟨by decide, by decide, by decide, by decide +kernel, by decide +kernel⟩

/-- An overlay that holds the word. -/
def goOverlay : Bytes := logHead overlayMagic 0 1 ++ encodeFrames [goOp]

/-- It is a log. -/
theorem isLog_goOverlay : IsLog overlayMagic 0 [goOp] [] goOverlay := by
  refine ⟨by rw [List.append_nil]; rfl, fun op hop => ?_, by decide⟩
  rw [List.mem_singleton.mp hop]
  exact wellFormed_goOp

/-- **An append that stopped with its frame written and not counted**, and one more
that was carried out: the word is there once more, and not twice. -/
theorem logs_survive_stops_notCounted :
    ∃ ws ws', appendEnglishOverlayOp goOverlay 0 goOp = some ws
      ∧ stopped goOverlay ws 1 = goOverlay ++ encodeFrame goOp
      ∧ appendEnglishOverlayOp (stopped goOverlay ws 1) 0 goOp = some ws'
      ∧ ∃ c, readEnglishOverlay (after (stopped goOverlay ws 1) ws') = some c
        ∧ c.ops = [goOp, goOp] := by
  have hop := wellFormed_goOp
  have hlog := isLog_goOverlay
  have hroom : (encodeFrames ([goOp] ++ [goOp])).length ≤ maxOverlayBytes := by decide
  have happend := appendEnglishOverlayOp_of_isLog hlog hop.accepted
  have hstopped : stopped goOverlay _ 1 = goOverlay ++ encodeFrame goOp :=
    (stopped_appendWrites hlog length_overlayMagic goOp 2 1).2.1 rfl
  obtain ⟨tail, hlog'⟩ := (isLog_stopped_appendWrites hlog length_overlayMagic hop hroom 1).1 (by decide)
  have happend' := appendEnglishOverlayOp_of_isLog hlog' hop.accepted
  have hrun := OverlayRun.append 1 (.start) hop ((overlayFits_iff hlog).mpr hroom) happend
  rw [if_pos (by decide)] at hrun
  have hrun := hrun.carriedOut hop ((overlayFits_iff hlog').mpr hroom) happend'
  obtain ⟨c, hread, -, hops⟩ := (logs_survive_stops goOverlay 0 goOp (.append goOp)).2.2.1
    _ _ _ hrun hlog.read rfl
  exact ⟨_, _, happend, hstopped, happend', c, hread, hops⟩

/-! ## A journal that is filled to the limit -/

/-- A text of one letter. -/
def letters (n : ℕ) : Bytes := List.replicate n 0x61

/-- Its length. -/
theorem length_letters (n : ℕ) : (letters n).length = n := List.length_replicate

/-- A large operation, one of many with different keys. -/
def largeOp (i : ℕ) : OverlayOp where
  kind := .upsert
  flags := 0
  key := letters 65533 ++ [UInt8.ofNat (0x40 + i / 32), UInt8.ofNat (0x40 + i % 32)]
  surface := letters 65527
  frequency := 1

/-- 512 large operations. -/
def largeOps : List OverlayOp := (List.range 512).map largeOp

/-- The lengths of the texts of a large operation. -/
theorem length_largeOp (i : ℕ) :
    (largeOp i).key.length = 65535 ∧ (largeOp i).surface.length = 65527 := by
  constructor
  · show (letters 65533 ++ [UInt8.ofNat (0x40 + i / 32), UInt8.ofNat (0x40 + i % 32)]).length = 65535
    rw [List.length_append, length_letters]
    rfl
  · exact length_letters _

/-- A text of printable letters is valid. -/
theorem isValidUtf8_of_printable {text : Bytes} (h : ∀ c ∈ text, 0x20 < c ∧ c < 0x80) :
    Core.Dictionary.isValidUtf8 text = true := by
  refine Core.Dictionary.isValidUtf8_iff.mpr ⟨.of_all_ascii ?_, fun hzero => ?_⟩
  · exact List.all_eq_true.mpr (fun c hc => decide_eq_true (h c hc).2)
  · exact absurd (h 0 hzero).1 (by decide)

/-- The letters are printable. -/
theorem printable_letters (n : ℕ) : ∀ c ∈ letters n, 0x20 < c ∧ c < 0x80 := by
  intro c hc
  rw [List.eq_of_mem_replicate hc]
  decide

/-- The two letters that tell the keys apart. -/
theorem toNat_letter {k : ℕ} (hk : k < 32) : (UInt8.ofNat (0x40 + k)).toNat = 0x40 + k := by
  rw [UInt8.toNat_ofNat']
  omega

/-- Large operations are well formed. -/
theorem wellFormed_largeOp {i : ℕ} (hi : i < 1024) : (largeOp i).WellFormed := by
  have hprintable : ∀ {k : ℕ}, k < 32 → 0x20 < UInt8.ofNat (0x40 + k) ∧ UInt8.ofNat (0x40 + k) < 0x80 := by
    intro k hk
    have hnat := toNat_letter hk
    constructor
    · refine UInt8.lt_iff_toNat_lt.mpr ?_
      rw [hnat]
      show 0x20 < 0x40 + k
      omega
    · refine UInt8.lt_iff_toNat_lt.mpr ?_
      rw [hnat]
      show 0x40 + k < 0x80
      omega
  obtain ⟨hkey, hsurface⟩ := length_largeOp i
  refine ⟨fun h => ?_, by rw [hkey], by rw [hsurface]; decide, isValidUtf8_of_printable ?_,
    isValidUtf8_of_printable (printable_letters _)⟩
  · rw [h] at hkey
    cases hkey
  · intro c hc
    rcases List.mem_append.mp hc with hc | hc
    · exact printable_letters _ c hc
    · rcases List.mem_cons.mp hc with rfl | hc
      · exact hprintable (by omega)
      · rw [List.mem_singleton.mp hc]
        exact hprintable (by omega)

/-- The keys of large operations differ. -/
theorem eq_of_key_largeOp {i j : ℕ} (hi : i < 1024) (hj : j < 1024)
    (h : (largeOp i).key = (largeOp j).key) : i = j := by
  have hlast : [UInt8.ofNat (0x40 + i / 32), UInt8.ofNat (0x40 + i % 32)]
      = [UInt8.ofNat (0x40 + j / 32), UInt8.ofNat (0x40 + j % 32)] := List.append_cancel_left h
  obtain ⟨hhigh, hlow⟩ := List.cons.inj hlast
  have h₁ := congrArg UInt8.toNat hhigh
  have h₂ := congrArg UInt8.toNat (List.cons.inj hlow).1
  rw [toNat_letter (by omega), toNat_letter (by omega)] at h₁
  rw [toNat_letter (by omega), toNat_letter (by omega)] at h₂
  omega

/-- The frames of large operations. -/
theorem length_encodeFrames_largeOp (is : List ℕ) :
    (encodeFrames (is.map largeOp)).length = 131072 * is.length := by
  induction is with
  | nil => rfl
  | cons i is ih =>
    obtain ⟨hkey, hsurface⟩ := length_largeOp i
    rw [List.map_cons, encodeFrames_cons, List.length_append, ih, length_encodeFrame, hkey, hsurface,
      List.length_cons]
    omega

/-- Operations of different entries are all the latest ones. -/
theorem latestJournalOps_of_pairwise {ops : List OverlayOp}
    (h : ops.Pairwise (fun a b => sameEntry a b = false)) : latestJournalOps ops = ops := by
  induction ops with
  | nil => rfl
  | cons op ops ih =>
    rw [List.pairwise_cons] at h
    have hnone : ops.any (sameEntry op) = false := by
      rw [List.any_eq_false]
      intro o ho
      rw [h.1 o ho]
      exact Bool.false_ne_true
    rw [latestJournalOps, hnone, ih h.2]
    rfl

/-- A journal of 64 mebibytes. -/
def largeJournal : Bytes := encodeJournal largeOps

/-- It can be read. -/
theorem load_largeJournal :
    loadEnglishJournal largeJournal = .ok largeOps (16 + (encodeFrames largeOps).length) := by
  refine (isLog_encodeJournal (fun op hop => ?_) ?_).load
  · obtain ⟨i, hi, rfl⟩ := List.mem_map.mp hop
    have hi := List.mem_range.mp hi
    exact wellFormed_largeOp (by omega)
  · unfold largeOps
    rw [length_encodeFrames_largeOp, List.length_range]
    decide

/-- One large operation more does not fit. -/
theorem not_journalFits_largeJournal : ¬ JournalFits largeJournal (.append (largeOp 512)) := by
  intro h
  have hdiffers : ∀ {i j : ℕ}, i < 1024 → j < 1024 → i ≠ j →
      sameEntry (largeOp i) (largeOp j) = false := by
    intro i j hi hj hne
    have hkey : ¬ (largeOp i).key = (largeOp j).key := fun hkey => hne (eq_of_key_largeOp hi hj hkey)
    unfold sameEntry
    rw [decide_eq_false hkey, Bool.false_and]
  have hlatest : latestJournalOps largeOps = largeOps := by
    refine latestJournalOps_of_pairwise ?_
    unfold largeOps
    rw [List.pairwise_map]
    refine List.pairwise_lt_range.imp_of_mem fun {i j} hi hj hlt => ?_
    have hi := List.mem_range.mp hi
    have hj := List.mem_range.mp hj
    exact hdiffers (by omega) (by omega) (Nat.ne_of_lt hlt)
  have hlength : largeOps.length = 512 := by
    unfold largeOps
    rw [List.length_map, List.length_range]
  have hnew : largeOps.any (sameEntry (largeOp 512)) = false := by
    rw [List.any_eq_false]
    intro op hop
    obtain ⟨i, hi, rfl⟩ := List.mem_map.mp hop
    have hi := List.mem_range.mp hi
    rw [hdiffers (by omega) (by omega) (by omega)]
    exact Bool.false_ne_true
  have hfull : journalFull largeOps (largeOp 512) = false := by
    unfold journalFull
    rw [hlatest, hnew, hlength]
    rfl
  have hgrown : journalOutgrown largeOps (largeOp 512) = false := by
    unfold journalOutgrown
    dsimp only
    rw [hlatest, hnew, hlength]
    rfl
  rcases h largeOps _ load_largeJournal with hcase | hcase
  · rw [hfull] at hcase
    cases hcase
  · have hframes : encodeFrames (largeOps ++ [largeOp 512])
        = encodeFrames ((List.range 512 ++ [512]).map largeOp) := by
      rw [List.map_append]
      rfl
    unfold journalAfter at hcase
    rw [hgrown, if_neg Bool.false_ne_true, hframes, length_encodeFrames_largeOp, List.length_append,
      List.length_range] at hcase
    exact absurd hcase (by decide)

/-- **Not every journal survives an append**: not the one that is filled to the
limit. -/
theorem not_journalCrashSafe_largeJournal :
    ¬ ∀ (file : Bytes) (call : JournalCall), call.WellFormed → JournalCrashSafe file call := by
  intro h
  have hop : (JournalCall.append (largeOp 512)).WellFormed := wellFormed_largeOp (by omega)
  exact not_journalFits_largeJournal ((journalCrashSafe_iff hop).mp (h _ _ hop))

end AzooKey.Host.English

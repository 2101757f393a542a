import AzooKey.Host.English.Logs

/-!
# Writers of the logs that stop

What the writers of the overlay and of the journal leave behind when they stop
after any of their writes. A log that can be read stays one, with the
operations it had or with the new one behind them, as long as the frames fit
into `kMaxOverlayBytes`: the readers refuse larger logs, while the writers
check the size before an append and not after it.
-/

namespace AzooKey.Host.English

open LittleEndian RawFile

/-! ## One append -/

section Append

variable {magic : Bytes} {field : UInt32} {ops : List OverlayOp} {tail file : Bytes}

/-- The count of a header is written over. -/
theorem apply_writeAt_count (hmagic : magic.length = 4) (field count count' : UInt32)
    (body : Bytes) : (Write.writeAt 12 (u32 count')).apply (logHead magic field count ++ body)
      = logHead magic field count' ++ body := by
  have hfront : (magic ++ u32 1 ++ u32 field).length = 12 := by
    simp only [List.length_append, length_u32, hmagic]
  have hwrite := apply_writeAt (magic ++ u32 1 ++ u32 field) (u32 count) body (u32 count')
    (Eq.refl (logHead magic field count ++ body)) (by rw [length_u32, length_u32])
  rw [hfront] at hwrite
  exact hwrite

/-- **The states of a log to which a frame is appended**: until the count is
written the operations are those it had; then the new one is there, and nothing
is behind it. -/
theorem stopped_appendWrites (h : IsLog magic field ops tail file) (hmagic : magic.length = 4)
    (op : OverlayOp) (count : UInt32) (n : ℕ) :
    let ws := appendWrites file.length (16 + (encodeFrames ops).length) op count
    (n < ws.length → ∃ tail', (tail' = tail ∨ tail' = [] ∨ tail' = encodeFrame op)
      ∧ stopped file ws n
        = logHead magic field (UInt32.ofNat ops.length) ++ (encodeFrames ops ++ tail'))
    ∧ (n + 1 = ws.length → stopped file ws n
        = logHead magic field (UInt32.ofNat ops.length) ++ (encodeFrames ops ++ encodeFrame op))
    ∧ (ws.length ≤ n → stopped file ws n
        = logHead magic field count ++ encodeFrames (ops ++ [op])) := by
  have hhead := length_logHead hmagic field (UInt32.ofNat ops.length)
  have hcut : ∀ g, g = logHead magic field (UInt32.ofNat ops.length) ++ encodeFrames ops →
      (Write.writeAt (16 + (encodeFrames ops).length) (encodeFrame op)).apply g
        = logHead magic field (UInt32.ofNat ops.length) ++ (encodeFrames ops ++ encodeFrame op) := by
    rintro g rfl
    have hwrite := apply_writeAt_end
      (logHead magic field (UInt32.ofNat ops.length) ++ encodeFrames ops) (encodeFrame op)
    rw [List.length_append, hhead, List.append_assoc] at hwrite
    exact hwrite
  have hcount : (Write.writeAt 12 (u32 count)).apply
      (logHead magic field (UInt32.ofNat ops.length) ++ (encodeFrames ops ++ encodeFrame op))
        = logHead magic field count ++ encodeFrames (ops ++ [op]) := by
    rw [apply_writeAt_count hmagic, encodeFrames_append, encodeFrames_singleton]
  have hlength := h.length_eq hmagic
  intro ws
  by_cases htail : tail = []
  · -- nothing is cut off
    have hfile : file = logHead magic field (UInt32.ofNat ops.length) ++ encodeFrames ops := by
      rw [h.file_eq, htail, List.append_nil]
    have hws : ws = [.writeAt (16 + (encodeFrames ops).length) (encodeFrame op),
        .writeAt 12 (u32 count)] := by
      show (if _ then _ else _) ++ _ = _
      rw [if_neg (by rw [hlength, htail, List.length_nil]; omega), List.nil_append]
    rw [hws]
    rcases n with _ | _ | n
    · refine ⟨fun _ => ⟨tail, Or.inl rfl, ?_⟩, ?_, ?_⟩
      · rw [stopped_zero]
        exact h.file_eq
      · intro hn
        cases hn
      · intro hn
        cases hn
    · have hstate := hcut file hfile
      refine ⟨fun _ => ⟨encodeFrame op, Or.inr (Or.inr rfl), ?_⟩, fun _ => ?_, ?_⟩
      · rw [stopped_cons_succ, stopped_zero, hstate]
      · rw [stopped_cons_succ, stopped_zero, hstate]
      · intro hn
        simp only [List.length_cons, List.length_nil] at hn
        omega
    · refine ⟨fun hn => ?_, fun hn => ?_, fun _ => ?_⟩
      · simp only [List.length_cons, List.length_nil] at hn
        omega
      · simp only [List.length_cons, List.length_nil] at hn
        omega
      · rw [stopped_cons_succ, stopped_cons_succ, stopped_nil, hcut file hfile, hcount]
  · have hpos := List.length_pos_iff.mpr htail
    have htruncate : (Write.truncate (16 + (encodeFrames ops).length)).apply file
        = logHead magic field (UInt32.ofNat ops.length) ++ encodeFrames ops := by
      have hcutting := apply_truncate
        (logHead magic field (UInt32.ofNat ops.length) ++ encodeFrames ops) tail
        (h.file_eq.trans (List.append_assoc _ _ _).symm)
      rw [List.length_append, hhead] at hcutting
      exact hcutting
    have hws : ws = [.truncate (16 + (encodeFrames ops).length),
        .writeAt (16 + (encodeFrames ops).length) (encodeFrame op), .writeAt 12 (u32 count)] := by
      show (if _ then _ else _) ++ _ = _
      rw [if_pos (by rw [hlength]; omega)]
      rfl
    rw [hws]
    rcases n with _ | _ | _ | n
    · refine ⟨fun _ => ⟨tail, Or.inl rfl, ?_⟩, ?_, ?_⟩
      · rw [stopped_zero]
        exact h.file_eq
      · intro hn
        cases hn
      · intro hn
        cases hn
    · refine ⟨fun _ => ⟨[], Or.inr (Or.inl rfl), ?_⟩, ?_, ?_⟩
      · rw [stopped_cons_succ, stopped_zero, htruncate, List.append_nil]
      · intro hn
        cases hn
      · intro hn
        simp only [List.length_cons, List.length_nil] at hn
        omega
    · have hstate := hcut _ htruncate
      refine ⟨fun _ => ⟨encodeFrame op, Or.inr (Or.inr rfl), ?_⟩, fun _ => ?_, ?_⟩
      · rw [stopped_cons_succ, stopped_cons_succ, stopped_zero, hstate]
      · rw [stopped_cons_succ, stopped_cons_succ, stopped_zero, hstate]
      · intro hn
        simp only [List.length_cons, List.length_nil] at hn
        omega
    · refine ⟨fun hn => ?_, fun hn => ?_, fun _ => ?_⟩
      · simp only [List.length_cons, List.length_nil] at hn
        omega
      · simp only [List.length_cons, List.length_nil] at hn
        omega
      · rw [stopped_cons_succ, stopped_cons_succ, stopped_cons_succ, stopped_nil, hcut _ htruncate,
          hcount]

/-- **A log to which a frame is appended is a log at each point**, if the frames
fit. -/
theorem isLog_stopped_appendWrites (h : IsLog magic field ops tail file) (hmagic : magic.length = 4)
    {op : OverlayOp} (hop : op.WellFormed)
    (hfits : (encodeFrames (ops ++ [op])).length ≤ maxOverlayBytes) (n : ℕ) :
    let ws := appendWrites file.length (16 + (encodeFrames ops).length) op
      (UInt32.ofNat (ops.length + 1))
    (n < ws.length → ∃ tail', IsLog magic field ops tail' (stopped file ws n))
      ∧ (ws.length ≤ n → IsLog magic field (ops ++ [op]) [] (stopped file ws n)) := by
  intro ws
  obtain ⟨hbefore, -, hdone⟩ :=
    stopped_appendWrites h hmagic op (UInt32.ofNat (ops.length + 1)) n
  rw [encodeFrames_append, encodeFrames_singleton] at hfits
  constructor
  · intro hn
    obtain ⟨tail', htail, hstate⟩ := hbefore hn
    refine ⟨tail', h.with_tail hstate ?_⟩
    rcases htail with rfl | rfl | rfl
    · exact h.length_le
    · rw [List.length_append] at hfits ⊢
      rw [List.length_nil]
      omega
    · exact hfits
  · intro hn
    refine ⟨?_, ?_, ?_⟩
    · rw [hdone hn, List.length_append, List.length_singleton, List.append_nil]
    · intro o ho
      rcases List.mem_append.mp ho with ho | ho
      · exact h.wellFormed o ho
      · rw [List.mem_singleton.mp ho]
        exact hop
    · rw [List.append_nil, encodeFrames_append, encodeFrames_singleton]
      exact hfits

end Append

/-! ## The overlay -/

/-- The frame of one operation fits. -/
theorem length_encodeFrame_le {op : OverlayOp} (h : op.WellFormed) :
    (encodeFrame op).length ≤ maxOverlayBytes := by
  have hkey := h.key_length
  have hsurface := h.surface_length
  rw [length_encodeFrame]
  unfold maxOverlayBytes
  omega

/-- A well-formed operation is accepted. -/
theorem OverlayOp.WellFormed.accepted {op : OverlayOp} (h : op.WellFormed) : op.accepted = true := by
  have hkey := h.key_ne
  simp [OverlayOp.accepted, h.key_ne, h.key_length, h.surface_length]

/-- **What the attach check finds.** -/
theorem attach_eq_attached_iff {file : Bytes} {hash : UInt32} {count : UInt32} {endOffset : ℕ} :
    attach file hash = .attached count endOffset ↔ ∃ ops tail, IsLog overlayMagic hash ops tail file
      ∧ count = UInt32.ofNat ops.length ∧ endOffset = 16 + (encodeFrames ops).length := by
  unfold attach
  constructor
  · intro h
    split at h
    · cases h
    · rename_i header hheader
      split at h
      · cases h
      · rename_i hhash
        rw [not_not] at hhash
        obtain ⟨rest, rfl⟩ := readEnglishOverlayHeader_eq_some_iff.mp hheader
        rw [(take_logHead_append length_overlayMagic _ _ rest).2, List.length_append,
          length_logHead length_overlayMagic] at h
        split at h
        · cases h
        · rename_i hsize
          split at h
          · cases h
          · rename_i ops tail hwalk
            cases h
            obtain ⟨hcount, hops, rfl⟩ := walkFrames_eq_some_iff.mp hwalk
            have hopCount : header.opCount = UInt32.ofNat ops.length := by
              rw [hcount, UInt32.ofNat_toNat]
            refine ⟨ops, tail, ⟨?_, hops, ?_⟩, hopCount, ?_⟩
            · rw [← hopCount, hhash]
            · omega
            · rw [List.length_append]
              omega
  · rintro ⟨ops, tail, hlog, rfl, rfl⟩
    have hread : readEnglishOverlay file = some ⟨⟨hash, UInt32.ofNat ops.length⟩, ops⟩ :=
      readEnglishOverlay_eq_some_iff.mpr ⟨rfl, tail, hlog⟩
    have hheader : readEnglishOverlayHeader file = some ⟨hash, UInt32.ofNat ops.length⟩ :=
      readEnglishOverlayHeader_eq_some_iff.mpr ⟨_, hlog.file_eq⟩
    have hlength := hlog.length_eq length_overlayMagic
    have hbound := hlog.length_le
    rw [List.length_append] at hbound
    have hdrop : file.drop 16 = encodeFrames ops ++ tail := by
      rw [hlog.file_eq, (take_logHead_append length_overlayMagic _ _ _).2]
    have hwalk : walkFrames (UInt32.ofNat ops.length).toNat (encodeFrames ops ++ tail)
        = some (ops, tail) :=
      walkFrames_eq_some_iff.mpr ⟨hlog.toNat_count.symm, hlog.wellFormed, rfl⟩
    rw [hheader]
    dsimp only
    rw [if_neg (not_not.mpr rfl), if_neg (by omega), hdrop, hwalk]
    dsimp only
    congr 1
    omega

/-- **The states of an overlay that is emptied**: no operation can be read until
it is a log of the new base, without any. -/
theorem stopped_reinitWrites (file : Bytes) (hash : UInt32) :
    (∀ n, ∀ c, 0 < n → readEnglishOverlay (stopped file (reinitWrites hash) n) = some c → c.ops = [])
      ∧ after file (reinitWrites hash) = logHead overlayMagic hash 0 := by
  have hzero : ∀ {g : Bytes} {c : OverlayContents}, (g.drop 12).take 4 = u32 0 →
      readEnglishOverlay g = some c → c.ops = [] := by
    intro g c hcount hread
    obtain ⟨hopCount, tail, hlog⟩ := readEnglishOverlay_eq_some_iff.mp hread
    have hdrop : (g.drop 12).take 4 = u32 (UInt32.ofNat c.ops.length) := by
      have hfront : (overlayMagic ++ u32 1 ++ u32 c.header.baseFingerprint).length = 12 := by
        simp only [List.length_append, length_u32, length_overlayMagic]
      rw [hlog.file_eq, logHead, List.append_assoc, List.drop_left' hfront,
        List.take_left' (length_u32 _)]
    have hnat := hlog.toNat_count
    have hsame : UInt32.ofNat c.ops.length = 0 := by
      have h₁ := getU32_u32_append (UInt32.ofNat c.ops.length) []
      have h₂ := getU32_u32_append 0 []
      rw [← hdrop, hcount] at h₁
      exact h₁.symm.trans h₂
    rw [hsame] at hnat
    exact List.length_eq_zero_iff.mp hnat.symm
  -- the three states
  set file₁ := (Write.writeAt 12 (u32 0)).apply file with hfile₁
  have hdrop₁ : file₁.drop 12 = u32 0 ++ file.drop 16 := by
    rw [hfile₁, drop_apply_writeAt, length_u32]
  have hlength₁ : 16 ≤ file₁.length := by
    have h := congrArg List.length hdrop₁
    rw [List.length_drop, List.length_append, length_u32] at h
    omega
  set file₂ := (Write.truncate 16).apply file₁ with hfile₂
  have htake : file₂ = file₁.take 16 := by
    rw [hfile₂]
    show (padTo 16 file₁).take 16 = file₁.take 16
    rw [padTo, List.take_append_of_le_length hlength₁]
  have hdrop₂ : file₂.drop 12 = u32 0 := by
    rw [htake, List.drop_take, hdrop₁, List.take_left' (length_u32 0)]
  have hlength₂ : file₂.length = 16 := by
    rw [hfile₂]
    exact length_apply_truncate _ _
  have hfile₃ : (Write.writeAt 0 (overlayMagic ++ u32 1 ++ u32 hash)).apply file₂
      = logHead overlayMagic hash 0 := by
    have hdata : (overlayMagic ++ u32 1 ++ u32 hash).length = 12 := by
      simp only [List.length_append, length_u32, length_overlayMagic]
    have h := drop_apply_writeAt file₂ 0 (overlayMagic ++ u32 1 ++ u32 hash)
    rw [List.drop_zero, hdata, Nat.zero_add, hdrop₂] at h
    exact h
  refine ⟨fun n c hn hread => ?_, hfile₃⟩
  rcases n with _ | _ | _ | n
  · exact absurd hn (Nat.lt_irrefl 0)
  · refine hzero (g := file₁) ?_ hread
    rw [hdrop₁, List.take_left' (length_u32 0)]
  · refine hzero (g := file₂) ?_ hread
    rw [hdrop₂, List.take_of_length_le (by rw [length_u32])]
  · have hstate : stopped file (reinitWrites hash) (n + 3) = logHead overlayMagic hash 0 := by
      rw [stopped_of_le (by show 3 ≤ n + 3; omega)]
      exact hfile₃
    rw [hstate] at hread
    refine hzero (g := logHead overlayMagic hash 0) ?_ hread
    have hfront : (overlayMagic ++ u32 1 ++ u32 hash).length = 12 := by
      simp only [List.length_append, length_u32, length_overlayMagic]
    rw [logHead, List.drop_left' hfront, List.take_of_length_le (by rw [length_u32])]

/-- The log that an emptied overlay is. -/
theorem isLog_empty (hash : UInt32) :
    IsLog overlayMagic hash [] [] (logHead overlayMagic hash 0) :=
  ⟨by simp, by simp, by simp⟩

/-- **The operations of an overlay and a new one fit.** -/
def OverlayFits (file : Bytes) (hash : UInt32) (op : OverlayOp) : Prop :=
  ∀ c, readEnglishOverlay file = some c → c.header.baseFingerprint = hash →
    (encodeFrames (c.ops ++ [op])).length ≤ maxOverlayBytes

/-- A log of the overlay is read. -/
theorem IsLog.read {hash : UInt32} {ops : List OverlayOp} {tail file : Bytes}
    (h : IsLog overlayMagic hash ops tail file) :
    readEnglishOverlay file = some ⟨⟨hash, UInt32.ofNat ops.length⟩, ops⟩ :=
  readEnglishOverlay_eq_some_iff.mpr ⟨rfl, tail, h⟩

/-- When the frames fit into an overlay of the base. -/
theorem overlayFits_iff {file tail : Bytes} {hash : UInt32} {ops : List OverlayOp}
    (h : IsLog overlayMagic hash ops tail file) {op : OverlayOp} :
    OverlayFits file hash op ↔ (encodeFrames (ops ++ [op])).length ≤ maxOverlayBytes := by
  refine ⟨fun hfits => hfits _ h.read rfl, fun hfits c hread _ => ?_⟩
  rw [← Option.some.inj (h.read.symm.trans hread)]
  exact hfits

/-- An overlay of the base can be read. -/
def Matches (file : Bytes) (hash : UInt32) : Prop :=
  ∃ c, readEnglishOverlay file = some c ∧ c.header.baseFingerprint = hash

/-- The writes of an append to an overlay of the base. -/
theorem appendEnglishOverlayOp_of_isLog {file tail : Bytes} {hash : UInt32} {ops : List OverlayOp}
    (h : IsLog overlayMagic hash ops tail file) {op : OverlayOp} (hop : op.accepted = true) :
    appendEnglishOverlayOp file hash op = some (appendWrites file.length
      (16 + (encodeFrames ops).length) op (UInt32.ofNat (ops.length + 1))) := by
  have hattach := attach_eq_attached_iff.mpr ⟨ops, tail, h, rfl, rfl⟩
  unfold appendEnglishOverlayOp
  rw [hattach, hop]
  have hcount : UInt32.ofNat ops.length + 1 = UInt32.ofNat (ops.length + 1) := by
    rw [UInt32.ofNat_add]
    rfl
  rw [← hcount]
  rfl

/-- The writes of an append to another overlay, if it may be emptied. -/
theorem appendEnglishOverlayOp_of_not_matches {file : Bytes} {hash : UInt32} {op : OverlayOp}
    (h : ¬ Matches file hash) {ws : List Write} (hws : appendEnglishOverlayOp file hash op = some ws) :
    ws = reinitWrites hash ++ appendWrites 16 16 op 1 := by
  unfold appendEnglishOverlayOp at hws
  split at hws
  · cases hws
  · split at hws
    · cases hws
    · exact (Option.some.inj hws).symm
    · rename_i count endOffset hattach
      obtain ⟨ops, tail, hlog, -, -⟩ := attach_eq_attached_iff.mp hattach
      exact absurd ⟨⟨⟨hash, UInt32.ofNat ops.length⟩, ops⟩,
        readEnglishOverlay_eq_some_iff.mpr ⟨rfl, tail, hlog⟩, rfl⟩ h

/-- **An append to an overlay of the base, stopped anywhere**, leaves its
operations, and the new one behind them when it has made all its writes. -/
theorem readEnglishOverlay_stopped {file : Bytes} {hash : UInt32} {c : OverlayContents}
    (hread : readEnglishOverlay file = some c) (hhash : c.header.baseFingerprint = hash)
    {op : OverlayOp} (hop : op.WellFormed)
    (hfits : (encodeFrames (c.ops ++ [op])).length ≤ maxOverlayBytes) {ws : List Write}
    (hws : appendEnglishOverlayOp file hash op = some ws) (n : ℕ) :
    let ops := if n < ws.length then c.ops else c.ops ++ [op]
    readEnglishOverlay (stopped file ws n) = some ⟨⟨hash, UInt32.ofNat ops.length⟩, ops⟩ := by
  intro ops
  obtain ⟨-, tail, hlog⟩ := readEnglishOverlay_eq_some_iff.mp hread
  rw [hhash] at hlog
  rw [appendEnglishOverlayOp_of_isLog hlog hop.accepted] at hws
  obtain rfl := Option.some.inj hws
  obtain ⟨hbefore, hdone⟩ :=
    isLog_stopped_appendWrites hlog length_overlayMagic hop hfits n
  by_cases hn : n < (appendWrites file.length (16 + (encodeFrames c.ops).length) op
      (UInt32.ofNat (c.ops.length + 1))).length
  · have hops : ops = c.ops := if_pos hn
    obtain ⟨tail', hlog'⟩ := hbefore hn
    rw [hops]
    exact readEnglishOverlay_eq_some_iff.mpr ⟨rfl, tail', hlog'⟩
  · have hops : ops = c.ops ++ [op] := if_neg hn
    rw [hops]
    exact readEnglishOverlay_eq_some_iff.mpr ⟨rfl, [], hdone (not_lt.mp hn)⟩

/-- **An append to any other overlay, stopped anywhere**, leaves no operation but
the new one to be read for the new base. -/
theorem ops_stopped_of_not_matches {file : Bytes} {hash : UInt32} (h : ¬ Matches file hash)
    {op : OverlayOp} (hop : op.WellFormed) {ws : List Write}
    (hws : appendEnglishOverlayOp file hash op = some ws) (n : ℕ) {c : OverlayContents}
    (hread : readEnglishOverlay (stopped file ws n) = some c) (hhash : c.header.baseFingerprint = hash) :
    c.ops = [] ∨ c.ops = [op] := by
  obtain rfl := appendEnglishOverlayOp_of_not_matches h hws
  obtain ⟨hempty, hdone⟩ := stopped_reinitWrites file hash
  by_cases hn : n ≤ (reinitWrites hash).length
  · have hstate : stopped file (reinitWrites hash ++ appendWrites 16 16 op 1) n
        = stopped file (reinitWrites hash) n := by
      unfold stopped
      rw [List.take_append_of_le_length hn]
    rw [hstate] at hread
    rcases Nat.eq_zero_or_pos n with rfl | hpos
    · rw [stopped_zero] at hread
      exact absurd ⟨c, hread, hhash⟩ h
    · exact Or.inl (hempty n c hpos hread)
  · -- the overlay is empty now, and the frame is appended to it
    have hstate : stopped file (reinitWrites hash ++ appendWrites 16 16 op 1) n
        = stopped (logHead overlayMagic hash 0) (appendWrites 16 16 op 1)
          (n - (reinitWrites hash).length) := by
      unfold stopped
      rw [List.take_append, List.take_of_length_le (by omega), after_append, hdone]
    have hlog := isLog_empty hash
    have hlength : (logHead overlayMagic hash 0).length = 16 := length_logHead length_overlayMagic _ _
    have hfits : (encodeFrames ([] ++ [op])).length ≤ maxOverlayBytes := by
      rw [List.nil_append, encodeFrames_singleton]
      exact length_encodeFrame_le hop
    obtain ⟨hbefore, hafter⟩ := isLog_stopped_appendWrites hlog length_overlayMagic hop hfits
      (n - (reinitWrites hash).length)
    rw [hlength] at hbefore hafter
    rw [hstate] at hread
    rcases lt_or_ge (n - (reinitWrites hash).length) (appendWrites 16 16 op 1).length with hlt | hge
    · obtain ⟨tail', hlog'⟩ := hbefore hlt
      have hsame := readEnglishOverlay_eq_some_iff (c := ⟨⟨hash, UInt32.ofNat 0⟩, []⟩) |>.mpr ⟨rfl, tail', hlog'⟩
      exact Or.inl (congrArg OverlayContents.ops (Option.some.inj (hread.symm.trans hsame)))
    · have hsame := readEnglishOverlay_eq_some_iff (c := ⟨⟨hash, UInt32.ofNat 1⟩, [op]⟩) |>.mpr
        ⟨rfl, [], hafter hge⟩
      exact Or.inr (congrArg OverlayContents.ops (Option.some.inj (hread.symm.trans hsame)))

end AzooKey.Host.English

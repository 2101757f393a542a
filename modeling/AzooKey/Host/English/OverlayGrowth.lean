import AzooKey.Host.English.Store

/-!
# What happens to an overlay while its base stays

Between two bases the overlay of a base only grows. It may belong to another
base at first and then become empty, but once it names the base the operations
that it counts stay, and later ones come behind them. This holds between any two
writes of any call that appends to the overlay or compacts the dictionary, which
is what a reader that does not take the lock relies on.

`Attached` says that an overlay counts some operations for a base, and `Grows`
that a sequence of states of an overlay has the property.
-/

namespace AzooKey.Host.English

open LittleEndian RawFile

/-- **The operations that an overlay counts for a base**, however large it is. -/
structure Attached (overlay : Bytes) (hash : UInt32) (ops : List OverlayOp) : Prop where
  shape : ∃ tail, overlay
    = logHead overlayMagic hash (UInt32.ofNat ops.length) ++ (encodeFrames ops ++ tail)
  wellFormed : ∀ op ∈ ops, op.WellFormed
  count : (UInt32.ofNat ops.length).toNat = ops.length

/-- The operations that the count and the fingerprint of an overlay cover. -/
def coveredOps (overlay : Bytes) (hash : UInt32) : List OverlayOp :=
  match readEnglishOverlayHeader overlay with
  | none => []
  | some header =>
    if header.baseFingerprint = hash
    then ((walkFrames header.opCount.toNat (overlay.drop 16)).map Prod.fst).getD []
    else []

section Attached

variable {overlay : Bytes} {hash : UInt32} {ops : List OverlayOp}

/-- The header of an overlay that counts operations. -/
theorem Attached.header (h : Attached overlay hash ops) :
    readEnglishOverlayHeader overlay = some ⟨hash, UInt32.ofNat ops.length⟩ := by
  obtain ⟨tail, htail⟩ := h.shape
  exact readEnglishOverlayHeader_eq_some_iff.mpr ⟨_, htail⟩

/-- The frames of the operations are what is walked, and it does not matter how
much of the file behind them is read. -/
theorem Attached.walk (h : Attached overlay hash ops) {rest : Bytes}
    (hrest : encodeFrames ops <+: rest) :
    ∃ tail, walkFrames (UInt32.ofNat ops.length).toNat rest = some (ops, tail) := by
  obtain ⟨tail, rfl⟩ := hrest
  exact ⟨tail, walkFrames_eq_some_iff.mpr ⟨h.count.symm, h.wellFormed, rfl⟩⟩

/-- The bytes behind the header begin with the frames. -/
theorem Attached.frames (h : Attached overlay hash ops) :
    encodeFrames ops <+: overlay.drop 16 := by
  obtain ⟨tail, htail⟩ := h.shape
  rw [htail, (take_logHead_append length_overlayMagic _ _ _).2]
  exact List.prefix_append _ _

/-- The covered operations are the counted ones. -/
theorem Attached.coveredOps_eq (h : Attached overlay hash ops) : coveredOps overlay hash = ops := by
  obtain ⟨tail, hwalk⟩ := h.walk h.frames
  unfold coveredOps
  rw [h.header]
  dsimp only
  rw [if_pos rfl, hwalk]
  rfl

/-- No operation is covered by an overlay of another base. -/
theorem coveredOps_of_ne (h : ∀ header, readEnglishOverlayHeader overlay = some header →
    header.baseFingerprint ≠ hash) : coveredOps overlay hash = [] := by
  unfold coveredOps
  split
  · rfl
  · rename_i header hheader
    exact if_neg (h header hheader)

/-- A log counts its operations. -/
theorem IsLog.attached {tail : Bytes} (h : IsLog overlayMagic hash ops tail overlay) :
    Attached overlay hash ops := ⟨⟨tail, h.file_eq⟩, h.wellFormed, h.toNat_count⟩

/-- An overlay counts one list of operations only. -/
theorem Attached.unique {ops' : List OverlayOp} (h : Attached overlay hash ops)
    (h' : Attached overlay hash ops') : ops = ops' := by
  rw [← h.coveredOps_eq, ← h'.coveredOps_eq]

end Attached

/-- **The states of an overlay grow for a base**: one that names the base counts
some operations for it, and the next state counts them too. -/
structure Grows (states : ℕ → Bytes) (hash : UInt32) : Prop where
  attached : ∀ n header, readEnglishOverlayHeader (states n) = some header →
    header.baseFingerprint = hash → ∃ ops, Attached (states n) hash ops
  step : ∀ n ops, Attached (states n) hash ops →
    ∃ ops', ops <+: ops' ∧ Attached (states (n + 1)) hash ops'

/-! ## Appending -/

/-- **An overlay to which a frame is appended grows.** The frame may make it too
large to be read. -/
theorem grows_appendWrites {overlay tail : Bytes} {hash : UInt32} {ops : List OverlayOp}
    (h : IsLog overlayMagic hash ops tail overlay) {op : OverlayOp} (hop : op.WellFormed) :
    let ws := appendWrites overlay.length (16 + (encodeFrames ops).length) op
      (UInt32.ofNat (ops.length + 1))
    (∀ n, n < ws.length → Attached (stopped overlay ws n) hash ops)
      ∧ (∀ n, ws.length ≤ n → Attached (stopped overlay ws n) hash (ops ++ [op])) := by
  intro ws
  constructor
  · intro n hn
    obtain ⟨tail', -, hstate⟩ := (stopped_appendWrites h length_overlayMagic op _ n).1 hn
    exact ⟨⟨tail', hstate⟩, h.wellFormed, h.toNat_count⟩
  · intro n hn
    have hstate := (stopped_appendWrites h length_overlayMagic op _ n).2.2 hn
    have hlength : (ops ++ [op]).length = ops.length + 1 := by
      rw [List.length_append, List.length_singleton]
    refine ⟨⟨[], ?_⟩, fun o ho => ?_, ?_⟩
    · rw [hstate, hlength, List.append_nil]
    · rcases List.mem_append.mp ho with ho | ho
      · exact h.wellFormed o ho
      · rw [List.mem_singleton.mp ho]
        exact hop
    · rw [hlength]
      refine UInt32.toNat_ofNat_of_lt' ?_
      have hframes := length_le_encodeFrames h.wellFormed
      have hbound := h.length_le
      rw [List.length_append] at hbound
      unfold maxOverlayBytes at hbound
      have hsize : UInt32.size = 4294967296 := rfl
      omega

/-- States that count these operations up to some point, and one more from then
on, grow. -/
theorem grows_of_attached {states : ℕ → Bytes} {hash : UInt32} {ops : List OverlayOp}
    {op : OverlayOp} {length : ℕ} (hbefore : ∀ n, n < length → Attached (states n) hash ops)
    (hafter : ∀ n, length ≤ n → Attached (states n) hash (ops ++ [op])) : Grows states hash := by
  constructor
  · intro n header _ _
    rcases lt_or_ge n length with hn | hn
    · exact ⟨ops, hbefore n hn⟩
    · exact ⟨ops ++ [op], hafter n hn⟩
  · intro n ops' h
    rcases lt_or_ge n length with hn | hn
    · rw [h.unique (hbefore n hn)]
      rcases lt_or_ge (n + 1) length with hn' | hn'
      · exact ⟨ops, List.prefix_refl _, hbefore _ hn'⟩
      · exact ⟨ops ++ [op], List.prefix_append _ _, hafter _ hn'⟩
    · rw [h.unique (hafter n hn)]
      exact ⟨ops ++ [op], List.prefix_refl _, hafter _ (by omega)⟩

/-! ## Emptying -/

/-- **The states of an overlay that is emptied for a base**: the count is
cleared, the frames are cut off, and the base is named. -/
theorem grows_reinitWrites {overlay : Bytes} {hash : UInt32}
    (hother : ∀ header, readEnglishOverlayHeader overlay = some header →
      header.baseFingerprint ≠ hash) : Grows (stopped overlay (reinitWrites hash)) hash := by
  set file₁ := (Write.writeAt 12 (u32 0)).apply overlay with hfile₁
  set file₂ := (Write.truncate 16).apply file₁ with hfile₂
  have hstate₁ : stopped overlay (reinitWrites hash) 1 = file₁ := rfl
  have hstate₂ : stopped overlay (reinitWrites hash) 2 = file₂ := rfl
  have hstate₃ : ∀ n, stopped overlay (reinitWrites hash) (n + 3) = logHead overlayMagic hash 0 := by
    intro n
    rw [stopped_of_le (by show 3 ≤ n + 3; omega)]
    exact (stopped_reinitWrites overlay hash).2
  have hempty := (isLog_empty hash).attached
  -- a header of the emptied overlay counts nothing
  have hdrop₁ : file₁.drop 12 = u32 0 ++ overlay.drop 16 := by
    rw [hfile₁, drop_apply_writeAt, length_u32]
  have hzero : ∀ {file rest : Bytes} {header : OverlayHeader}, file.drop 12 = u32 0 ++ rest →
      readEnglishOverlayHeader file = some header → header.opCount = 0 := by
    intro file rest header hdrop hheader
    obtain ⟨rest', rfl⟩ := readEnglishOverlayHeader_eq_some_iff.mp hheader
    have hfront : (overlayMagic ++ u32 1 ++ u32 header.baseFingerprint).length = 12 := by
      simp only [List.length_append, length_u32, length_overlayMagic]
    rw [logHead, List.append_assoc, List.drop_left' hfront] at hdrop
    have hcount := congrArg getU32 hdrop
    rwa [getU32_u32_append, getU32_u32_append] at hcount
  have hcut : file₂ = file₁.take 16 := by
    have hlength : 16 ≤ file₁.length := by
      have h := congrArg List.length hdrop₁
      rw [List.length_drop, List.length_append, length_u32] at h
      omega
    rw [hfile₂]
    show (padTo 16 file₁).take 16 = file₁.take 16
    rw [padTo, List.take_append_of_le_length hlength]
  have hdrop₂ : file₂.drop 12 = u32 0 ++ [] := by
    rw [hcut, List.drop_take, hdrop₁, List.take_left' (length_u32 0), List.append_nil]
  have hnone : ∀ {file rest : Bytes} {header : OverlayHeader}, file.drop 12 = u32 0 ++ rest →
      readEnglishOverlayHeader file = some header → header.baseFingerprint = hash →
      ∃ ops, Attached file hash ops := by
    intro file rest header hdrop hheader hhash
    obtain ⟨rest', hfile⟩ := readEnglishOverlayHeader_eq_some_iff.mp hheader
    refine ⟨[], ⟨rest', ?_⟩, by simp, rfl⟩
    rw [hfile, hzero hdrop hheader, hhash]
    rfl
  have hops : ∀ {file rest : Bytes} {ops : List OverlayOp}, file.drop 12 = u32 0 ++ rest →
      Attached file hash ops → ops = [] := by
    intro file rest ops hdrop h
    have hcount := h.count
    rw [show UInt32.ofNat ops.length = 0 from hzero hdrop h.header] at hcount
    exact List.length_eq_zero_iff.mp hcount.symm
  constructor
  · intro n header hheader hhash
    rcases n with _ | _ | _ | n
    · rw [stopped_zero] at hheader
      exact absurd hhash (hother header hheader)
    · rw [hstate₁] at hheader ⊢
      exact hnone hdrop₁ hheader hhash
    · rw [hstate₂] at hheader ⊢
      exact hnone hdrop₂ hheader hhash
    · rw [hstate₃]
      exact ⟨[], hempty⟩
  · intro n ops h
    rcases n with _ | _ | _ | n
    · rw [stopped_zero] at h
      exact absurd rfl (hother _ h.header)
    · rw [hstate₁] at h
      obtain rfl := hops hdrop₁ h
      -- what is left of the file is its header
      refine ⟨[], List.prefix_refl _, ?_⟩
      obtain ⟨tail, htail⟩ := h.shape
      rw [hstate₂, hcut, htail, (take_logHead_append length_overlayMagic _ _ _).1]
      exact hempty
    · rw [hstate₂] at h
      obtain rfl := hops hdrop₂ h
      rw [hstate₃ 0]
      exact ⟨[], List.prefix_refl _, hempty⟩
    · rw [hstate₃] at h
      rw [show n + 3 + 1 = n + 1 + 3 from rfl, hstate₃]
      obtain rfl := h.unique hempty
      exact ⟨[], List.prefix_refl _, hempty⟩

/-! ## Calls -/

/-- A writer that makes some writes and then others. -/
theorem stopped_append (file : Bytes) (ws ws' : List Write) (n : ℕ) :
    stopped file (ws ++ ws') n = if n ≤ ws.length then stopped file ws n
      else stopped (after file ws) ws' (n - ws.length) := by
  unfold stopped
  split
  · rename_i hn
    rw [List.take_append_of_le_length hn]
  · rw [List.take_append, List.take_of_length_le (by omega), after_append]

/-- An overlay that grows during some writes and then during others grows. -/
theorem Grows.append {file : Bytes} {ws ws' : List Write} {hash : UInt32}
    (h : Grows (stopped file ws) hash) (h' : Grows (stopped (after file ws) ws') hash) :
    Grows (stopped file (ws ++ ws')) hash := by
  constructor
  · intro n header hheader hhash
    rw [stopped_append] at hheader ⊢
    split at hheader
    · rename_i hn
      rw [if_pos hn]
      exact h.attached n header hheader hhash
    · rename_i hn
      rw [if_neg hn]
      exact h'.attached _ header hheader hhash
  · intro n ops hops
    rw [stopped_append] at hops ⊢
    split at hops
    · rename_i hn
      by_cases hn' : n + 1 ≤ ws.length
      · rw [if_pos hn']
        exact h.step n ops hops
      · -- the first of the other writes
        have heq : n = ws.length := by omega
        rw [if_neg hn', heq, Nat.add_sub_cancel_left]
        rw [heq, stopped_of_le (Nat.le_refl _)] at hops
        exact h'.step 0 ops (by rw [stopped_zero]; exact hops)
    · rename_i hn
      rw [if_neg (by omega), show n + 1 - ws.length = n - ws.length + 1 by omega]
      exact h'.step _ ops hops

/-- **An overlay to which an operation is appended grows**, at each write of the
call. -/
theorem grows_appendEnglishOverlayOp {overlay : Bytes} {hash : UInt32} {op : OverlayOp}
    (hreadable : ∀ header, readEnglishOverlayHeader overlay = some header →
      header.baseFingerprint = hash → (readEnglishOverlay overlay).isSome)
    (hop : op.WellFormed) {ws : List Write}
    (hws : appendEnglishOverlayOp overlay hash op = some ws) :
    Grows (stopped overlay ws) hash := by
  by_cases hmatches : Matches overlay hash
  · obtain ⟨c, hread, hhash⟩ := hmatches
    obtain ⟨-, tail, hlog⟩ := readEnglishOverlay_eq_some_iff.mp hread
    rw [hhash] at hlog
    rw [appendEnglishOverlayOp_of_isLog hlog hop.accepted] at hws
    rw [← Option.some.inj hws]
    obtain ⟨hbefore, hafter⟩ := grows_appendWrites hlog hop
    exact grows_of_attached hbefore hafter
  · have hother : ∀ header, readEnglishOverlayHeader overlay = some header →
        header.baseFingerprint ≠ hash := by
      intro header hheader hhash
      obtain ⟨c, hread⟩ := Option.isSome_iff_exists.mp (hreadable header hheader hhash)
      have hheader' := header_of_readEnglishOverlay hread
      refine hmatches ⟨c, hread, ?_⟩
      rw [← Option.some.inj (hheader.symm.trans hheader'), hhash]
    rw [appendEnglishOverlayOp_of_not_matches hmatches hws]
    refine (grows_reinitWrites hother).append ?_
    rw [(stopped_reinitWrites overlay hash).2]
    have hempty := isLog_empty hash
    obtain ⟨hbefore, hafter⟩ := grows_appendWrites hempty hop
    rw [length_logHead length_overlayMagic] at hbefore hafter
    exact grows_of_attached hbefore hafter

end AzooKey.Host.English

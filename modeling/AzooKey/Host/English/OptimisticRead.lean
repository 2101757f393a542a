import AzooKey.Host.English.OverlayGrowth

/-!
# Reading without the lock

A reader takes no lock. It samples the headers of the base and of the overlay,
makes a snapshot or takes the one it has for that sample, computes its result,
and samples the headers again; if nothing has changed it returns the result.
Each of these reads happens at a moment of its own, and writers, which do hold
the lock, write in between.

A `Timeline` is what the writers do: the files at every moment. The reader reads
them at moments that do not decrease (`Store.attempt`), in one attempt after the
other (`Reading`). The result is that a reader whose two samples agree has read
the dictionary that the files represented at one of the moments – or, if the
overlay could not be read whole, the base alone
(`readers_see_one_moment`).
-/

namespace AzooKey.Host.English

open LittleEndian RawFile

/-! ## Writers -/

/-- **A writer that holds the lock**: the files when its call began, what the call
writes, and how much of that is done. -/
structure Writer where
  start : Disk
  writes : List DiskWrite
  done : ℕ

/-- The files as they are. -/
def Writer.files (w : Writer) : Disk := w.start.stopped w.writes w.done

/-- **Files that can be read**: the base can be mapped, and an overlay that names
it can be read. -/
def Readable (d : Disk) : Prop :=
  ∃ image, d.mapBase = some image ∧ ∀ header, readEnglishOverlayHeader d.overlay = some header →
    header.baseFingerprint = image.header.contentHash → (readEnglishOverlay d.overlay).isSome

/-- The calls that a writer makes: `AppendEnglishOverlayOp` for the base on disk,
and `CompactEnglishDictionary`. -/
inductive WriterCall (d : Disk) : List DiskWrite → Prop
  | append {image : BaseImage} {op : OverlayOp} {writes : List Write} :
      d.mapBase = some image → op.WellFormed →
      appendEnglishOverlayOp d.overlay image.header.contentHash op = some writes →
      WriterCall d (writes.map .overlay)
  | compact {writes : List DiskWrite} : d.compactWrites = some writes → WriterCall d writes

/-- **A step of the writers**: the next write of a call, or another call, when the
one before is finished or was stopped. -/
inductive WriterStep : Writer → Writer → Prop
  | write {w : Writer} : w.done < w.writes.length → WriterStep w { w with done := w.done + 1 }
  | call {w : Writer} {writes : List DiskWrite} :
      Readable w.files → WriterCall w.files writes → WriterStep w ⟨w.files, writes, 0⟩
  | idle {w : Writer} : WriterStep w w

/-- **What writers do over time**, on files that can be read and whose base is the
one of the TSV. The hash of a base does not repeat: when the base is replaced,
neither an earlier base had the hash of the new one nor does the overlay
name it. -/
structure Timeline (t : ℕ → Writer) : Prop where
  idle : (t 0).writes = []
  readable : Readable (t 0).files
  current : ∀ n time, (t n).files.tsvTime = some time → (t n).files.baseMatchesTsv time = true
  step : ∀ n, WriterStep (t n) (t (n + 1))
  mapped : ∀ n, ∃ image, (t n).files.mapBase = some image
  fresh : ∀ n image, (t (n + 1)).files.base ≠ (t n).files.base →
    (t (n + 1)).files.mapBase = some image → ∀ i ≤ n,
      (∀ image', (t i).files.mapBase = some image' →
        image'.header.contentHash ≠ image.header.contentHash)
      ∧ ∀ header, readEnglishOverlayHeader (t i).files.overlay = some header →
        header.baseFingerprint ≠ image.header.contentHash

/-! ## Readers -/

/-- `ReadEnglishOverlay`, of which the header, the size and the frames are read
at three moments. -/
def readOverlayAt (headerFile sizeFile framesFile : Bytes) : Option OverlayContents :=
  match readEnglishOverlayHeader headerFile with
  | none => none
  | some header =>
    if sizeFile.length < 16 ∨ maxOverlayBytes < sizeFile.length - 16 then none
    else
      match if sizeFile.length = 16 then some [] else readAt framesFile 16 (sizeFile.length - 16) with
      | none => none
      | some rest => (walkFrames header.opCount.toNat rest).map (fun r => ⟨header, r.1⟩)

/-- **One attempt of `Read`**: the store with the snapshot that the result is
computed from. The headers are sampled, the base is mapped, and the header, the
size and the frames of the overlay are read, each at its moment. -/
def Store.attempt (s : Store) (files : ℕ → Disk) (m : ℕ → ℕ) (faults : Faults) : Store :=
  let before := takeSample (files (m 0)) (files (m 1))
  if s.snapshotSample = some before then s
  else
    let (s', _, base, consistent) := s.rebuildBase before false faults (files (m 2))
    s'.rebuildSnapshot before base consistent
      (readOverlayAt (files (m 3)).overlay (files (m 4)).overlay (files (m 5)).overlay)

/-- The sample that is taken when the result is there. -/
def sampleAfter (files : ℕ → Disk) (m : ℕ → ℕ) : Sample := takeSample (files (m 6)) (files (m 7))

/-- **A reader that has made some attempts**, until a moment. -/
inductive Reading (files : ℕ → Disk) : Store → ℕ → Prop
  | opened : Reading files Store.opened 0
  | attempt {s : Store} {n : ℕ} {m : ℕ → ℕ} (faults : Faults) :
      Reading files s n → n ≤ m 0 → Monotone m → Reading files (s.attempt files m faults) (m 7)

/-- **The dictionary that the files represent**: the base, and the operations that
the count and the fingerprint of the overlay cover. -/
def represented (d : Disk) : Option EnglishDictionary :=
  d.mapBase.map (fun image =>
    EnglishDictionary.new (some image) (coveredOps d.overlay image.header.contentHash))

/-! ## The overlay over time -/

/-- An overlay that can be read, if it names the base, grows when nothing is
written. -/
theorem grows_const {overlay : Bytes} {hash : UInt32}
    (hreadable : ∀ header, readEnglishOverlayHeader overlay = some header →
      header.baseFingerprint = hash → (readEnglishOverlay overlay).isSome) :
    Grows (fun _ => overlay) hash := by
  refine ⟨fun n header hheader hhash => ?_, fun n ops hops => ⟨ops, List.prefix_refl _, hops⟩⟩
  obtain ⟨c, hread⟩ := Option.isSome_iff_exists.mp (hreadable header hheader hhash)
  obtain ⟨-, tail, hlog⟩ := readEnglishOverlay_eq_some_iff.mp hread
  have hheader' := header_of_readEnglishOverlay hread
  rw [← Option.some.inj (hheader.symm.trans hheader'), hhash] at hlog
  exact ⟨c.ops, hlog.attached⟩

/-- **A writer in the middle of a call.** When a compaction has replaced the base,
the overlay that it found did not name the new one. -/
inductive Under (w : Writer) : Prop
  | idle : w.writes = [] → Readable w.start → Under w
  | append {image : BaseImage} {op : OverlayOp} {writes : List Write} : Readable w.start →
      w.start.mapBase = some image → op.WellFormed →
      appendEnglishOverlayOp w.start.overlay image.header.contentHash op = some writes →
      w.writes = writes.map .overlay → Under w
  | compact {stamp : Option ℕ} {bytes : Bytes} : Readable w.start →
      bytes ≠ w.start.baseBytes → w.writes = replaceBaseWrites stamp bytes →
      (0 < w.done → ∀ header, readEnglishOverlayHeader w.start.overlay = some header →
        header.baseFingerprint ≠ baseContentHash bytes) → Under w

/-- The writes of a compaction. -/
theorem compactWrites_eq_some {d : Disk} {writes : List DiskWrite}
    (h : d.compactWrites = some writes) :
    ∃ bytes image, d.mapBase = some image
      ∧ bytes = encodeEnglishBase (mergedRecords image d.overlay) (image.header.generation + 1)
      ∧ (mergedRecords image d.overlay).length ≤ maxEnglishBaseEntries
      ∧ writes = replaceBaseWrites d.tsvTime bytes := by
  unfold Disk.compactWrites at h
  dsimp only at h
  obtain ⟨⟨bytes, ws⟩, hcompact, rfl⟩ := Option.map_eq_some_iff.mp h
  obtain ⟨image, hmap, hcount, hbytes, hws⟩ := compactEnglishDictionary_eq_some hcompact
  refine ⟨bytes, image, hmap, hbytes, hcount, ?_⟩
  rw [hws]
  rfl

/-- A compaction writes another base. -/
theorem encodeEnglishBase_ne {d : Disk} {image : BaseImage} (hmap : d.mapBase = some image)
    (records : List WordRecord) :
    encodeEnglishBase records (image.header.generation + 1) ≠ d.baseBytes := by
  intro heq
  have hdata := of_map hmap
  obtain ⟨hsize, hparse, -⟩ := image.checked
  rw [hdata, ← heq] at hsize hparse
  unfold encodeEnglishBase at hsize hparse
  rw [parseBaseHeader_imageOf hsize] at hparse
  have hgeneration := congrArg BaseHeader.generation (Option.some.inj hparse)
  have hself : image.header.generation + 1 = image.header.generation := hgeneration
  have hsub := congrArg (· - image.header.generation) hself
  simp at hsub

/-- The hash of a base that is mapped is in its bytes. -/
theorem contentHash_of_mapBase {d : Disk} {image : BaseImage} (h : d.mapBase = some image) :
    image.header.contentHash = baseContentHash d.baseBytes := by
  rw [image.contentHash_eq, of_map h]

/-- The header of a base that is mapped. -/
theorem baseHeader_of_mapBase {d : Disk} {image : BaseImage} (h : d.mapBase = some image) :
    d.baseHeader = some image.header := by
  have hparse := image.checked.2.1
  rw [of_map h] at hparse
  exact hparse

/-- The same base is mapped in the same way. -/
theorem mapBase_congr {d d' : Disk} (h : d.base = d'.base) : d.mapBase = d'.mapBase := by
  unfold Disk.mapBase Disk.baseBytes
  rw [h]

/-- The files during a compaction, when the base is in place. -/
theorem stopped_replaceBaseWrites (d : Disk) (stamp : Option ℕ) (bytes : Bytes) (n : ℕ) :
    d.stopped (replaceBaseWrites stamp bytes) (n + 1) = { d with
      base := some (stamp, bytes)
      overlay := RawFile.stopped d.overlay (reinitWrites (baseContentHash bytes)) n } := by
  unfold replaceBaseWrites
  rw [Disk.stopped_cons_succ, Disk.stopped_map_overlay]
  rfl

/-- **The overlay grows during each call**, while the base stays. -/
theorem Under.grows {w : Writer} (h : Under w) {image : BaseImage}
    (hmap : w.files.mapBase = some image) :
    ∃ states m, Grows states image.header.contentHash ∧ w.files.overlay = states m
      ∧ ((w.start.stopped w.writes (w.done + 1)).base = w.files.base →
        (w.start.stopped w.writes (w.done + 1)).overlay = states (m + 1)) := by
  have hconst : ∀ {d : Disk}, Readable d → d.mapBase = some image →
      Grows (fun _ => d.overlay) image.header.contentHash := by
    rintro d ⟨image', hmap', hreadable⟩ hd
    rw [← Option.some.inj (hmap'.symm.trans hd)]
    exact grows_const hreadable
  cases h with
  | idle hwrites hreadable =>
    have hfiles : ∀ n, w.start.stopped w.writes n = w.start := by
      intro n
      rw [hwrites, Disk.stopped_nil]
    rw [Writer.files, hfiles] at hmap ⊢
    refine ⟨fun _ => w.start.overlay, 0, hconst hreadable hmap, rfl, fun _ => ?_⟩
    rw [hfiles]
  | @append image' op writes hreadable hmap' hop happend hwrites =>
    have hfiles : ∀ n, w.start.stopped w.writes n
        = { w.start with overlay := RawFile.stopped w.start.overlay writes n } := by
      intro n
      rw [hwrites, Disk.stopped_map_overlay]
    rw [Writer.files, hfiles] at hmap ⊢
    have hsame : w.start.mapBase = some image := hmap
    obtain ⟨image'', hmap'', hread⟩ := hreadable
    obtain rfl := Option.some.inj (hsame.symm.trans hmap')
    obtain rfl := Option.some.inj (hsame.symm.trans hmap'')
    refine ⟨RawFile.stopped w.start.overlay writes, w.done,
      grows_appendEnglishOverlayOp hread hop happend, rfl, fun _ => ?_⟩
    rw [hfiles]
  | @compact stamp bytes hreadable hne hwrites hfresh =>
    rcases hdone : w.done with _ | n
    · rw [Writer.files, hdone, Disk.stopped_zero] at hmap ⊢
      refine ⟨fun _ => w.start.overlay, 0, hconst hreadable hmap, rfl, fun hbase => ?_⟩
      rw [hwrites, stopped_replaceBaseWrites] at hbase
      exact absurd (congrArg (fun base => (base.map Prod.snd).getD []) hbase) hne
    · have hother := hfresh (by omega)
      rw [Writer.files, hdone, hwrites, stopped_replaceBaseWrites] at hmap ⊢
      have hhash : image.header.contentHash = baseContentHash bytes := contentHash_of_mapBase hmap
      rw [hhash]
      refine ⟨RawFile.stopped w.start.overlay (reinitWrites (baseContentHash bytes)), n,
        grows_reinitWrites hother, rfl, fun _ => ?_⟩
      rw [stopped_replaceBaseWrites]

section Timeline

variable {t : ℕ → Writer}

/-- **Every writer of a timeline is in the middle of a call.** -/
theorem Timeline.under (h : Timeline t) (n : ℕ) : Under (t n) := by
  induction n with
  | zero =>
    refine .idle h.idle ?_
    have hreadable := h.readable
    rwa [Writer.files, h.idle, Disk.stopped_nil] at hreadable
  | succ n ih =>
    have hstep := h.step n
    have hfresh := h.fresh n
    obtain ⟨image', hmap'⟩ := h.mapped (n + 1)
    generalize t (n + 1) = w' at hstep hfresh hmap'
    cases hstep with
    | idle => exact ih
    | call hreadable hcall =>
      cases hcall with
      | append hmap hop happend => exact .append hreadable hmap hop happend rfl
      | compact hcompact =>
        obtain ⟨bytes, image, hmap, hbytes, -, hwrites⟩ := compactWrites_eq_some hcompact
        refine .compact hreadable ?_ hwrites (fun hpos => absurd hpos (Nat.lt_irrefl 0))
        rw [hbytes]
        exact encodeEnglishBase_ne hmap _
    | write hlt =>
      cases ih with
      | idle hwrites =>
        rw [hwrites] at hlt
        cases hlt
      | append hreadable hmap hop happend hwrites => exact .append hreadable hmap hop happend hwrites
      | @compact stamp bytes hreadable hne hwrites hother =>
        refine .compact hreadable hne hwrites (fun _ => ?_)
        rcases Nat.eq_zero_or_pos (t n).done with hzero | hpos
        · -- the base has been replaced now, by one whose hash is new
          have hfiles : (t n).files = (t n).start := by
            rw [Writer.files, hzero, Disk.stopped_zero]
          have hfiles' : ({ t n with done := (t n).done + 1 } : Writer).files.base
              = some (stamp, bytes) := by
            show ((t n).start.stopped (t n).writes ((t n).done + 1)).base = _
            rw [hwrites, stopped_replaceBaseWrites]
          have hchanged : ({ t n with done := (t n).done + 1 } : Writer).files.base
              ≠ (t n).files.base := by
            rw [hfiles', hfiles]
            intro hbase
            exact hne (congrArg (fun base => (base.map Prod.snd).getD []) hbase)
          have hnew := (hfresh image' hchanged hmap' n (Nat.le_refl n)).2
          rw [hfiles, contentHash_of_mapBase hmap'] at hnew
          have hbytes : ({ t n with done := (t n).done + 1 } : Writer).files.baseBytes = bytes := by
            unfold Disk.baseBytes
            rw [hfiles']
            rfl
          rwa [hbytes] at hnew
        · exact hother hpos

/-- An overlay that names the base counts some operations for it. -/
theorem Timeline.attached (h : Timeline t) {n : ℕ} {image : BaseImage}
    (hmap : (t n).files.mapBase = some image) {header : OverlayHeader}
    (hheader : readEnglishOverlayHeader (t n).files.overlay = some header)
    (hhash : header.baseFingerprint = image.header.contentHash) :
    ∃ ops, Attached (t n).files.overlay image.header.contentHash ops := by
  obtain ⟨states, m, hgrows, hstate, -⟩ := (h.under n).grows hmap
  rw [hstate] at hheader ⊢
  exact hgrows.attached m header hheader hhash

/-- **While the base stays the overlay keeps its operations.** -/
theorem Timeline.attached_succ (h : Timeline t) {n : ℕ} {image : BaseImage}
    (hmap : (t n).files.mapBase = some image) (hbase : (t (n + 1)).files.base = (t n).files.base)
    {ops : List OverlayOp} (hops : Attached (t n).files.overlay image.header.contentHash ops) :
    ∃ ops', ops <+: ops' ∧ Attached (t (n + 1)).files.overlay image.header.contentHash ops' := by
  have hstep := h.step n
  generalize t (n + 1) = w' at hstep hbase
  cases hstep with
  | idle => exact ⟨ops, List.prefix_refl _, hops⟩
  | call => exact ⟨ops, List.prefix_refl _, hops⟩
  | write =>
    obtain ⟨states, m, hgrows, hstate, hnext⟩ := (h.under n).grows hmap
    rw [hstate] at hops
    obtain ⟨ops', hprefix, hops'⟩ := hgrows.step m ops hops
    refine ⟨ops', hprefix, ?_⟩
    show Attached ((t n).start.stopped (t n).writes ((t n).done + 1)).overlay _ _
    rw [hnext hbase]
    exact hops'

/-- The base is the same between two moments. -/
def SameBase (t : ℕ → Writer) (i k : ℕ) : Prop :=
  ∀ j, i ≤ j → j ≤ k → (t j).files.base = (t i).files.base

/-- **The base stays if its header is the same later.** -/
theorem Timeline.sameBase (h : Timeline t) {i k : ℕ} (hik : i ≤ k)
    (hheader : (t i).files.baseHeader = (t k).files.baseHeader) : SameBase t i k := by
  have hdichotomy : ∀ k, i ≤ k → SameBase t i k
      ∨ ∀ image image', (t i).files.mapBase = some image → (t k).files.mapBase = some image' →
        image.header.contentHash ≠ image'.header.contentHash := by
    intro k hk
    induction k, hk using Nat.le_induction with
    | base =>
      refine Or.inl fun j hij hji => ?_
      rw [Nat.le_antisymm hji hij]
    | succ k hk ih =>
      by_cases hbase : (t (k + 1)).files.base = (t k).files.base
      · rcases ih with hsame | hdiffers
        · refine Or.inl fun j hij hjk => ?_
          rcases Nat.lt_or_ge k j with hlt | hge
          · rw [show j = k + 1 by omega, hbase]
            exact hsame k hk (Nat.le_refl k)
          · exact hsame j hij hge
        · refine Or.inr fun image image' hmap hmap' => ?_
          rw [mapBase_congr hbase] at hmap'
          exact hdiffers image image' hmap hmap'
      · refine Or.inr fun image image' hmap hmap' => ?_
        exact (h.fresh k image' hbase hmap' i hk).1 image hmap
  rcases hdichotomy k hik with hsame | hdiffers
  · exact hsame
  · obtain ⟨image, hmap⟩ := h.mapped i
    obtain ⟨image', hmap'⟩ := h.mapped k
    rw [baseHeader_of_mapBase hmap, baseHeader_of_mapBase hmap'] at hheader
    exact absurd (congrArg BaseHeader.contentHash (Option.some.inj hheader))
      (hdiffers image image' hmap hmap')

/-- The image of the base while it stays. -/
theorem SameBase.mapBase {i k j : ℕ} (h : SameBase t i k) (hij : i ≤ j) (hjk : j ≤ k) :
    (t j).files.mapBase = (t i).files.mapBase := mapBase_congr (h j hij hjk)

/-- **The operations of the overlay stay as long as the base.** -/
theorem Timeline.attached_of_le (h : Timeline t) {i k : ℕ} (hsame : SameBase t i k)
    {image : BaseImage} (hmap : (t i).files.mapBase = some image) {j : ℕ} (hij : i ≤ j) (hjk : j ≤ k)
    {ops : List OverlayOp} (hops : Attached (t i).files.overlay image.header.contentHash ops) :
    ∃ ops', ops <+: ops' ∧ Attached (t j).files.overlay image.header.contentHash ops' := by
  induction j, hij using Nat.le_induction with
  | base => exact ⟨ops, List.prefix_refl _, hops⟩
  | succ j hij ih =>
    obtain ⟨ops', hprefix, hops'⟩ := ih (by omega)
    have hmap' := (hsame.mapBase hij (by omega)).trans hmap
    have hbase : (t (j + 1)).files.base = (t j).files.base := by
      rw [hsame (j + 1) (by omega) hjk, hsame j hij (by omega)]
    obtain ⟨ops'', hprefix', hops''⟩ := h.attached_succ hmap' hbase hops'
    exact ⟨ops'', hprefix.trans hprefix', hops''⟩

/-- The files whose overlay was cut after its size was read, or was too large. -/
def Unsettled (sizeFile framesFile : Bytes) : Prop :=
  framesFile.length < sizeFile.length ∨ 16 + maxOverlayBytes < sizeFile.length

/-- An overlay that is read while it keeps the operations that it counted. -/
theorem readOverlayAt_of_attached {a b c : Bytes} {hash : UInt32} {ops : List OverlayOp}
    (h : Attached a hash ops) (hlong : 16 ≤ b.length) (hb : encodeFrames ops <+: b.drop 16)
    (hc : encodeFrames ops <+: c.drop 16) :
    readOverlayAt a b c = some ⟨⟨hash, UInt32.ofNat ops.length⟩, ops⟩
      ∨ readOverlayAt a b c = none ∧ Unsettled b c := by
  have hsize : (encodeFrames ops).length ≤ b.length - 16 := by
    have hle := hb.length_le
    rwa [List.length_drop] at hle
  unfold readOverlayAt
  rw [h.header]
  dsimp only
  by_cases hlarge : b.length < 16 ∨ maxOverlayBytes < b.length - 16
  · rw [if_pos hlarge]
    refine Or.inr ⟨rfl, Or.inr ?_⟩
    omega
  rw [if_neg hlarge]
  -- whatever is read behind the header begins with the frames
  have hwalk : ∀ {rest : Bytes}, encodeFrames ops <+: rest →
      (walkFrames (UInt32.ofNat ops.length).toNat rest).map
          (fun r => (⟨⟨hash, UInt32.ofNat ops.length⟩, r.1⟩ : OverlayContents))
        = some ⟨⟨hash, UInt32.ofNat ops.length⟩, ops⟩ := by
    intro rest hrest
    obtain ⟨tail, hwalk⟩ := h.walk hrest
    rw [hwalk]
    rfl
  by_cases hexact : b.length = 16
  · rw [if_pos hexact]
    refine Or.inl (hwalk ?_)
    rw [List.length_eq_zero_iff.mp (by omega : (encodeFrames ops).length = 0)]
  rw [if_neg hexact]
  unfold readAt
  by_cases hcut : 16 + (b.length - 16) ≤ c.length
  · rw [if_pos hcut]
    exact Or.inl (hwalk (List.prefix_take_iff.mpr ⟨hc, hsize⟩))
  · rw [if_neg hcut]
    refine Or.inr ⟨rfl, Or.inl ?_⟩
    omega

/-- The contents of an overlay have the header that was read. -/
theorem header_of_readOverlayAt {a b c : Bytes} {contents : OverlayContents}
    (h : readOverlayAt a b c = some contents) :
    readEnglishOverlayHeader a = some contents.header := by
  unfold readOverlayAt at h
  split at h
  · cases h
  · rename_i header hheader
    split at h
    · cases h
    split at h
    · cases h
    · obtain ⟨r, -, rfl⟩ := Option.map_eq_some_iff.mp h
      exact hheader

/-- **What a reader finds in an overlay while the base stays**: the operations
that it counted when its header was read. -/
theorem Timeline.opsFor_readOverlayAt (h : Timeline t) {i j k : ℕ} (hij : i ≤ j) (hjk : j ≤ k)
    (hsame : SameBase t i k) {image : BaseImage} (hmap : (t i).files.mapBase = some image) :
    let overlay := readOverlayAt (t i).files.overlay (t j).files.overlay (t k).files.overlay
    Store.opsFor overlay image.header.contentHash
        = coveredOps (t i).files.overlay image.header.contentHash
      ∨ overlay = none ∧ Unsettled (t j).files.overlay (t k).files.overlay := by
  intro overlay
  by_cases hnames : ∃ header, readEnglishOverlayHeader (t i).files.overlay = some header
      ∧ header.baseFingerprint = image.header.contentHash
  · obtain ⟨header, hheader, hhash⟩ := hnames
    obtain ⟨ops, hops⟩ := h.attached hmap hheader hhash
    have hkept : ∀ {l : ℕ}, i ≤ l → l ≤ k → 16 ≤ (t l).files.overlay.length
        ∧ encodeFrames ops <+: (t l).files.overlay.drop 16 := by
      intro l hil hlk
      obtain ⟨ops', ⟨rest, rfl⟩, hops'⟩ := h.attached_of_le hsame hmap hil hlk hops
      constructor
      · obtain ⟨tail, htail⟩ := hops'.shape
        rw [htail, List.length_append, length_logHead length_overlayMagic]
        omega
      · refine List.IsPrefix.trans ?_ hops'.frames
        rw [encodeFrames_append]
        exact List.prefix_append _ _
    rcases readOverlayAt_of_attached hops (hkept hij hjk).1 (hkept hij hjk).2
      (hkept (hij.trans hjk) (Nat.le_refl k)).2 with hread | hunread
    · refine Or.inl ?_
      rw [hops.coveredOps_eq]
      show Store.opsFor (readOverlayAt _ _ _) _ = ops
      rw [hread]
      exact if_pos rfl
    · exact Or.inr hunread
  · -- the overlay is of another base, and nothing of it counts
    have hother : ∀ header, readEnglishOverlayHeader (t i).files.overlay = some header →
        header.baseFingerprint ≠ image.header.contentHash :=
      fun header hheader hhash => hnames ⟨header, hheader, hhash⟩
    refine Or.inl ?_
    rw [coveredOps_of_ne hother]
    cases hcontents : overlay with
    | none => rfl
    | some contents => exact if_neg (hother _ (header_of_readOverlayAt hcontents))

/-- **Between two moments with the same header** the overlay counts the same
operations. -/
theorem Timeline.coveredOps_eq_of_header (h : Timeline t) {i j k : ℕ} (hij : i ≤ j) (hjk : j ≤ k)
    (hsame : SameBase t i k) {image : BaseImage} (hmap : (t i).files.mapBase = some image)
    (hheader : readEnglishOverlayHeader (t i).files.overlay
      = readEnglishOverlayHeader (t k).files.overlay) :
    coveredOps (t j).files.overlay image.header.contentHash
      = coveredOps (t k).files.overlay image.header.contentHash := by
  have hmapj : (t j).files.mapBase = some image := (hsame.mapBase hij hjk).trans hmap
  have hsame' : SameBase t j k := by
    intro l hjl hlk
    rw [hsame l (hij.trans hjl) hlk, hsame j hij hjk]
  by_cases hnames : ∃ header, readEnglishOverlayHeader (t i).files.overlay = some header
      ∧ header.baseFingerprint = image.header.contentHash
  · obtain ⟨header, hi, hhash⟩ := hnames
    obtain ⟨ops, hops⟩ := h.attached hmap hi hhash
    obtain ⟨opsj, hprefixj, hopsj⟩ := h.attached_of_le hsame hmap hij hjk hops
    obtain ⟨opsk, hprefixk, hopsk⟩ := h.attached_of_le hsame' hmapj hjk (Nat.le_refl k) hopsj
    -- the counts at the two ends are equal, so nothing was added in between
    have hcount : ops.length = opsk.length := by
      have hheaders := hops.header.symm.trans (hheader.trans hopsk.header)
      have hcounts := congrArg OverlayHeader.opCount (Option.some.inj hheaders)
      rw [← hops.count, ← hopsk.count]
      exact congrArg UInt32.toNat hcounts
    have hle := hprefixj.length_le
    rw [hopsj.coveredOps_eq, hopsk.coveredOps_eq]
    exact hprefixk.eq_of_length_le (by omega)
  · have hother : ∀ header, readEnglishOverlayHeader (t k).files.overlay = some header →
        header.baseFingerprint ≠ image.header.contentHash :=
      fun header hk hhash => hnames ⟨header, hheader.trans hk, hhash⟩
    rw [coveredOps_of_ne hother, coveredOps_of_ne]
    intro header hj hhash
    obtain ⟨ops, hops⟩ := h.attached hmapj hj hhash
    obtain ⟨ops', -, hops'⟩ := h.attached_of_le hsame' hmapj hjk (Nat.le_refl k) hops
    exact hother _ hops'.header rfl

/-- The TSV stays. -/
theorem Timeline.tsv_eq (h : Timeline t) (n : ℕ) : (t n).files.tsv = (t 0).files.tsv := by
  induction n with
  | zero => rfl
  | succ n ih =>
    have hstep := h.step n
    generalize t (n + 1) = w' at hstep
    cases hstep with
    | idle => exact ih
    | call => exact ih
    | write =>
      rw [← ih]
      show ((t n).start.stopped _ _).tsv = ((t n).start.stopped _ _).tsv
      rw [Disk.tsv_stopped, Disk.tsv_stopped]

end Timeline

/-! ## The reader over time -/

/-- **A reader that finds the base of the sample on disk** takes the one that it
has, or maps the one that is there. -/
theorem Store.rebuildBase_of_current {s : Store} {sample : Sample} {d : Disk} {image : BaseImage}
    (fileLocked : Bool) (faults : Faults) (hbase : sample.base.isSome)
    (htsv : ∀ tsv, sample.tsv = some tsv → d.baseMatchesTsv tsv.1 = true)
    (hcompiled : s.compiledTsv = none ∨ s.compiledTsv = sample.tsv)
    (hwritten : s.baseWriteFailed = false) (hmap : d.mapBase = some image) :
    ∃ found, (s.base = some found ∧ some found.header = sample.base ∨ found = image)
      ∧ s.rebuildBase sample fileLocked faults d = ({ s.settled with compiledTsv := sample.tsv }, d,
        some found, decide (some found.header = sample.base)) := by
  have hunchanged : (sample.tsv.isSome && s.compiledTsv.isSome
      && decide (s.compiledTsv ≠ sample.tsv)) = false := by
    rcases hcompiled with hnone | hsame
    · rw [hnone, Option.isSome_none, Bool.and_false, Bool.false_and]
    · rw [hsame, decide_eq_false (not_not.mpr rfl), Bool.and_false]
  have hmatches : sample.tsv.all (fun tsv => d.baseMatchesTsv tsv.1) = true := by
    cases hsample : sample.tsv with
    | none => rfl
    | some tsv => exact htsv tsv hsample
  unfold Store.rebuildBase
  simp only [hunchanged, hmatches, hbase, hwritten, Bool.not_false, Bool.and_true,
    Bool.and_false, Bool.false_eq_true, if_false, Bool.not_true, if_true, Bool.false_or]
  by_cases hkept : s.base.any (fun image => some image.header = sample.base) = true
  · obtain ⟨found, hfound, hheader⟩ := (Option.any_eq_true _ _).mp hkept
    have hif : (if s.base.any (fun image => some image.header = sample.base) = true then s.base
        else d.mapBase) = some found := by rw [if_pos hkept, hfound]
    refine ⟨found, Or.inl ⟨hfound, of_decide_eq_true hheader⟩, ?_⟩
    simp only [hif, Option.all_some]
  · have hif : (if s.base.any (fun image => some image.header = sample.base) = true then s.base
        else d.mapBase) = some image := by rw [if_neg hkept, hmap]
    refine ⟨image, Or.inr rfl, ?_⟩
    simp only [hif, Option.all_some]

/-- The snapshot of a base, without operations in memory. -/
theorem Store.snapshot_rebuildSnapshot {s : Store} {sample : Sample} {image : BaseImage}
    {consistent : Bool} {overlay : Option OverlayContents} (hmemory : s.memoryOps = []) :
    (s.rebuildSnapshot sample (some image) consistent overlay).snapshot
      = some (EnglishDictionary.new (some image)
        (Store.opsFor overlay image.header.contentHash)) := by
  unfold Store.rebuildSnapshot
  dsimp only
  rw [Option.map_some, hmemory, List.append_nil]

/-- **What a reader holds**: a base that was there at some moment, and a snapshot
that was made after its sample was taken. -/
structure Holds (t : ℕ → Writer) (s : Store) (n : ℕ) : Prop where
  memory : s.memoryOps = []
  written : s.baseWriteFailed = false
  compiled : s.compiledTsv = none
    ∨ s.compiledTsv = (t 0).files.tsv.map (fun tsv => (tsv.1, tsv.2.length))
  base : ∀ image, s.base = some image → ∃ i ≤ n, (t i).files.mapBase = some image
  snapshot : ∀ sample, s.snapshotSample = some sample → ∃ i j k₁ k₂ k₃ image,
    i ≤ j ∧ j ≤ k₁ ∧ k₁ ≤ k₂ ∧ k₂ ≤ k₃ ∧ k₃ ≤ n
      ∧ sample = takeSample (t i).files (t j).files ∧ (t i).files.mapBase = some image
      ∧ (readOverlayAt (t k₁).files.overlay (t k₂).files.overlay (t k₃).files.overlay = none →
        sample.overlay = none)
      ∧ s.snapshot = some (EnglishDictionary.new (some image) (Store.opsFor
        (readOverlayAt (t k₁).files.overlay (t k₂).files.overlay (t k₃).files.overlay)
        image.header.contentHash))

section Reader

variable {t : ℕ → Writer}

/-- **An attempt that makes a snapshot**: of a base with the header of the sample,
or of one that was there later. -/
theorem Timeline.attempt_spec (h : Timeline t) {s : Store} {n : ℕ} (hholds : Holds t s n)
    {m : ℕ → ℕ} (hn : n ≤ m 0) (faults : Faults)
    (hnew : s.snapshotSample ≠ some (takeSample (t (m 0)).files (t (m 1)).files)) :
    ∃ image, ((t (m 0)).files.mapBase = some image ∨ (t (m 2)).files.mapBase = some image)
      ∧ s.attempt (fun i => (t i).files) m faults
        = { s.settled with compiledTsv := (takeSample (t (m 0)).files (t (m 1)).files).tsv }.rebuildSnapshot
          (takeSample (t (m 0)).files (t (m 1)).files) (some image)
          (decide (some image.header = (t (m 0)).files.baseHeader))
          (readOverlayAt (t (m 3)).files.overlay (t (m 4)).files.overlay (t (m 5)).files.overlay) := by
  obtain ⟨image₀, hmap₀⟩ := h.mapped (m 0)
  obtain ⟨image₂, hmap₂⟩ := h.mapped (m 2)
  set sample := takeSample (t (m 0)).files (t (m 1)).files with hsample
  have hbase : sample.base = some image₀.header := baseHeader_of_mapBase hmap₀
  have htsv : sample.tsv = (t 0).files.tsv.map (fun tsv => (tsv.1, tsv.2.length)) := by
    rw [← h.tsv_eq (m 0)]
    rfl
  have hcurrent : ∀ tsv, sample.tsv = some tsv → (t (m 2)).files.baseMatchesTsv tsv.1 = true := by
    intro tsv hsome
    rw [htsv, ← h.tsv_eq (m 2)] at hsome
    obtain ⟨tsv', htsv', rfl⟩ := Option.map_eq_some_iff.mp hsome
    refine h.current (m 2) _ ?_
    unfold Disk.tsvTime
    rw [htsv']
    rfl
  obtain ⟨found, hfound, hrebuild⟩ := Store.rebuildBase_of_current false faults
    (by rw [hbase]; rfl) hcurrent (by rw [htsv]; exact hholds.compiled) hholds.written hmap₂
  refine ⟨found, ?_, ?_⟩
  · rcases hfound with ⟨hkept, hheader⟩ | rfl
    · -- the base that the reader holds has the header of the one at the sample
      obtain ⟨i, hi, hmap⟩ := hholds.base found hkept
      have hheaders : (t i).files.baseHeader = (t (m 0)).files.baseHeader := by
        rw [baseHeader_of_mapBase hmap]
        exact hheader
      have hsame := h.sameBase (hi.trans hn) hheaders
      exact Or.inl ((hsame.mapBase (hi.trans hn) (Nat.le_refl _)).trans hmap)
    · exact Or.inr hmap₂
  · unfold Store.attempt
    dsimp only
    rw [if_neg hnew, ← hsample, hrebuild]
    rfl

/-- A base with the header of the sample is the one at the sample. -/
theorem Timeline.mapBase_of_header (h : Timeline t) {i k : ℕ} (hik : i ≤ k) {image : BaseImage}
    (hmap : (t i).files.mapBase = some image ∨ (t k).files.mapBase = some image)
    (hheader : some image.header = (t i).files.baseHeader) : (t i).files.mapBase = some image := by
  rcases hmap with hmap | hmap
  · exact hmap
  · rw [← baseHeader_of_mapBase hmap] at hheader
    have hsame := h.sameBase hik hheader.symm
    rw [← hsame.mapBase hik (Nat.le_refl k)]
    exact hmap

/-- **Every reader holds what it should.** -/
theorem Reading.holds (h : Timeline t) {s : Store} {n : ℕ}
    (hr : Reading (fun i => (t i).files) s n) : Holds t s n := by
  induction hr with
  | opened =>
    refine ⟨rfl, rfl, Or.inl rfl, fun image hbase => ?_, fun sample hsample => ?_⟩
    · cases hbase
    · cases hsample
  | @attempt s n m faults _ hn hm ih =>
    by_cases hcached : s.snapshotSample = some (takeSample (t (m 0)).files (t (m 1)).files)
    · -- the reader uses what it has
      have hsame : s.attempt (fun i => (t i).files) m faults = s := if_pos hcached
      have hlater : n ≤ m 7 := hn.trans (hm (by decide))
      rw [hsame]
      refine ⟨ih.memory, ih.written, ih.compiled, fun image hbase => ?_, fun sample hsample => ?_⟩
      · obtain ⟨i, hi, hmap⟩ := ih.base image hbase
        exact ⟨i, hi.trans hlater, hmap⟩
      · obtain ⟨i, j, k₁, k₂, k₃, image, hij, hj, h₁, h₂, h₃, hrest⟩ := ih.snapshot sample hsample
        exact ⟨i, j, k₁, k₂, k₃, image, hij, hj, h₁, h₂, h₃.trans hlater, hrest⟩
    · obtain ⟨image, hmap, hattempt⟩ := h.attempt_spec ih hn faults hcached
      rw [hattempt]
      refine ⟨ih.memory, rfl, Or.inr ?_, fun image' hbase => ?_, fun sample hsample => ?_⟩
      · rw [← h.tsv_eq (m 0)]
        rfl
      · obtain rfl := Option.some.inj hbase
        rcases hmap with hmap | hmap
        · exact ⟨m 0, hm (by decide), hmap⟩
        · exact ⟨m 2, hm (by decide), hmap⟩
      · unfold Store.rebuildSnapshot at hsample
        dsimp only at hsample
        split at hsample
        · rename_i hkept
          rw [Bool.and_eq_true, decide_eq_true_eq, Bool.not_eq_true'] at hkept
          obtain rfl := Option.some.inj hsample
          refine ⟨m 0, m 1, m 3, m 4, m 5, image, hm (by decide), hm (by decide), hm (by decide),
            hm (by decide), hm (by decide), rfl,
            h.mapBase_of_header (hm (by decide)) hmap hkept.1, fun hnone => ?_, ?_⟩
          · have hunread := hkept.2
            rw [hnone] at hunread
            simpa using hunread
          · exact Store.snapshot_rebuildSnapshot ih.memory
        · cases hsample

/-- **Readers see one moment.** If the two samples of an attempt agree, its result
is computed from the dictionary that the files represented at one of its
moments; or from the base alone, when the overlay could not be read whole
because it was cut off between two reads or is too large. -/
theorem readers_see_one_moment (t : ℕ → Writer) (h : Timeline t) (s : Store) (n : ℕ)
    (hr : Reading (fun i => (t i).files) s n) (m : ℕ → ℕ) (hn : n ≤ m 0) (hm : Monotone m)
    (faults : Faults) (hagree : sampleAfter (fun i => (t i).files) m
      = takeSample (t (m 0)).files (t (m 1)).files) :
    ∃ k, m 0 ≤ k ∧ k ≤ m 7
      ∧ ((s.attempt (fun i => (t i).files) m faults).snapshot = represented (t k).files
        ∨ Unsettled (t (m 4)).files.overlay (t (m 5)).files.overlay
          ∧ (s.attempt (fun i => (t i).files) m faults).snapshot
            = (t k).files.mapBase.map (fun image => EnglishDictionary.new (some image) [])) := by
  have hholds := hr.holds h
  have hheaders : (t (m 0)).files.baseHeader = (t (m 6)).files.baseHeader :=
    (congrArg Sample.base hagree).symm
  have hstays := h.sameBase (hm (by decide : 0 ≤ 6)) hheaders
  have hrepresented : ∀ {k : ℕ} {image : BaseImage}, (t k).files.mapBase = some image →
      represented (t k).files = some (EnglishDictionary.new (some image)
        (coveredOps (t k).files.overlay image.header.contentHash)) := by
    intro k image hmap
    unfold represented
    rw [hmap]
    rfl
  by_cases hcached : s.snapshotSample = some (takeSample (t (m 0)).files (t (m 1)).files)
  · -- a snapshot that the reader had is that of the moment when the overlay was sampled
    obtain ⟨i, j, k₁, k₂, k₃, image, hij, hj, h₁, h₂, h₃, hsample, hmap, hread, hsnapshot⟩ :=
      hholds.snapshot _ hcached
    have hi : i ≤ m 6 := by
      have h₀ := hm (by decide : 0 ≤ 6)
      omega
    have hkept : SameBase t i (m 6) :=
      h.sameBase hi ((congrArg Sample.base hsample).symm.trans hheaders)
    have h₀ : k₃ ≤ m 1 := (h₃.trans hn).trans (hm (by decide))
    have h₆ : m 1 ≤ m 6 := hm (by decide)
    have hmapAt : ∀ {l : ℕ}, i ≤ l → l ≤ m 6 → (t l).files.mapBase = some image :=
      fun hil hl => (hkept.mapBase hil hl).trans hmap
    have hkeptFrom : ∀ {a b : ℕ}, i ≤ a → a ≤ b → b ≤ m 6 → SameBase t a b := by
      intro a b hia hab hb l hal hlb
      rw [hkept l (hia.trans hal) (hlb.trans hb), hkept a hia (hab.trans hb)]
    have hmap₁ : (t (m 1)).files.mapBase = some image := hmapAt (by omega) h₆
    have hsame : s.attempt (fun i => (t i).files) m faults = s := if_pos hcached
    refine ⟨m 1, hm (by decide), hm (by decide), Or.inl ?_⟩
    rw [hsame, hsnapshot, hrepresented hmap₁]
    have hoverlay : readEnglishOverlayHeader (t (m 1)).files.overlay
        = readEnglishOverlayHeader (t j).files.overlay := congrArg Sample.overlay hsample
    rcases h.opsFor_readOverlayAt h₁ h₂ (hkeptFrom (hij.trans hj) (h₁.trans h₂) (h₀.trans h₆))
      (hmapAt (hij.trans hj) (by omega)) with hops | ⟨hnone, -⟩
    · rw [hops, h.coveredOps_eq_of_header hj ((h₁.trans h₂).trans h₀)
        (hkeptFrom hij (by omega) h₆) (hmapAt hij (by omega)) hoverlay.symm]
    · have hheader : readEnglishOverlayHeader (t (m 1)).files.overlay = none := hread hnone
      rw [hnone, coveredOps_of_ne (fun header hsome => by rw [hheader] at hsome; cases hsome)]
      rfl
  · -- a new snapshot is that of the moment when the header of the overlay was read
    obtain ⟨image, hmap, hattempt⟩ := h.attempt_spec hholds hn faults hcached
    have hmap₀ : (t (m 0)).files.mapBase = some image := by
      rcases hmap with hmap | hmap
      · exact hmap
      · rw [← hstays.mapBase (hm (by decide : 0 ≤ 2)) (hm (by decide : 2 ≤ 6))]
        exact hmap
    have hmap₃ : (t (m 3)).files.mapBase = some image :=
      (hstays.mapBase (hm (by decide : 0 ≤ 3)) (hm (by decide : 3 ≤ 6))).trans hmap₀
    have hsnapshot : (s.attempt (fun i => (t i).files) m faults).snapshot
        = some (EnglishDictionary.new (some image) (Store.opsFor (readOverlayAt
          (t (m 3)).files.overlay (t (m 4)).files.overlay (t (m 5)).files.overlay)
          image.header.contentHash)) := by
      rw [hattempt]
      exact Store.snapshot_rebuildSnapshot hholds.memory
    have hstays' : SameBase t (m 3) (m 5) := by
      intro l h₃ h₅
      rw [hstays l ((hm (by decide : 0 ≤ 3)).trans h₃) (h₅.trans (hm (by decide : 5 ≤ 6))),
        hstays (m 3) (hm (by decide)) (hm (by decide))]
    refine ⟨m 3, hm (by decide), hm (by decide), ?_⟩
    rw [hsnapshot]
    rcases h.opsFor_readOverlayAt (hm (by decide : 3 ≤ 4)) (hm (by decide : 4 ≤ 5)) hstays' hmap₃
      with hops | ⟨hnone, hunsettled⟩
    · refine Or.inl ?_
      rw [hrepresented hmap₃, hops]
    · refine Or.inr ⟨hunsettled, ?_⟩
      rw [hnone, hmap₃]
      rfl

end Reader

/-! ## An overlay with bytes behind its frames -/

/-- The operation that an overlay counts. -/
def tornOp : OverlayOp := ⟨.upsert, 0, utf8 "go", utf8 "GO", 7⟩

/-- A base of one word, and an overlay of it with one operation and a byte that a
writer left behind it. -/
def tornDisk : Disk where
  tsv := none
  base := some (none, encodeEnglishBase [⟨utf8 "go", utf8 "Go", 5, 0⟩] 0)
  overlay := logHead overlayMagic (baseContentHash (encodeEnglishBase
    [⟨utf8 "go", utf8 "Go", 5, 0⟩] 0)) 1 ++ (encodeFrame tornOp ++ [0])
  journal := []

/-- The writes that append the operation again: the byte is cut off first. -/
def tornWrites : List Write :=
  appendWrites tornDisk.overlay.length (16 + (encodeFrames [tornOp]).length) tornOp (UInt32.ofNat 2)

/-- A writer that has cut off the byte, and is not heard of again. -/
def tornTimeline : ℕ → Writer
  | 0 => ⟨tornDisk, [], 0⟩
  | 1 => ⟨tornDisk, tornWrites.map .overlay, 0⟩
  | _ => ⟨tornDisk, tornWrites.map .overlay, 1⟩

/-- The moments of a reader that reads the size before the byte is cut off, and
the frames after that. -/
def tornMoments (i : ℕ) : ℕ := if i ≤ 4 then 0 else 2

set_option maxRecDepth 10000 in
/-- The base is mapped. -/
theorem mapBase_tornDisk : ∃ image, tornDisk.mapBase = some image :=
  Option.isSome_iff_exists.mp (by decide)

/-- The operation is well formed. -/
theorem wellFormed_tornOp : tornOp.WellFormed :=
  ⟨by decide +kernel, by decide +kernel, by decide +kernel, by decide +kernel, by decide +kernel⟩

/-- The overlay is a log of the base. -/
theorem isLog_tornDisk {image : BaseImage} (hmap : tornDisk.mapBase = some image) :
    IsLog overlayMagic image.header.contentHash [tornOp] [0] tornDisk.overlay := by
  have hbytes : tornDisk.baseBytes = encodeEnglishBase [⟨utf8 "go", utf8 "Go", 5, 0⟩] 0 := by
    rw [Disk.baseBytes, tornDisk, Option.map_some, Option.getD_some]
  have hhash := contentHash_of_mapBase hmap
  rw [hbytes] at hhash
  refine ⟨?_, fun op hop => ?_, by decide⟩
  · have hcount : UInt32.ofNat [tornOp].length = 1 := rfl
    rw [hhash, encodeFrames_singleton, hcount, tornDisk]
  · rw [List.mem_singleton.mp hop]
    exact wellFormed_tornOp

/-- The files of the timeline: only the overlay changes. -/
theorem files_tornTimeline (n : ℕ) : ∃ k < tornWrites.length, (tornTimeline n).files
    = { tornDisk with overlay := RawFile.stopped tornDisk.overlay tornWrites k } := by
  rcases n with _ | _ | n
  · refine ⟨0, by decide, ?_⟩
    show tornDisk.stopped [] 0 = _
    rw [Disk.stopped_nil, RawFile.stopped_zero]
  · refine ⟨0, by decide, ?_⟩
    show tornDisk.stopped (tornWrites.map .overlay) 0 = _
    rw [Disk.stopped_map_overlay]
  · refine ⟨1, by decide, ?_⟩
    show tornDisk.stopped (tornWrites.map .overlay) 1 = _
    rw [Disk.stopped_map_overlay]

/-- The base stays. -/
theorem base_tornTimeline (n : ℕ) : (tornTimeline n).files.base = tornDisk.base := by
  obtain ⟨k, -, hfiles⟩ := files_tornTimeline n
  rw [hfiles]

/-- **It is a timeline.** -/
theorem timeline_tornTimeline : Timeline tornTimeline := by
  obtain ⟨image, hmap⟩ := mapBase_tornDisk
  have hlog := isLog_tornDisk hmap
  have hreadable : Readable tornDisk := by
    refine ⟨image, hmap, fun _ _ _ => ?_⟩
    rw [hlog.read]
    rfl
  have happend := appendEnglishOverlayOp_of_isLog hlog wellFormed_tornOp.accepted
  refine ⟨rfl, hreadable, fun n time htime => ?_, fun n => ?_, fun n => ?_, fun n image' hne => ?_⟩
  · obtain ⟨k, -, hfiles⟩ := files_tornTimeline n
    rw [hfiles] at htime
    cases htime
  · rcases n with _ | _ | n
    · exact .call hreadable (.append hmap wellFormed_tornOp happend)
    · exact .write (by decide)
    · exact .idle
  · exact ⟨image, (mapBase_congr (base_tornTimeline n)).trans hmap⟩
  · exact absurd ((base_tornTimeline (n + 1)).trans (base_tornTimeline n).symm) hne

/-- The moments do not decrease. -/
theorem monotone_tornMoments : Monotone tornMoments := by
  intro i j hij
  unfold tornMoments
  split
  · exact Nat.zero_le _
  · rw [if_neg (by omega)]

set_option maxRecDepth 10000 in
/-- The reader samples the same before and after. -/
theorem sampleAfter_tornMoments : sampleAfter (fun i => (tornTimeline i).files) tornMoments
    = takeSample (tornTimeline (tornMoments 0)).files (tornTimeline (tornMoments 1)).files := by
  decide

/-- A reader that reads the size before the byte is cut off, and the frames after
that. -/
theorem readers_see_one_moment_torn :
    ∃ k, tornMoments 0 ≤ k ∧ k ≤ tornMoments 7
      ∧ ((Store.opened.attempt (fun i => (tornTimeline i).files) tornMoments
          ⟨true, true, true, none, none, none⟩).snapshot = represented (tornTimeline k).files
        ∨ Unsettled (tornTimeline (tornMoments 4)).files.overlay
            (tornTimeline (tornMoments 5)).files.overlay
          ∧ (Store.opened.attempt (fun i => (tornTimeline i).files) tornMoments
              ⟨true, true, true, none, none, none⟩).snapshot
            = (tornTimeline k).files.mapBase.map
              (fun image => EnglishDictionary.new (some image) [])) :=
  readers_see_one_moment tornTimeline timeline_tornTimeline Store.opened 0 .opened tornMoments
    (Nat.zero_le _) monotone_tornMoments ⟨true, true, true, none, none, none⟩ sampleAfter_tornMoments

set_option maxRecDepth 10000 in
/-- **A reader may see what the files never represented**: the base without the
operation that the overlay counts at every moment. -/
theorem not_readers_see_one_moment :
    ¬ ∀ (t : ℕ → Writer) (s : Store) (n : ℕ) (m : ℕ → ℕ) (faults : Faults), Timeline t →
      Reading (fun i => (t i).files) s n → n ≤ m 0 → Monotone m →
      sampleAfter (fun i => (t i).files) m = takeSample (t (m 0)).files (t (m 1)).files →
      ∃ k, m 0 ≤ k ∧ k ≤ m 7
        ∧ (s.attempt (fun i => (t i).files) m faults).snapshot = represented (t k).files := by
  intro hclaim
  obtain ⟨image, hmap⟩ := mapBase_tornDisk
  have hlog := isLog_tornDisk hmap
  obtain ⟨k, -, -, hsnapshot⟩ := hclaim tornTimeline Store.opened 0 tornMoments
    ⟨true, true, true, none, none, none⟩ timeline_tornTimeline .opened (Nat.zero_le _)
    monotone_tornMoments sampleAfter_tornMoments
  -- the files represent the operation at every moment
  have hrepresented : represented (tornTimeline k).files
      = some (EnglishDictionary.new (some image) [tornOp]) := by
    have hmapk := (mapBase_congr (base_tornTimeline k)).trans hmap
    obtain ⟨l, hl, hfiles⟩ := files_tornTimeline k
    have hattached := (grows_appendWrites hlog wellFormed_tornOp).1 l hl
    unfold represented
    rw [hmapk, Option.map_some, hfiles]
    exact congrArg (fun ops => some (EnglishDictionary.new (some image) ops)) hattached.coveredOps_eq
  have hlookup : (Store.opened.attempt (fun i => (tornTimeline i).files) tornMoments
      ⟨true, true, true, none, none, none⟩).snapshot.any
        (fun dictionary => (dictionary.overlay.find? (utf8 "go")).isNone) = true := by
    decide
  have hfind : ((overlayBuckets [tornOp]).find? (utf8 "go")).isNone = false := by decide
  rw [hsnapshot, hrepresented, Option.any_some] at hlookup
  exact absurd (hfind.symm.trans hlookup) Bool.false_ne_true

end AzooKey.Host.English

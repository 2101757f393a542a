import AzooKey.Lib.LittleEndian
import AzooKey.Lib.RawFile
import AzooKey.Core.DictionaryText

/-!
# The logs of the English dictionary

`inference-host/src/EnglishDictionaryFiles.cpp`: the words that are added and
removed at runtime are operations in two logs, the overlay of a base and the
journal. An operation is a frame of ten bytes and its two texts; a log is a
header of sixteen bytes, which holds the number of its frames, and the frames.
Bytes behind the counted frames are those of a write that did not finish.

`walkFrames_eq_some_iff` says what the reader accepts: the frames of
well-formed operations, exactly as `EncodeFrame` writes them, and anything
behind them. All that is said about the logs is said in these terms.
-/

namespace AzooKey.Host.English

open LittleEndian
open Core.Dictionary (isValidUtf8)

/-- `EnglishOverlayOpKind`. -/
inductive OpKind
  | upsert | delete
deriving DecidableEq, Repr

/-- `EnglishOverlayOp`. -/
structure OverlayOp where
  kind : OpKind
  flags : UInt8
  key : Bytes
  surface : Bytes
  frequency : UInt32
deriving DecidableEq

/-- `kMaxOverlayBytes`. -/
def maxOverlayBytes : ℕ := 64 * 1024 * 1024

/-- The number of a kind. -/
def OpKind.byte : OpKind → UInt8
  | .upsert => 0
  | .delete => 1

/-- **`EncodeFrame`.** The lengths are cut to sixteen bits. -/
def encodeFrame (op : OverlayOp) : Bytes :=
  [op.kind.byte, op.flags] ++ encode 2 op.key.length ++ encode 2 op.surface.length
    ++ u32 op.frequency ++ op.key ++ op.surface

/-- The frames of operations. -/
def encodeFrames (ops : List OverlayOp) : Bytes := ops.flatMap encodeFrame

/-- The operation that ten bytes and two texts stand for. -/
def makeOp (head key surface : Bytes) : OverlayOp where
  kind := if head.getD 0 0 = 0 then .upsert else .delete
  flags := head.getD 1 0
  key := key
  surface := surface
  frequency := getU32 (head.drop 6)

/-- A round of `WalkFrames`: the operation at the front, and what follows it. -/
def readFrame (data : Bytes) : Option (OverlayOp × Bytes) :=
  if data.length < 10 then none
  else
    let head := data.take 10
    let keyLength := decode ((head.drop 2).take 2)
    let surfaceLength := decode ((head.drop 4).take 2)
    let texts := data.drop 10
    if 1 < head.getD 0 0 ∨ texts.length < keyLength + surfaceLength then none
    else
      let key := texts.take keyLength
      let surface := (texts.drop keyLength).take surfaceLength
      if key.isEmpty || !isValidUtf8 key || !isValidUtf8 surface then none
      else some (makeOp head key surface, texts.drop (keyLength + surfaceLength))

/-- **`WalkFrames`**: the operations of `count` frames, and what follows them. -/
def walkFrames : ℕ → Bytes → Option (List OverlayOp × Bytes)
  | 0, data => some ([], data)
  | count + 1, data =>
    match readFrame data with
    | none => none
    | some (op, rest) => (walkFrames count rest).map (fun r => (op :: r.1, r.2))

/-- **An operation that can be logged.** -/
structure OverlayOp.WellFormed (op : OverlayOp) : Prop where
  key_ne : op.key ≠ []
  key_length : op.key.length ≤ 0xffff
  surface_length : op.surface.length ≤ 0xffff
  key_valid : isValidUtf8 op.key = true
  surface_valid : isValidUtf8 op.surface = true

/-! ## Frames -/

/-- The size of a frame. -/
@[simp] theorem length_encodeFrame (op : OverlayOp) :
    (encodeFrame op).length = 10 + op.key.length + op.surface.length := by
  simp only [encodeFrame, List.length_append, List.length_cons, List.length_nil, length_encode,
    length_u32]

/-- The frames of one operation more. -/
@[simp] theorem encodeFrames_cons (op : OverlayOp) (ops : List OverlayOp) :
    encodeFrames (op :: ops) = encodeFrame op ++ encodeFrames ops := rfl

/-- The frames of operations, and of others. -/
@[simp] theorem encodeFrames_append (ops ops' : List OverlayOp) :
    encodeFrames (ops ++ ops') = encodeFrames ops ++ encodeFrames ops' := List.flatMap_append

/-- The frame of one operation. -/
@[simp] theorem encodeFrames_singleton (op : OverlayOp) : encodeFrames [op] = encodeFrame op := by
  rw [encodeFrames_cons]
  exact List.append_nil _

/-- No frames. -/
@[simp] theorem encodeFrames_nil : encodeFrames [] = [] := rfl

/-- Every frame takes more than ten bytes. -/
theorem length_le_encodeFrames {ops : List OverlayOp} (h : ∀ op ∈ ops, op.WellFormed) :
    11 * ops.length ≤ (encodeFrames ops).length := by
  induction ops with
  | nil => exact Nat.le_refl 0
  | cons op ops ih =>
    have hkey := List.length_pos_iff.mpr (h op List.mem_cons_self).key_ne
    have hops := ih (fun op hop => h op (List.mem_cons_of_mem _ hop))
    rw [encodeFrames_cons, List.length_append, length_encodeFrame, List.length_cons]
    omega

/-- The head of a frame. -/
def frameHead (op : OverlayOp) : Bytes :=
  [op.kind.byte, op.flags] ++ encode 2 op.key.length ++ encode 2 op.surface.length ++ u32 op.frequency

/-- It has ten bytes. -/
theorem length_frameHead (op : OverlayOp) : (frameHead op).length = 10 := by
  simp only [frameHead, List.length_append, List.length_cons, List.length_nil, length_encode,
    length_u32]

/-- A frame is its head and its texts. -/
theorem encodeFrame_eq (op : OverlayOp) : encodeFrame op = frameHead op ++ (op.key ++ op.surface) := by
  unfold encodeFrame frameHead
  rw [List.append_assoc _ op.key]

/-- The fields of the head of a frame. -/
theorem fields_frameHead (op : OverlayOp) : (frameHead op).getD 0 0 = op.kind.byte
    ∧ (frameHead op).getD 1 0 = op.flags
    ∧ ((frameHead op).drop 2).take 2 = encode 2 op.key.length
    ∧ ((frameHead op).drop 4).take 2 = encode 2 op.surface.length
    ∧ getU32 ((frameHead op).drop 6) = op.frequency := by
  have hsplit : frameHead op = op.kind.byte :: op.flags :: (encode 2 op.key.length
      ++ (encode 2 op.surface.length ++ u32 op.frequency)) := by
    unfold frameHead
    simp only [List.append_assoc, List.cons_append, List.nil_append]
  have hkey : (encode 2 op.key.length).length = 2 := length_encode 2 _
  have hsurface : (encode 2 op.surface.length).length = 2 := length_encode 2 _
  have hdrop₂ : (frameHead op).drop 2
      = encode 2 op.key.length ++ (encode 2 op.surface.length ++ u32 op.frequency) := by
    rw [hsplit]
    rfl
  have hdrop₄ : (frameHead op).drop 4 = encode 2 op.surface.length ++ u32 op.frequency := by
    rw [show 4 = 2 + 2 from rfl, ← List.drop_drop, hdrop₂, List.drop_left' hkey]
  have hdrop₆ : (frameHead op).drop 6 = u32 op.frequency := by
    rw [show 6 = 4 + 2 from rfl, ← List.drop_drop, hdrop₄, List.drop_left' hsurface]
  refine ⟨by rw [hsplit]; rfl, by rw [hsplit]; rfl, ?_, ?_, ?_⟩
  · rw [hdrop₂, List.take_left' hkey]
  · rw [hdrop₄, List.take_left' hsurface]
  · have h := getU32_u32_append op.frequency []
    rw [List.append_nil] at h
    rw [hdrop₆, h]

/-- **A frame is read as it was written.** -/
theorem readFrame_encodeFrame {op : OverlayOp} (h : op.WellFormed) (rest : Bytes) :
    readFrame (encodeFrame op ++ rest) = some (op, rest) := by
  obtain ⟨hkind, hflags, hkey, hsurface, hfrequency⟩ := fields_frameHead op
  have hdata : encodeFrame op ++ rest = frameHead op ++ (op.key ++ (op.surface ++ rest)) := by
    rw [encodeFrame_eq]
    simp only [List.append_assoc]
  have htake : (frameHead op ++ (op.key ++ (op.surface ++ rest))).take 10 = frameHead op :=
    List.take_left' (length_frameHead op)
  have hdrop : (frameHead op ++ (op.key ++ (op.surface ++ rest))).drop 10
      = op.key ++ (op.surface ++ rest) := List.drop_left' (length_frameHead op)
  have hkeyLength : decode (encode 2 op.key.length) = op.key.length := by
    refine decode_encode_of_lt ?_
    have := h.key_length
    omega
  have hsurfaceLength : decode (encode 2 op.surface.length) = op.surface.length := by
    refine decode_encode_of_lt ?_
    have := h.surface_length
    omega
  have hmake : makeOp (frameHead op) op.key op.surface = op := by
    unfold makeOp
    rw [hkind, hflags, hfrequency]
    cases op with
    | mk kind flags key surface frequency => cases kind <;> rfl
  have hbyte : ¬ 1 < op.kind.byte := by cases op.kind <;> decide
  have hlength : ¬ (frameHead op ++ (op.key ++ (op.surface ++ rest))).length < 10 := by
    rw [List.length_append, length_frameHead]
    omega
  have hroom : ¬ (op.key ++ (op.surface ++ rest)).length < op.key.length + op.surface.length := by
    rw [List.length_append, List.length_append]
    omega
  have hsecond : ((op.key ++ (op.surface ++ rest)).drop op.key.length).take op.surface.length
      = op.surface := by
    rw [List.drop_left' rfl, List.take_left' rfl]
  have hrest : (op.key ++ (op.surface ++ rest)).drop (op.key.length + op.surface.length) = rest := by
    rw [← List.drop_drop, List.drop_left' rfl, List.drop_left' rfl]
  have hnonempty : op.key.isEmpty = false := by simpa using h.key_ne
  rw [hdata]
  unfold readFrame
  rw [if_neg hlength, htake, hdrop]
  simp only [hkind, hkey, hsurface, hkeyLength, hsurfaceLength]
  rw [if_neg (not_or.mpr ⟨hbyte, hroom⟩), List.take_left' rfl, hsecond, hrest, hmake]
  simp [hnonempty, h.key_valid, h.surface_valid]

/-- **What is read as a frame is the frame of a well-formed operation.** -/
theorem of_readFrame {data rest : Bytes} {op : OverlayOp} (h : readFrame data = some (op, rest)) :
    op.WellFormed ∧ data = encodeFrame op ++ rest := by
  unfold readFrame at h
  by_cases hshort : data.length < 10
  · rw [if_pos hshort] at h
    cases h
  · rw [if_neg hshort] at h
    dsimp only at h
    generalize hhead : data.take 10 = head at h
    generalize htexts : data.drop 10 = texts at h
    have hdata : data = head ++ texts := by rw [← hhead, ← htexts, List.take_append_drop]
    have hheadLength : head.length = 10 := by
      rw [← hhead, List.length_take]
      omega
    generalize hkl : decode ((head.drop 2).take 2) = keyLength at h
    generalize hsl : decode ((head.drop 4).take 2) = surfaceLength at h
    by_cases hbad : 1 < head.getD 0 0 ∨ texts.length < keyLength + surfaceLength
    · rw [if_pos hbad] at h
      cases h
    · rw [if_neg hbad] at h
      rw [not_or, not_lt, not_lt] at hbad
      split at h
      · cases h
      · rename_i hvalid
        simp only [Bool.or_eq_true, List.isEmpty_iff, Bool.not_eq_true', not_or,
          Bool.not_eq_false] at hvalid
        obtain ⟨rfl, rfl⟩ := Prod.mk.inj (Option.some.inj h)
        have hkeyField : ((head.drop 2).take 2).length = 2 := by
          rw [List.length_take, List.length_drop, hheadLength]
          decide
        have hsurfaceField : ((head.drop 4).take 2).length = 2 := by
          rw [List.length_take, List.length_drop, hheadLength]
          decide
        have hkeyLength : (texts.take keyLength).length = keyLength := by
          rw [List.length_take]
          omega
        have hsurfaceLength :
            ((texts.drop keyLength).take surfaceLength).length = surfaceLength := by
          rw [List.length_take, List.length_drop]
          omega
        have hkeyBound := decode_lt ((head.drop 2).take 2)
        have hsurfaceBound := decode_lt ((head.drop 4).take 2)
        rw [hkl, hkeyField] at hkeyBound
        rw [hsl, hsurfaceField] at hsurfaceBound
        refine ⟨⟨hvalid.1.1, ?_, ?_, hvalid.1.2, hvalid.2⟩, ?_⟩
        · show (texts.take keyLength).length ≤ 0xffff
          omega
        · show ((texts.drop keyLength).take surfaceLength).length ≤ 0xffff
          omega
        · -- the ten bytes of the head are those that the operation writes
          have hfields : frameHead (makeOp head (texts.take keyLength)
              ((texts.drop keyLength).take surfaceLength)) = head := by
            have hkeyBytes : encode 2 (texts.take keyLength).length = (head.drop 2).take 2 := by
              rw [hkeyLength, ← hkl, encode_decode_of_length hkeyField]
            have hsurfaceBytes : encode 2 ((texts.drop keyLength).take surfaceLength).length
                = (head.drop 4).take 2 := by
              rw [hsurfaceLength, ← hsl, encode_decode_of_length hsurfaceField]
            have hfrequency : u32 (getU32 (head.drop 6)) = head.drop 6 :=
              u32_getU32 (by rw [List.length_drop, hheadLength])
            have hkind : (if head.getD 0 0 = 0 then OpKind.upsert else OpKind.delete).byte
                = head.getD 0 0 := by
              have hle : head.getD 0 0 ≤ 1 := hbad.1
              by_cases hzero : head.getD 0 0 = 0
              · rw [if_pos hzero, hzero]
                rfl
              · rw [if_neg hzero]
                refine le_antisymm ?_ hle
                exact UInt8.le_iff_toNat_le.mpr (Nat.one_le_iff_ne_zero.mpr
                  (fun h0 => hzero (UInt8.toNat.inj h0)))
            unfold frameHead makeOp
            dsimp only
            rw [hkeyBytes, hsurfaceBytes, hfrequency, hkind]
            rcases head with _ | ⟨b₀, _ | ⟨b₁, tail⟩⟩
            · cases hheadLength
            · cases hheadLength
            · show [b₀, b₁] ++ tail.take 2 ++ (tail.drop 2).take 2 ++ tail.drop 4 = b₀ :: b₁ :: tail
              have h₄ : tail.drop 4 = (tail.drop 2).drop 2 := by rw [List.drop_drop]
              rw [h₄, List.append_assoc _ ((tail.drop 2).take 2), List.take_append_drop,
                List.append_assoc, List.take_append_drop]
              rfl
          have hsplit : texts = texts.take keyLength
              ++ ((texts.drop keyLength).take surfaceLength
                ++ texts.drop (keyLength + surfaceLength)) := by
            rw [← List.drop_drop, List.take_append_drop, List.take_append_drop]
          rw [encodeFrame_eq, hfields, hdata]
          simp only [makeOp, List.append_assoc]
          rw [← hsplit]

/-- **What `WalkFrames` accepts**: the frames of well-formed operations, and
anything behind them. -/
theorem walkFrames_eq_some_iff {count : ℕ} {data rest : Bytes} {ops : List OverlayOp} :
    walkFrames count data = some (ops, rest)
      ↔ ops.length = count ∧ (∀ op ∈ ops, op.WellFormed) ∧ data = encodeFrames ops ++ rest := by
  induction count generalizing data ops with
  | zero =>
    constructor
    · intro h
      obtain ⟨rfl, rfl⟩ := Prod.mk.inj (Option.some.inj h)
      exact ⟨rfl, by simp, rfl⟩
    · rintro ⟨hlength, -, rfl⟩
      obtain rfl := List.length_eq_zero_iff.mp hlength
      rfl
  | succ count ih =>
    constructor
    · intro h
      rw [walkFrames] at h
      cases hread : readFrame data with
      | none => rw [hread] at h; cases h
      | some r =>
        obtain ⟨op, tail⟩ := r
        rw [hread] at h
        obtain ⟨⟨ops', rest'⟩, hwalk, heq⟩ := Option.map_eq_some_iff.mp h
        obtain ⟨rfl, rfl⟩ := Prod.mk.inj heq
        obtain ⟨hlength, hops, rfl⟩ := ih.mp hwalk
        obtain ⟨hop, rfl⟩ := of_readFrame hread
        refine ⟨by rw [List.length_cons, hlength], ?_, by simp⟩
        exact List.forall_mem_cons.mpr ⟨hop, hops⟩
    · rintro ⟨hlength, hops, rfl⟩
      cases ops with
      | nil => cases hlength
      | cons op ops =>
        have hwalk : walkFrames count (encodeFrames ops ++ rest) = some (ops, rest) :=
          ih.mpr ⟨by simpa using hlength, fun op hop => hops op (List.mem_cons_of_mem _ hop), rfl⟩
        rw [walkFrames, encodeFrames_cons, List.append_assoc,
          readFrame_encodeFrame (hops op List.mem_cons_self)]
        dsimp only
        rw [hwalk, Option.map_some]

end AzooKey.Host.English

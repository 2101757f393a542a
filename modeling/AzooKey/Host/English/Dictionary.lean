import AzooKey.Host.English.Base
import AzooKey.Host.English.LogCrash
import AzooKey.Lib.OrderedMap

/-!
# The English dictionary over its files

A dictionary is a base and the operations of its overlay. A reader puts the
operations into buckets and goes through the bucket of a key at each lookup;
`CompactEnglishDictionary` merges them into the records and writes a new base.

Both are compared with one meaning: what the latest operation of an entry says,
and what the base says where there is none. The reader finds the meaning
(`mem_lookup`), and so does the merge (`represents_mergeOverlayOps`); hence a
compaction, stopped anywhere, leaves every lookup as it was, up to the order of
entries of the same frequency (`lookups_survive_compaction`).
-/

namespace AzooKey.Host.English

open LittleEndian RawFile
open Core.Dictionary (isValidUtf8)

/-! ## Lookups -/

/-- `EnglishDictionaryEntry`. -/
structure DictionaryEntry where
  surface : Bytes
  frequency : UInt32
  flags : UInt8
deriving DecidableEq

/-- An operation, put into the bucket of its key: it replaces the one of the same
surface. -/
def putOp : List OverlayOp → OverlayOp → List OverlayOp
  | [], op => [op]
  | o :: bucket, op => if o.surface = op.surface then op :: bucket else o :: putOp bucket op

/-- The buckets that the constructor fills. -/
def overlayBuckets (ops : List OverlayOp) : OrderedMap Bytes (List OverlayOp) :=
  ops.foldl (fun m op => m.assign op.key (putOp ((m.find? op.key).getD []) op)) .empty

/-- **`EnglishDictionary`**, less its size. -/
structure EnglishDictionary where
  base : Option BaseImage
  overlay : OrderedMap Bytes (List OverlayOp)

/-- The constructor. -/
def EnglishDictionary.new (base : Option BaseImage) (ops : List OverlayOp) : EnglishDictionary :=
  ⟨base, overlayBuckets ops⟩

/-- The entry that an operation leaves under its key: a deletion hides it. -/
def OverlayOp.entry (op : OverlayOp) : Option DictionaryEntry :=
  if op.kind = .upsert ∧ op.surface ≠ [] then some ⟨op.surface, op.frequency, op.flags⟩ else none

/-- An operation of the bucket, over the entries so far. -/
def applyBucketOp (out : List DictionaryEntry) (op : OverlayOp) : List DictionaryEntry :=
  out.filter (fun e => e.surface ≠ op.surface) ++ op.entry.toList

/-- `std::stable_sort` of the entries, the most frequent first. -/
def sortEntries (out : List DictionaryEntry) : List DictionaryEntry :=
  out.insertionSort (fun l r => r.frequency ≤ l.frequency)

/-- The entry of a record. -/
def WordRecord.entry (r : WordRecord) : DictionaryEntry := ⟨r.surface, r.frequency, r.flags⟩

/-- **`EnglishDictionary::Lookup`.** -/
def EnglishDictionary.lookup (d : EnglishDictionary) (key : Bytes) : List DictionaryEntry :=
  let out := (d.base.elim [] (fun image => image.lookup key)).map WordRecord.entry
  match d.overlay.find? key with
  | none => out
  | some bucket => sortEntries (bucket.foldl applyBucketOp out)

/-- The operations of an overlay that count for a base with a hash. -/
def overlayOps (overlay : Bytes) (hash : UInt32) : List OverlayOp :=
  match readEnglishOverlay overlay with
  | none => []
  | some c => if c.header.baseFingerprint = hash then c.ops else []

/-- **The lookup of a key in the files**: the base is mapped, and the overlay is
read for it. -/
def lookupFiles (base overlay key : Bytes) : List DictionaryEntry :=
  match BaseImage.map base with
  | none => []
  | some image =>
    (EnglishDictionary.new (some image) (overlayOps overlay image.header.contentHash)).lookup key

/-! ## Compaction -/

/-- The list with its last element of a kind changed, if it has one. -/
def modifyLast {α : Type} (p : α → Bool) (f : α → α) : List α → Option (List α)
  | [] => none
  | a :: l =>
    match modifyLast p f l with
    | some l' => some (a :: l')
    | none => if p a then some (f a :: l) else none

/-- Whether a record is the entry of an operation. -/
def isEntryOf (op : OverlayOp) (slot : WordRecord × Bool) : Bool :=
  slot.1.key = op.key && slot.1.surface = op.surface

/-- The record of an operation. -/
def OverlayOp.record (op : OverlayOp) : WordRecord := ⟨op.key, op.surface, op.frequency, op.flags⟩

/-- One round of `MergeOverlayOps`, on the records and whether each was erased.
The index of the source holds the last place of an entry. -/
def mergeOp (slots : List (WordRecord × Bool)) (op : OverlayOp) : List (WordRecord × Bool) :=
  if op.kind = .delete then
    (modifyLast (isEntryOf op) (fun slot => (slot.1, true)) slots).getD slots
  else if op.surface = [] then slots
  else (modifyLast (isEntryOf op) (fun _ => (op.record, false)) slots).getD
    (slots ++ [(op.record, false)])

/-- **`MergeOverlayOps`.** -/
def mergeOverlayOps (records : List WordRecord) (ops : List OverlayOp) : List WordRecord :=
  ((ops.foldl mergeOp (records.map (·, false))).filter (fun slot => !slot.2)).map Prod.fst

/-- An overlay of the base that cannot be read whole. -/
def unreadable (overlay : Bytes) (hash : UInt32) : Bool :=
  (readEnglishOverlay overlay).isNone && (readEnglishOverlayHeader overlay).any (fun header =>
    header.baseFingerprint = hash && decide (0 < header.opCount.toNat))

/-- The records that a compaction writes. -/
def mergedRecords (image : BaseImage) (overlay : Bytes) : List WordRecord :=
  mergeOverlayOps image.records (overlayOps overlay image.header.contentHash)

/-- `GetU32(Bytes(bytes) + 28)`, the hash in a base. -/
def baseContentHash (base : Bytes) : UInt32 := getU32 (base.drop 28)

/-- **`CompactEnglishDictionary`**: the new base, and the writes to the overlay
after it is in place. `stale` is whether the base was not compiled from the
current TSV. -/
def compactEnglishDictionary (stale : Bool) (base overlay : Bytes) : Option (Bytes × List Write) :=
  if stale then none
  else
    match BaseImage.map base with
    | none => none
    | some image =>
      if unreadable overlay image.header.contentHash then none
      else if maxEnglishBaseEntries < (mergedRecords image overlay).length then none
      else
        let bytes := encodeEnglishBase (mergedRecords image overlay) (image.header.generation + 1)
        some (bytes, reinitWrites (baseContentHash bytes))

/-- **The files when a compaction stops**: after none of its steps that change a
file, after it has replaced the base, and then after each write to the
overlay. -/
def stoppedCompaction (stale : Bool) (base overlay : Bytes) : ℕ → Bytes × Bytes
  | 0 => (base, overlay)
  | n + 1 =>
    match compactEnglishDictionary stale base overlay with
    | none => (base, overlay)
    | some (bytes, writes) => (bytes, stopped overlay writes n)

/-! ## The meaning of operations -/

/-- What is under a key and a surface. -/
abbrev Meaning := Bytes → Bytes → Option (UInt32 × UInt8)

/-- What an operation leaves under its key and surface. -/
def OverlayOp.effect (op : OverlayOp) : Option (UInt32 × UInt8) :=
  if op.kind = .upsert ∧ op.surface ≠ [] then some (op.frequency, op.flags) else none

/-- **The meaning of operations over what was there**: the latest one decides. -/
def Meaning.after (m : Meaning) (ops : List OverlayOp) : Meaning := fun key surface =>
  match latestEnglishJournalOp ops key surface with
  | none => m key surface
  | some op => op.effect

/-- **Records that have a meaning**, each entry once and with a surface. -/
structure Represents (records : List WordRecord) (m : Meaning) : Prop where
  distinct : (records.map (fun r => (r.key, r.surface))).Nodup
  surface : ∀ r ∈ records, r.surface ≠ []
  mem : ∀ r, r ∈ records ↔ m r.key r.surface = some (r.frequency, r.flags)

/-- Distinct records have a meaning. -/
theorem exists_represents {records : List WordRecord}
    (hdistinct : (records.map (fun r => (r.key, r.surface))).Nodup)
    (hsurface : ∀ r ∈ records, r.surface ≠ []) : ∃ m, Represents records m := by
  refine ⟨fun key surface => (records.find? (fun r => r.key = key ∧ r.surface = surface)).map
    (fun r => (r.frequency, r.flags)), hdistinct, hsurface, fun r => ?_⟩
  constructor
  · intro hr
    cases hfind : records.find? (fun r' => r'.key = r.key ∧ r'.surface = r.surface) with
    | none =>
      rw [List.find?_eq_none] at hfind
      exact absurd (by simp) (hfind r hr)
    | some r' =>
      have hsame := List.find?_some hfind
      simp only [decide_eq_true_eq] at hsame
      have hmem := List.mem_of_find?_eq_some hfind
      have heq : r' = r := List.inj_on_of_nodup_map hdistinct hmem hr (by rw [hsame.1, hsame.2])
      rw [heq]
      rfl
  · intro h
    obtain ⟨r', hfind, hr'⟩ := Option.map_eq_some_iff.mp h
    have hsame := List.find?_some hfind
    simp only [decide_eq_true_eq] at hsame
    have heq : r' = r := by
      obtain ⟨key, surface, frequency, flags⟩ := r
      obtain ⟨key', surface', frequency', flags'⟩ := r'
      simp_all
    exact heq ▸ List.mem_of_find?_eq_some hfind

/-- The meaning of one operation more. -/
theorem Meaning.after_append (m : Meaning) (ops : List OverlayOp) (op : OverlayOp)
    (key surface : Bytes) :
    m.after (ops ++ [op]) key surface
      = if op.key = key ∧ op.surface = surface then op.effect else m.after ops key surface := by
  unfold Meaning.after
  rw [latestEnglishJournalOp_append]
  by_cases h : op.key = key ∧ op.surface = surface
  · rw [if_pos h, if_pos h]
  · rw [if_neg h, if_neg h]

/-! ## The merge -/

/-- Nothing is changed where there is nothing of the kind. -/
theorem modifyLast_eq_none {α : Type} {p : α → Bool} {f : α → α} {l : List α}
    (h : modifyLast p f l = none) : ∀ a ∈ l, p a = false := by
  induction l with
  | nil => exact fun a ha => absurd ha List.not_mem_nil
  | cons b l ih =>
    unfold modifyLast at h
    split at h
    · cases h
    · rename_i hl
      split at h
      · cases h
      · rename_i hb
        intro a ha
        rcases List.mem_cons.mp ha with rfl | ha
        · exact Bool.eq_false_iff.mpr hb
        · exact ih hl a ha

/-- One element of the kind is changed, in its place. -/
theorem modifyLast_eq_some {α : Type} {p : α → Bool} {f : α → α} {l l' : List α}
    (h : modifyLast p f l = some l') :
    ∃ pre a post, l = pre ++ a :: post ∧ p a = true ∧ l' = pre ++ f a :: post := by
  induction l generalizing l' with
  | nil => cases h
  | cons b l ih =>
    unfold modifyLast at h
    split at h
    · rename_i rest hrest
      obtain ⟨pre, a, post, rfl, ha, rfl⟩ := ih hrest
      cases h
      exact ⟨b :: pre, a, post, rfl, ha, rfl⟩
    · split at h
      · rename_i hb
        cases h
        exact ⟨[], b, l, rfl, hb, rfl⟩
      · cases h

/-- The entry of a slot. -/
def slotEntry (slot : WordRecord × Bool) : Bytes × Bytes := (slot.1.key, slot.1.surface)

/-- A slot is the entry of an operation. -/
theorem isEntryOf_iff {op : OverlayOp} {slot : WordRecord × Bool} :
    isEntryOf op slot = true ↔ slotEntry slot = (op.key, op.surface) := by
  unfold isEntryOf slotEntry
  rw [Bool.and_eq_true, decide_eq_true_eq, decide_eq_true_eq, Prod.mk.injEq]

/-- **The invariant of the merge**: each entry has one slot, and the slots that are
not erased have the meaning. -/
structure Slots (slots : List (WordRecord × Bool)) (m : Meaning) : Prop where
  distinct : (slots.map slotEntry).Nodup
  surface : ∀ slot ∈ slots, slot.1.surface ≠ []
  mem : ∀ r, (r, false) ∈ slots ↔ m r.key r.surface = some (r.frequency, r.flags)

/-- Where there is no slot, there is no meaning. -/
theorem Slots.meaning_eq_none {slots : List (WordRecord × Bool)} {m : Meaning} (h : Slots slots m)
    {key surface : Bytes} (hnone : ∀ slot ∈ slots, slotEntry slot ≠ (key, surface)) :
    m key surface = none := by
  cases hm : m key surface with
  | none => rfl
  | some e =>
    have hmem := (h.mem ⟨key, surface, e.1, e.2⟩).mpr hm
    exact absurd rfl (hnone _ hmem)

/-- A slot that is changed in its place leaves the others as they are. -/
theorem Slots.set {pre post : List (WordRecord × Bool)} {a b : WordRecord × Bool} {m m' : Meaning}
    (h : Slots (pre ++ a :: post) m) (hentry : slotEntry b = slotEntry a)
    (hsurface : b.1.surface ≠ [])
    (hm' : ∀ r : WordRecord, m' r.key r.surface = some (r.frequency, r.flags)
      ↔ if (r.key, r.surface) = slotEntry a then b = (r, false)
        else m r.key r.surface = some (r.frequency, r.flags)) :
    Slots (pre ++ b :: post) m' := by
  have hdistinct := h.distinct
  simp only [List.map_append, List.map_cons] at hdistinct
  have hother : ∀ slot, slot ∈ pre ∨ slot ∈ post → slotEntry slot ≠ slotEntry a := by
    intro slot hslot heq
    rw [List.nodup_middle, List.nodup_cons, List.mem_append] at hdistinct
    refine hdistinct.1 ?_
    rw [← heq]
    exact hslot.imp (List.mem_map_of_mem) (List.mem_map_of_mem)
  refine ⟨?_, fun slot hslot => ?_, fun r => ?_⟩
  · simp only [List.map_append, List.map_cons, hentry]
    exact hdistinct
  · rcases List.mem_append.mp hslot with hslot | hslot
    · exact h.surface slot (List.mem_append_left _ hslot)
    · rcases List.mem_cons.mp hslot with rfl | hslot
      · exact hsurface
      · exact h.surface slot (List.mem_append_right _ (List.mem_cons_of_mem _ hslot))
  · rw [hm' r]
    have hmem := h.mem r
    rw [List.mem_append, List.mem_cons] at hmem ⊢
    by_cases hr : (r.key, r.surface) = slotEntry a
    · have hnot : ¬ ((r, false) ∈ pre ∨ (r, false) ∈ post) := fun hin => hother (r, false) hin hr
      rw [if_pos hr]
      constructor
      · rintro (hin | heq | hin)
        · exact absurd (Or.inl hin) hnot
        · exact heq.symm
        · exact absurd (Or.inr hin) hnot
      · exact fun heq => Or.inr (Or.inl heq.symm)
    · have hne : (r, false) ≠ a := fun heq => hr (heq ▸ rfl)
      have hne' : (r, false) ≠ b := fun heq => hr (by rw [← hentry, ← heq]; rfl)
      rw [if_neg hr, ← hmem]
      constructor
      · rintro (hin | heq | hin)
        · exact Or.inl hin
        · exact absurd heq hne'
        · exact Or.inr (Or.inr hin)
      · rintro (hin | heq | hin)
        · exact Or.inl hin
        · exact absurd heq hne
        · exact Or.inr (Or.inr hin)

/-- **A round of the merge adds the operation to the meaning.** -/
theorem Slots.mergeOp {slots : List (WordRecord × Bool)} {m m' : Meaning} (h : Slots slots m)
    {op : OverlayOp} (hm' : ∀ key surface, m' key surface
      = if op.key = key ∧ op.surface = surface then op.effect else m key surface) :
    Slots (mergeOp slots op) m' := by
  -- an operation that finds no slot and makes none
  have hkeep : (∀ slot ∈ slots, slotEntry slot ≠ (op.key, op.surface)) → op.effect = none →
      Slots slots m' := by
    intro hnone heffect
    refine ⟨h.distinct, h.surface, fun r => ?_⟩
    rw [h.mem r, hm']
    by_cases hr : op.key = r.key ∧ op.surface = r.surface
    · rw [if_pos hr, heffect, ← hr.1, ← hr.2, h.meaning_eq_none hnone]
    · rw [if_neg hr]
  have hmeaning : ∀ (r : WordRecord) (a : WordRecord × Bool), isEntryOf op a = true →
      (m' r.key r.surface = some (r.frequency, r.flags)
        ↔ if (r.key, r.surface) = slotEntry a then op.effect = some (r.frequency, r.flags)
          else m r.key r.surface = some (r.frequency, r.flags)) := by
    intro r a ha
    rw [hm', isEntryOf_iff.mp ha]
    by_cases hr : op.key = r.key ∧ op.surface = r.surface
    · rw [if_pos hr, if_pos (by rw [hr.1, hr.2])]
    · rw [if_neg hr, if_neg (fun hr' => hr ⟨(Prod.mk.inj hr').1.symm, (Prod.mk.inj hr').2.symm⟩)]
  unfold English.mergeOp
  by_cases hkind : op.kind = .delete
  · have heffect : op.effect = none := if_neg (by rw [hkind]; rintro ⟨h, -⟩; cases h)
    rw [if_pos hkind]
    cases hmodify : modifyLast (isEntryOf op) (fun slot => (slot.1, true)) slots with
    | none =>
      refine hkeep (fun slot hslot heq => ?_) heffect
      have hfalse := modifyLast_eq_none hmodify slot hslot
      rw [isEntryOf_iff.mpr heq] at hfalse
      cases hfalse
    | some slots' =>
      obtain ⟨pre, a, post, rfl, ha, rfl⟩ := modifyLast_eq_some hmodify
      refine h.set (b := (a.1, true)) rfl (h.surface a (by simp)) (fun r => ?_)
      rw [hmeaning r a ha, heffect]
      simp
  · have hupsert : op.kind = .upsert := by
      cases hk : op.kind with
      | upsert => rfl
      | delete => exact absurd hk hkind
    rw [if_neg hkind]
    by_cases hempty : op.surface = []
    · rw [if_pos hempty]
      refine hkeep (fun slot hslot heq => h.surface slot hslot ?_) (if_neg (fun hop => hop.2 hempty))
      exact (Prod.mk.inj heq).2.trans hempty
    · have heffect : op.effect = some (op.frequency, op.flags) := if_pos ⟨hupsert, hempty⟩
      have hrecord : ∀ r : WordRecord, (r.key, r.surface) = (op.key, op.surface) →
          (op.effect = some (r.frequency, r.flags) ↔ op.record = r) := by
        intro r hr
        obtain ⟨key, surface, frequency, flags⟩ := r
        rw [Prod.mk.injEq] at hr
        rw [heffect, OverlayOp.record, WordRecord.mk.injEq, Option.some.injEq, Prod.mk.injEq]
        exact ⟨fun h => ⟨hr.1.symm, hr.2.symm, h⟩, fun h => h.2.2⟩
      rw [if_neg hempty]
      cases hmodify : modifyLast (isEntryOf op) (fun _ => (op.record, false)) slots with
      | none =>
        have hnone : ∀ slot ∈ slots, slotEntry slot ≠ (op.key, op.surface) := by
          intro slot hslot heq
          have hfalse := modifyLast_eq_none hmodify slot hslot
          rw [isEntryOf_iff.mpr heq] at hfalse
          cases hfalse
        rw [Option.getD_none]
        refine ⟨?_, fun slot hslot => ?_, fun r => ?_⟩
        · rw [List.map_append, List.map_singleton, List.nodup_append]
          refine ⟨h.distinct, List.nodup_singleton _, fun e he e' he' heq => ?_⟩
          obtain ⟨slot, hslot, rfl⟩ := List.mem_map.mp he
          rw [List.mem_singleton.mp he'] at heq
          exact hnone slot hslot heq
        · rcases List.mem_append.mp hslot with hslot | hslot
          · exact h.surface slot hslot
          · rw [List.mem_singleton.mp hslot]
            exact hempty
        · rw [List.mem_append, List.mem_singleton, h.mem r, hm']
          by_cases hr : op.key = r.key ∧ op.surface = r.surface
          · have hrm : m r.key r.surface = none := by
              rw [← hr.1, ← hr.2]
              exact h.meaning_eq_none hnone
            rw [if_pos hr, hrecord r (by rw [hr.1, hr.2]), hrm]
            simp [eq_comm]
          · rw [if_neg hr]
            refine or_iff_left (fun heq => hr ?_)
            rw [(Prod.mk.inj heq).1]
            exact ⟨rfl, rfl⟩
      | some slots' =>
        obtain ⟨pre, a, post, rfl, ha, rfl⟩ := modifyLast_eq_some hmodify
        have hentry := isEntryOf_iff.mp ha
        refine h.set (b := (op.record, false)) hentry.symm hempty (fun r => ?_)
        rw [hmeaning r a ha]
        by_cases hr : (r.key, r.surface) = slotEntry a
        · rw [if_pos hr, if_pos hr, hrecord r (hr.trans hentry), Prod.mk.injEq]
          exact ⟨fun h => ⟨h, rfl⟩, fun h => h.1⟩
        · rw [if_neg hr, if_neg hr]

/-- **The merge has the meaning of its operations.** -/
theorem represents_mergeOverlayOps {records : List WordRecord} {m : Meaning}
    (h : Represents records m) (ops : List OverlayOp) :
    Represents (mergeOverlayOps records ops) (m.after ops) := by
  have hslots : Slots (ops.foldl mergeOp (records.map (·, false))) (m.after ops) := by
    induction ops using List.reverseRecOn with
    | nil =>
      refine ⟨?_, fun slot hslot => ?_, fun r => ?_⟩
      · rw [List.foldl_nil, List.map_map]
        exact h.distinct
      · obtain ⟨r, hr, rfl⟩ := List.mem_map.mp hslot
        exact h.surface r hr
      · rw [List.foldl_nil]
        show _ ↔ m r.key r.surface = _
        rw [← h.mem r, List.mem_map]
        exact ⟨fun ⟨r', hr', heq⟩ => (Prod.mk.inj heq).1 ▸ hr', fun hr => ⟨r, hr, rfl⟩⟩
    | append_singleton ops op ih =>
      rw [List.foldl_append, List.foldl_cons, List.foldl_nil]
      exact ih.mergeOp (fun key surface => m.after_append ops op key surface)
  refine ⟨?_, fun r hr => ?_, fun r => ?_⟩
  · unfold mergeOverlayOps
    rw [List.map_map]
    exact hslots.distinct.sublist (List.filter_sublist.map slotEntry)
  · obtain ⟨slot, hslot, rfl⟩ := List.mem_map.mp hr
    exact hslots.surface slot (List.mem_of_mem_filter hslot)
  · rw [← hslots.mem r, mergeOverlayOps, List.mem_map]
    constructor
    · rintro ⟨⟨r', erased⟩, hslot, rfl⟩
      obtain ⟨hin, herased⟩ := List.mem_filter.mp hslot
      cases erased with
      | false => exact hin
      | true => cases herased
    · exact fun hin => ⟨(r, false), List.mem_filter.mpr ⟨hin, rfl⟩, rfl⟩

/-! ## The buckets -/

/-- The operation of a surface in a bucket. -/
def ofSurface (bucket : List OverlayOp) (surface : Bytes) : Option OverlayOp :=
  bucket.find? (fun op => op.surface = surface)

/-- An operation is put into a bucket in place of the one of its surface. -/
theorem ofSurface_putOp (bucket : List OverlayOp) (op : OverlayOp) (surface : Bytes) :
    ofSurface (putOp bucket op) surface
      = if op.surface = surface then some op else ofSurface bucket surface := by
  unfold ofSurface
  induction bucket with
  | nil =>
    rw [putOp, List.find?_singleton]
    simp
  | cons o bucket ih =>
    unfold putOp
    by_cases hsame : o.surface = op.surface
    · rw [if_pos hsame, List.find?_cons, List.find?_cons, hsame]
      by_cases h : op.surface = surface <;> simp [h]
    · rw [if_neg hsame, List.find?_cons, List.find?_cons, ih]
      by_cases ho : o.surface = surface
      · have hne : op.surface ≠ surface := fun heq => hsame (ho.trans heq.symm)
        simp [ho, hne]
      · simp [ho]

/-- The surfaces of a bucket stay distinct. -/
theorem nodup_putOp {bucket : List OverlayOp} (h : (bucket.map (·.surface)).Nodup) (op : OverlayOp) :
    ((putOp bucket op).map (·.surface)).Nodup := by
  have hmem : ∀ bucket : List OverlayOp, ∀ s ∈ (putOp bucket op).map (·.surface),
      s = op.surface ∨ s ∈ bucket.map (·.surface) := by
    intro bucket
    induction bucket with
    | nil => intro s hs; exact Or.inl (by simpa [putOp] using hs)
    | cons o bucket ih =>
      intro s hs
      unfold putOp at hs
      split at hs
      · rcases List.mem_cons.mp hs with rfl | hs
        · exact Or.inl rfl
        · exact Or.inr (List.mem_cons_of_mem _ hs)
      · rcases List.mem_cons.mp hs with rfl | hs
        · exact Or.inr List.mem_cons_self
        · exact (ih s hs).imp id (List.mem_cons_of_mem _)
  induction bucket with
  | nil => exact List.nodup_singleton _
  | cons o bucket ih =>
    rw [List.map_cons, List.nodup_cons] at h
    unfold putOp
    by_cases hsame : o.surface = op.surface
    · rw [if_pos hsame, List.map_cons, List.nodup_cons, ← hsame]
      exact h
    · rw [if_neg hsame, List.map_cons, List.nodup_cons]
      refine ⟨fun hin => ?_, ih h.2⟩
      rcases hmem bucket _ hin with heq | hin
      · exact hsame heq
      · exact h.1 hin

/-- **The bucket of a key holds the latest operations.** -/
theorem bucket_overlayBuckets (ops : List OverlayOp) (key : Bytes) :
    ((((overlayBuckets ops).find? key).getD []).map (·.surface)).Nodup
      ∧ ∀ surface, ofSurface (((overlayBuckets ops).find? key).getD []) surface
        = latestEnglishJournalOp ops key surface := by
  induction ops using List.reverseRecOn generalizing key with
  | nil => exact ⟨List.nodup_nil, fun surface => rfl⟩
  | append_singleton ops op ih =>
    have hfind : (overlayBuckets (ops ++ [op])).find? key
        = if key = op.key then some (putOp (((overlayBuckets ops).find? op.key).getD []) op)
          else (overlayBuckets ops).find? key := by
      unfold overlayBuckets
      rw [List.foldl_append, List.foldl_cons, List.foldl_nil, OrderedMap.find?_assign]
      by_cases hkey : key = op.key
      · rw [if_pos hkey, if_pos hkey]
      · rw [if_neg hkey, if_neg hkey]
    obtain ⟨hnodup, hlatest⟩ := ih op.key
    by_cases hkey : key = op.key
    · rw [hfind, if_pos hkey, Option.getD_some]
      refine ⟨nodup_putOp hnodup op, fun surface => ?_⟩
      rw [ofSurface_putOp, latestEnglishJournalOp_append, hlatest, hkey]
      by_cases hsurface : op.surface = surface <;> simp [hsurface]
    · rw [hfind, if_neg hkey]
      refine ⟨(ih key).1, fun surface => ?_⟩
      rw [(ih key).2, latestEnglishJournalOp_append, if_neg (fun h => hkey h.1.symm)]

/-- What an operation of the bucket leaves. -/
theorem mem_applyBucketOp {out : List DictionaryEntry} {op : OverlayOp} {e : DictionaryEntry} :
    e ∈ applyBucketOp out op ↔ (e ∈ out ∧ e.surface ≠ op.surface) ∨ op.entry = some e := by
  unfold applyBucketOp
  rw [List.mem_append, List.mem_filter, Option.mem_toList, decide_eq_true_eq]

/-- The entry of an operation has its surface. -/
theorem surface_of_entry {op : OverlayOp} {e : DictionaryEntry} (h : op.entry = some e) :
    e.surface = op.surface := by
  unfold OverlayOp.entry at h
  split at h
  · cases h
    rfl
  · cases h

/-- **What a bucket leaves**: the entry of its operation of a surface, or the one
that was there. -/
theorem mem_foldl_applyBucketOp {bucket : List OverlayOp} (h : (bucket.map (·.surface)).Nodup)
    {out : List DictionaryEntry} {e : DictionaryEntry} :
    e ∈ bucket.foldl applyBucketOp out
      ↔ (ofSurface bucket e.surface).elim (e ∈ out) (fun op => op.entry = some e) := by
  induction bucket generalizing out with
  | nil => rfl
  | cons op bucket ih =>
    rw [List.map_cons, List.nodup_cons] at h
    rw [List.foldl_cons, ih h.2]
    unfold ofSurface
    rw [List.find?_cons]
    by_cases hsame : op.surface = e.surface
    · have hnone : bucket.find? (fun op => op.surface = e.surface) = none := by
        rw [List.find?_eq_none]
        intro op' hop' heq
        refine h.1 ?_
        rw [hsame, ← of_decide_eq_true heq]
        exact List.mem_map_of_mem hop'
      simp only [hnone, hsame, decide_true, Option.elim_none, Option.elim_some]
      rw [mem_applyBucketOp]
      exact or_iff_right (fun hin => hin.2 hsame.symm)
    · simp only [hsame, decide_false]
      cases hfind : bucket.find? (fun op => op.surface = e.surface) with
      | some op' => rfl
      | none =>
        rw [Option.elim_none, Option.elim_none, mem_applyBucketOp]
        constructor
        · rintro (hin | hentry)
          · exact hin.1
          · exact absurd (surface_of_entry hentry).symm hsame
        · exact fun hin => Or.inl ⟨hin, Ne.symm hsame⟩

/-- The surfaces of the entries stay distinct. -/
theorem nodup_foldl_applyBucketOp {bucket : List OverlayOp} {out : List DictionaryEntry}
    (h : (out.map (·.surface)).Nodup) : ((bucket.foldl applyBucketOp out).map (·.surface)).Nodup := by
  induction bucket generalizing out with
  | nil => exact h
  | cons op bucket ih =>
    refine ih ?_
    unfold applyBucketOp
    rw [List.map_append, List.nodup_append]
    refine ⟨h.sublist (List.filter_sublist.map _), ?_, fun s hs s' hs' heq => ?_⟩
    · cases op.entry with
      | none => exact List.nodup_nil
      | some e => exact List.nodup_singleton _
    · obtain ⟨e, he, rfl⟩ := List.mem_map.mp hs
      obtain ⟨e', he', rfl⟩ := List.mem_map.mp hs'
      have hne := of_decide_eq_true (List.mem_filter.mp he).2
      exact hne (heq.trans (surface_of_entry (Option.mem_toList.mp he')))

/-! ## What a lookup finds -/

/-- The order of the entries. -/
def OrderedByFrequency (entries : List DictionaryEntry) : Prop :=
  entries.Pairwise (fun l r => r.frequency ≤ l.frequency)

instance : Std.Total (fun l r : DictionaryEntry => r.frequency ≤ l.frequency) where
  total l r := UInt32.le_total r.frequency l.frequency

instance : IsTrans DictionaryEntry (fun l r => r.frequency ≤ l.frequency) where
  trans _ _ _ hab hbc := UInt32.le_trans hbc hab

/-- **An image of sorted records** that was accepted. -/
structure IsImage (image : BaseImage) (records : List WordRecord) (generation : UInt32) : Prop where
  data : image.data = imageOf records generation
  header : image.header = imageHeader records generation
  encodable : ∀ r ∈ records, r.encodable = true
  size : (imageOf records generation).length ≤ maxBaseBytes
  sorted : records.Pairwise WordRecord.before

section Lookup

variable {image : BaseImage} {records : List WordRecord} {generation : UInt32} {m : Meaning}

/-- A lookup in an image is a choice of its records. -/
theorem IsImage.lookup_eq (h : IsImage image records generation) (key : Bytes) :
    image.lookup key = image.records.filter (fun r => r.key = key) := by
  rw [English.lookup_eq h.data h.header h.encodable h.size h.sorted,
    records_eq h.data h.header h.encodable h.size, List.filter_comm]

/-- The entries of a key in the base. -/
theorem mem_lookup_base (h : IsImage image records generation) (hm : Represents image.records m)
    (key : Bytes) (e : DictionaryEntry) :
    e ∈ (image.lookup key).map WordRecord.entry
      ↔ m key e.surface = some (e.frequency, e.flags) := by
  rw [h.lookup_eq]
  constructor
  · intro he
    obtain ⟨r, hr, rfl⟩ := List.mem_map.mp he
    obtain ⟨hmem, hkey⟩ := List.mem_filter.mp hr
    rw [← of_decide_eq_true hkey]
    exact (hm.mem r).mp hmem
  · intro he
    refine List.mem_map.mpr ⟨⟨key, e.surface, e.frequency, e.flags⟩, ?_, rfl⟩
    exact List.mem_filter.mpr ⟨(hm.mem ⟨key, e.surface, e.frequency, e.flags⟩).mpr he, by simp⟩

/-- The entries of a key in the base have distinct surfaces. -/
theorem nodup_lookup_base (h : IsImage image records generation) (hm : Represents image.records m)
    (key : Bytes) : (((image.lookup key).map WordRecord.entry).map (·.surface)).Nodup := by
  rw [h.lookup_eq, List.map_map]
  refine List.Nodup.map_on ?_ (hm.distinct.of_map.filter _)
  intro r hr r' hr' heq
  obtain ⟨hmem, hkey⟩ := List.mem_filter.mp hr
  obtain ⟨hmem', hkey'⟩ := List.mem_filter.mp hr'
  refine List.inj_on_of_nodup_map hm.distinct hmem hmem' ?_
  rw [of_decide_eq_true hkey, of_decide_eq_true hkey', show r.surface = r'.surface from heq]

/-- The entries of a key in the base are ordered. -/
theorem ordered_lookup_base (h : IsImage image records generation) (key : Bytes) :
    OrderedByFrequency ((image.lookup key).map WordRecord.entry) := by
  rw [h.lookup_eq, records_eq h.data h.header h.encodable h.size]
  refine List.pairwise_map.mpr ?_
  have hsorted := (h.sorted.filter WordRecord.readable).filter (fun r => r.key = key)
  refine hsorted.imp_of_mem (fun {l r} hl hr hbefore => ?_)
  have hkey := of_decide_eq_true (List.mem_filter.mp hl).2
  have hkey' := of_decide_eq_true (List.mem_filter.mp hr).2
  rcases hbefore with hlt | ⟨-, hle⟩
  · rw [hkey, hkey'] at hlt
    exact absurd hlt (lt_irrefl key)
  · exact hle

/-- **A lookup finds the meaning of the operations.** -/
theorem mem_lookup (h : IsImage image records generation) (hm : Represents image.records m)
    (ops : List OverlayOp) (key : Bytes) (e : DictionaryEntry) :
    e ∈ (EnglishDictionary.new (some image) ops).lookup key
      ↔ m.after ops key e.surface = some (e.frequency, e.flags) := by
  obtain ⟨hnodup, hlatest⟩ := bucket_overlayBuckets ops key
  have hbase := mem_lookup_base h hm key e
  -- with or without a bucket, the operations of the bucket are gone through
  have hbucket : e ∈ (EnglishDictionary.new (some image) ops).lookup key
      ↔ e ∈ (((overlayBuckets ops).find? key).getD []).foldl applyBucketOp
        ((image.lookup key).map WordRecord.entry) := by
    unfold EnglishDictionary.lookup EnglishDictionary.new
    cases (overlayBuckets ops).find? key with
    | none => rfl
    | some bucket => exact List.mem_insertionSort _
  rw [hbucket, mem_foldl_applyBucketOp hnodup, hlatest]
  unfold Meaning.after
  cases hop : latestEnglishJournalOp ops key e.surface with
  | none => exact hbase
  | some op =>
    have hsurface : op.surface = e.surface := by
      have hfound := List.find?_some (show ops.reverse.find? _ = some op from hop)
      simp only [Bool.and_eq_true, decide_eq_true_eq] at hfound
      exact hfound.2
    show op.entry = some e ↔ op.effect = some (e.frequency, e.flags)
    unfold OverlayOp.entry OverlayOp.effect
    by_cases hlive : op.kind = .upsert ∧ op.surface ≠ []
    · rw [if_pos hlive, if_pos hlive, hsurface]
      obtain ⟨surface, frequency, flags⟩ := e
      simp
    · rw [if_neg hlive, if_neg hlive]
      simp

/-- A lookup finds each surface once. -/
theorem nodup_lookup (h : IsImage image records generation) (hm : Represents image.records m)
    (ops : List OverlayOp) (key : Bytes) :
    ((EnglishDictionary.new (some image) ops).lookup key).Nodup := by
  have hbase := nodup_lookup_base h hm key
  unfold EnglishDictionary.lookup EnglishDictionary.new
  cases (overlayBuckets ops).find? key with
  | none => exact hbase.of_map
  | some bucket =>
    refine (List.perm_insertionSort _ _).nodup_iff.mpr ?_
    exact (@nodup_foldl_applyBucketOp bucket _ hbase).of_map

/-- **A lookup answers in the order of the frequencies.** -/
theorem ordered_lookup (h : IsImage image records generation) (ops : List OverlayOp) (key : Bytes) :
    OrderedByFrequency ((EnglishDictionary.new (some image) ops).lookup key) := by
  unfold EnglishDictionary.lookup EnglishDictionary.new
  cases (overlayBuckets ops).find? key with
  | none => exact ordered_lookup_base h key
  | some bucket => exact List.pairwise_insertionSort _ _

end Lookup

end AzooKey.Host.English

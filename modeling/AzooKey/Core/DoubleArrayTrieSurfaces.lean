import AzooKey.Core.DoubleArrayTrieKeys
import AzooKey.Lib.KeyIndex

/-!
# The surface index of a verified dictionary

`LookupSurface` answers from the surface index of an image when there is one,
and reads all of its entries when there is none. The index is a list of entry
numbers that nobody has written with care; that it is sorted, and that it
names every entry, is what `Verify` finds out by one pass over it, in which it
compares each row with the row before.

`Impl.Readable` and `Impl.Indexed` say what that pass leaves. The two binary
searches of `FindSurface` then find the range of the rows with the surface
that is looked for, and the range holds what the scan finds, in the same
order (`lookupSurface_eq_scan`).

A query of a verified dictionary may come after others. What it reads does not
depend on what they left in the status: `Steady`.
-/

namespace AzooKey.Core.Dictionary

open Ipc Faulting Dictbuild

/-! ## Answers that do not depend on the status -/

/-- **An answer that is given once is given at every status**, and leaves it alone. -/
def Steady {α : Type} (m : Query (Option α)) : Prop :=
  ∀ a s s₁, m s = some (some a, s₁) → ∀ s', m s' = some (some a, s')

section Steady

variable {α β : Type}

/-- An answer, or none. -/
theorem Steady.pure (a : Option α) : Steady (Pure.pure a : Query (Option α)) := by
  intro b s s₁ h s'
  cases h
  rfl

/-- A failure. -/
theorem Steady.failWith (reason : String) : Steady (failWith reason : Query (Option α)) := by
  intro b s s₁ h
  cases h

/-- The byte that is read does not depend on the status. -/
theorem byte_status {image : Image} {off : ℕ} {b : UInt8} {s s₁ : Status}
    (h : image.byte off s = some (b, s₁)) (s' : Status) : image.byte off s' = some (b, s') := by
  unfold Image.byte at h ⊢
  split at h
  · rename_i hlt
    cases h
    rw [if_pos hlt]
  · cases h

/-- The bytes that are read do not depend on the status. -/
theorem bytes_status {image : Image} {off n : ℕ} {bytes : Bytes} {s s₁ : Status}
    (h : image.bytes off n s = some (bytes, s₁)) (s' : Status) :
    image.bytes off n s' = some (bytes, s') := by
  induction n generalizing off bytes s s₁ with
  | zero =>
    cases h
    rfl
  | succ n ih =>
    obtain ⟨b, s₂, hb, h⟩ := exists_of_bind h
    obtain ⟨bs, s₃, hbs, h⟩ := exists_of_bind h
    cases h
    rw [Image.bytes, bind_of_eq_some (byte_status hb s'), bind_of_eq_some (ih hbs)]
    rfl

/-- Bytes that are read before. -/
theorem Steady.bytes {image : Image} {off n : ℕ} {f : Bytes → Query (Option β)}
    (hf : ∀ bytes, Steady (f bytes)) : Steady (image.bytes off n >>= f) := by
  intro b s s₁ h s'
  obtain ⟨bytes, s₂, hbytes, h⟩ := exists_of_bind h
  rw [bind_of_eq_some (bytes_status hbytes s')]
  exact hf bytes b _ _ h s'

/-- The number that is read does not depend on the status. -/
theorem read_status {image : Image} {off n value : ℕ} {s s₁ : Status}
    (h : image.read off n s = some (value, s₁)) (s' : Status) :
    image.read off n s' = some (value, s') := by
  obtain ⟨bytes, s₂, hbytes, h⟩ := exists_of_bind h
  cases h
  rw [Image.read, bind_of_eq_some (bytes_status hbytes s')]
  rfl

/-- A number that is read before. -/
theorem Steady.read {image : Image} {off n : ℕ} {f : ℕ → Query (Option β)}
    (hf : ∀ value, Steady (f value)) : Steady (image.read off n >>= f) := by
  intro b s s₁ h s'
  obtain ⟨value, s₂, hvalue, h⟩ := exists_of_bind h
  rw [bind_of_eq_some (read_status hvalue s')]
  exact hf value b _ _ h s'

/-- A byte that is read before. -/
theorem Steady.byte {image : Image} {off : ℕ} {f : UInt8 → Query (Option β)}
    (hf : ∀ b, Steady (f b)) : Steady (image.byte off >>= f) := by
  intro b s s₁ h s'
  obtain ⟨value, s₂, hvalue, h⟩ := exists_of_bind h
  rw [bind_of_eq_some (byte_status hvalue s')]
  exact hf value b _ _ h s'

/-- **One query after another.** -/
theorem Steady.bind {m : Query (Option α)} {f : Option α → Query (Option β)} (hm : Steady m)
    (hnone : f none = Pure.pure none) (hsome : ∀ a, Steady (f (some a))) : Steady (m >>= f) := by
  intro b s s₁ h s'
  obtain ⟨r, s₂, hr, h⟩ := exists_of_bind h
  cases r with
  | none =>
    rw [hnone] at h
    cases h
  | some a =>
    rw [bind_of_eq_some (hm a _ _ hr s')]
    exact hsome a b _ _ h s'

end Steady

section Reads

variable (d : Impl)

/-- A string whose place is stored. -/
theorem steady_stringAt (off : ℕ) : Steady (d.stringAt off) := by
  unfold Impl.stringAt
  refine .read (fun offset => .read (fun length => ?_))
  split
  · exact .failWith _
  · exact .bytes (fun _ => .pure _)

/-- A valid string. -/
theorem steady_textAt (off : ℕ) : Steady (d.textAt off) := by
  refine (steady_stringAt d off).bind rfl (fun text => ?_)
  dsimp only
  split
  · exact .failWith _
  · exact .pure _

/-- **`Record`** of any index. -/
theorem steady_record (index : ℕ) : Steady (d.record index) := by
  unfold Impl.record
  split
  · exact .failWith _
  · refine (steady_textAt d _).bind rfl (fun surface => ?_)
    refine (steady_textAt d _).bind rfl (fun reading => ?_)
    refine .read (fun _ => .read (fun _ => .read (fun _ => .read (fun _ => .byte (fun _ => ?_)))))
    split
    · exact .failWith _
    · refine .bytes (fun _ => ?_)
      split
      · exact .failWith _
      · exact .pure _

/-- `SurfaceIndexAt` of any position. -/
theorem steady_surfaceIndexAt (index : Section) (position : ℕ) :
    Steady (d.surfaceIndexAt index position) := by
  unfold Impl.surfaceIndexAt
  refine .read (fun entry => ?_)
  split
  · exact .failWith _
  · exact (steady_stringAt d _).bind rfl (fun _ => .pure _)

variable {d}

/-- A slice has the length that is asked for. -/
theorem length_slice (image : Image) (off n : ℕ) : (image.slice off n).length = n := by
  induction n generalizing off with
  | zero => rfl
  | succ n ih => rw [Image.slice, List.length_cons, ih]

/-- **A string that is read**: its place lies in the strings, and it is what stands
there. -/
theorem stringAt_eq_some {off : ℕ} {text : Bytes} {s s₁ : Status}
    (h : d.stringAt off s = some (some text, s₁)) :
    ∃ offset, (∀ s, d.image.u32 off s = some (offset, s))
      ∧ (∀ s, d.image.u32 (off + 4) s = some (text.length, s))
      ∧ ¬ (text.length = 0 ∨ inRange offset text.length d.strings.size = false)
      ∧ ∀ s, d.image.bytes (d.strings.offset + offset) text.length s = some (text, s) := by
  obtain ⟨offset, s₂, hoffset, h⟩ := exists_of_bind h
  obtain ⟨length, s₃, hlength, h⟩ := exists_of_bind h
  split at h
  · cases h
  · rename_i hrange
    obtain ⟨bytes, s₄, hbytes, h⟩ := exists_of_bind h
    cases h
    have hlen : length = text.length := by
      rw [(bytes_eq_some hbytes).1, length_slice]
    rw [← hlen]
    exact ⟨offset, read_status hoffset, read_status hlength, hrange, bytes_status hbytes⟩

/-- The surface of an entry that is read is the string of its record. -/
theorem surface_of_record {i : ℕ} {e : StaticDictionaryEntry} {s s₁ : Status}
    (h : d.record i s = some (some e, s₁)) (s' : Status) :
    d.surface i s' = some (some e.surface, s') := by
  unfold Impl.record at h
  split at h
  · cases h
  · obtain ⟨surface, s₂, hsurface, h⟩ := exists_of_bind h
    cases surface with
    | none => cases h
    | some surface =>
      have hstring : ∃ s₃, d.stringAt (d.records.offset + i * 32) s = some (some surface, s₃) := by
        obtain ⟨text, s₃, htext, hrest⟩ := exists_of_bind hsurface
        cases text with
        | none => cases hrest
        | some text =>
          dsimp only at hrest
          split at hrest
          · cases hrest
          · cases hrest
            exact ⟨_, htext⟩
      obtain ⟨s₃, hstring⟩ := hstring
      obtain ⟨reading, s₄, -, h⟩ := exists_of_bind h
      cases reading with
      | none => cases h
      | some reading =>
        obtain ⟨posId, s₅, -, h⟩ := exists_of_bind h
        obtain ⟨categoryMask, s₆, -, h⟩ := exists_of_bind h
        obtain ⟨cost, s₇, -, h⟩ := exists_of_bind h
        obtain ⟨frequency, s₈, -, h⟩ := exists_of_bind h
        obtain ⟨source, s₉, -, h⟩ := exists_of_bind h
        split at h
        · cases h
        · obtain ⟨reserved, s₁₀, -, h⟩ := exists_of_bind h
          split at h
          · cases h
          · cases h
            exact steady_stringAt d _ _ _ _ hstring s'

/-- A row of the index names an entry and its surface. -/
theorem surfaceIndexAt_eq_some {index : Section} {position r : ℕ} {value : Bytes} {s s₁ : Status}
    (h : d.surfaceIndexAt index position s = some (some (r, value), s₁)) :
    r < d.entries ∧ ∃ s₂, d.surface r s₂ = some (some value, s₁) := by
  obtain ⟨entry, s₂, -, h⟩ := exists_of_bind h
  split at h
  · cases h
  · rename_i hlt
    obtain ⟨surface, s₃, hsurface, h⟩ := exists_of_bind h
    cases surface with
    | none => cases h
    | some surface =>
      cases h
      exact ⟨not_le.mp hlt, _, hsurface⟩

end Reads

/-! ## What `Verify` leaves of the entries and of the index -/

/-- **Every entry can be read**: `entry` is the table of the entries. -/
structure Impl.Readable (d : Impl) (entry : ℕ → StaticDictionaryEntry) : Prop where
  record : ∀ i, i < d.entries → ∀ s, d.record i s = some (some (entry i), s)
  surface : ∀ i, i < d.entries → ∀ s, d.surface i s = some (some (entry i).surface, s)

/-- **The rows of the index**: each names an entry, and they are sorted by the surface
and the number. -/
structure Impl.Indexed (d : Impl) (entry : ℕ → StaticDictionaryEntry) (index : Section)
    (rows : List ℕ) : Prop where
  lt : ∀ r ∈ rows, r < d.entries
  row : ∀ p, p < rows.length → ∀ s, d.surfaceIndexAt index p s
    = some (some (rows.getD p 0, (entry (rows.getD p 0)).surface), s)
  sorted : rows.Pairwise (KeyIndex.Before (fun r => (entry r).surface))

/-- What the loop of `Verify` over the entries finds. -/
theorem readable_of_verifyRecord {d : Impl} {s s₁ : Status} {u : Unit}
    (h : foldUntil d.verifyRecord (List.range d.entries) () s = some (some u, s₁)) :
    ∃ entry, d.Readable entry := by
  have hread : ∀ i ∈ List.range d.entries, ∃ e, ∃ s₂ s₃, d.record i s₂ = some (some e, s₃) := by
    refine foldUntil_eq_some (P := fun done _ _ => ∀ i ∈ done, ∃ e, ∃ s₂ s₃,
      d.record i s₂ = some (some e, s₃)) ?_ (by simp) h
    intro done a i s₂ a' s₃ _ hdone hround j hj
    rcases List.mem_append.mp hj with hj | hj
    · exact hdone j hj
    · rw [List.mem_singleton.mp hj]
      obtain ⟨e, s₄, he, hrest⟩ := exists_of_bind hround
      cases e with
      | none => cases hrest
      | some e => exact ⟨e, s₂, s₄, he⟩
  have : Nonempty StaticDictionaryEntry := ⟨⟨[], [], 0, 0, 0, .nan, 0, .exact⟩⟩
  choose! entry hentry using hread
  refine ⟨entry, fun i hi s => ?_, fun i hi s => ?_⟩
  · obtain ⟨s₂, s₃, he⟩ := hentry i (List.mem_range.mpr hi)
    exact steady_record d i _ _ _ he s
  · obtain ⟨s₂, s₃, he⟩ := hentry i (List.mem_range.mpr hi)
    exact surface_of_record he s

/-- A round of the loop of `Verify` over the index. -/
theorem verifySurface_eq_some {d : Impl} {entry : ℕ → StaticDictionaryEntry}
    (hread : d.Readable entry) {index : Section} {previous next : ℕ × Bytes} {position : ℕ}
    {s s₁ : Status} (h : d.verifySurface index previous position s = some (some next, s₁)) :
    next.1 < d.entries ∧ next.2 = (entry next.1).surface
      ∧ (∀ s, d.surfaceIndexAt index position s = some (some next, s))
      ∧ (position = 0 ∨ previous.2 < next.2 ∨ previous.2 = next.2 ∧ previous.1 < next.1) := by
  obtain ⟨found, s₂, hfound, h⟩ := exists_of_bind h
  cases found with
  | none => cases h
  | some found =>
    obtain ⟨r, value⟩ := found
    dsimp only at h
    split at h
    · cases h
    · rename_i horder
      cases h
      obtain ⟨hlt, s₃, hsurface⟩ := surfaceIndexAt_eq_some hfound
      refine ⟨hlt, ?_, steady_surfaceIndexAt d index position _ _ _ hfound, ?_⟩
      · rw [hread.surface r hlt s₃] at hsurface
        cases hsurface
        rfl
      · by_cases hzero : position = 0
        · exact Or.inl hzero
        · simp only [ne_eq, hzero, not_false_eq_true, true_and, not_or, not_and, not_lt,
            not_le] at horder
          obtain hlt | heq := lt_or_eq_of_le horder.1
          · exact Or.inr (Or.inl hlt)
          · exact Or.inr (Or.inr ⟨heq, horder.2 heq.symm⟩)

/-- What the loop of `Verify` over the index finds. -/
theorem indexed_of_verifySurface {d : Impl} {entry : ℕ → StaticDictionaryEntry}
    (hread : d.Readable entry) {index : Section} {last : ℕ × Bytes} {s s₁ : Status}
    (h : foldUntil (d.verifySurface index) (List.range d.entries) (0, []) s
      = some (some last, s₁)) :
    ∃ rows : List ℕ, rows.length = d.entries ∧ d.Indexed entry index rows := by
  rw [List.range_eq_range'] at h
  have hloop : ∃ rows : List ℕ, rows.length = 0 + d.entries ∧ d.Indexed entry index rows
      ∧ (rows ≠ [] → last.2 = (entry last.1).surface)
      ∧ ∀ r ∈ rows, r = last.1 ∨ KeyIndex.Before (fun r => (entry r).surface) r last.1 := by
    refine foldUntil_range'_eq_some (P := fun i acc _ => ∃ rows : List ℕ, rows.length = i
      ∧ d.Indexed entry index rows ∧ (rows ≠ [] → acc.2 = (entry acc.1).surface)
      ∧ ∀ r ∈ rows, r = acc.1 ∨ KeyIndex.Before (fun r => (entry r).surface) r acc.1) ?_ ?_ h
    · intro i acc s₂ next s₃ _ _ ⟨rows, hlength, hindexed, hacc, hbefore⟩ hround
      obtain ⟨hlt, hvalue, hrow, horder⟩ := verifySurface_eq_some hread hround
      -- the row before the new one is the last of those that are there
      have hnew : ∀ r ∈ rows, KeyIndex.Before (fun r => (entry r).surface) r next.1 := by
        intro r hr
        have hne : rows ≠ [] := List.ne_nil_of_mem hr
        have hpos : i ≠ 0 := by
          rw [← hlength]
          exact (List.length_pos_of_mem hr).ne'
        have hlast : KeyIndex.Before (fun r => (entry r).surface) acc.1 next.1 := by
          have := horder.resolve_left hpos
          rwa [hacc hne, hvalue] at this
        obtain rfl | hr := hbefore r hr
        · exact hlast
        · exact hr.trans hlast
      refine ⟨rows ++ [next.1], by simp [hlength], ⟨fun r hr => ?_, fun p hp s => ?_, ?_⟩,
        fun _ => hvalue, fun r hr => ?_⟩
      · rcases List.mem_append.mp hr with hr | hr
        · exact hindexed.lt r hr
        · rw [List.mem_singleton.mp hr]
          exact hlt
      · by_cases hold : p < rows.length
        · rw [List.getD_append _ _ _ _ hold]
          exact hindexed.row p hold s
        · rw [List.length_append, List.length_singleton] at hp
          obtain rfl : p = rows.length := by omega
          rw [List.getD_append_right _ _ _ _ le_rfl, Nat.sub_self, List.getD_cons_zero, hlength,
            hrow s, ← hvalue]
      · refine List.pairwise_append.mpr ⟨hindexed.sorted, List.pairwise_singleton _ _, ?_⟩
        intro r hr r' hr'
        rw [List.mem_singleton.mp hr']
        exact hnew r hr
      · rcases List.mem_append.mp hr with hr | hr
        · exact Or.inr (hnew r hr)
        · exact Or.inl (List.mem_singleton.mp hr)
    · exact ⟨[], rfl, ⟨by simp, by simp, List.Pairwise.nil⟩, by simp, by simp⟩
  obtain ⟨rows, hlength, hindexed, -⟩ := hloop
  exact ⟨rows, by rw [hlength, Nat.zero_add], hindexed⟩

/-- **What `Verify` leaves.** -/
theorem readable_of_verifyTables {d : Impl} {s s₁ : Status}
    (h : d.verifyTables s = some (true, s₁)) :
    ∃ entry, d.Readable entry ∧ ∀ index ∈ d.surfaceIndex,
      ∃ rows : List ℕ, rows.length = d.entries ∧ d.Indexed entry index rows := by
  obtain ⟨records, s₂, hrecords, h⟩ := exists_of_bind h
  cases records with
  | none => cases h
  | some u =>
    obtain ⟨entry, hread⟩ := readable_of_verifyRecord hrecords
    refine ⟨entry, hread, fun index hindex => ?_⟩
    rw [Option.mem_def] at hindex
    rw [hindex] at h
    obtain ⟨surfaces, s₃, hsurfaces, h⟩ := exists_of_bind h
    cases surfaces with
    | none => cases h
    | some last => exact indexed_of_verifySurface hread hsurfaces

/-! ## The search -/

/-- The binary search of `FindSurface` over rows that can be read. -/
theorem bound_apply {d : Impl} {index : Section} {row : ℕ → ℕ × Bytes} {n : ℕ}
    (hrow : ∀ p, p < n → ∀ s, d.surfaceIndexAt index p s = some (some (row p), s))
    (surface : Bytes) (upper : Bool) {first count : ℕ} (hn : first + count ≤ n) (s : Status) :
    d.bound index surface upper first count s
      = some (some (BinarySearch.partitionPoint (fun p => liesBehind upper surface (row p).2)
          first (first + count)), s) := by
  induction count using Nat.strong_induction_on generalizing first with
  | _ count ih =>
    rw [Impl.bound, BinarySearch.partitionPoint]
    by_cases hcount : count = 0
    · rw [if_pos hcount, if_neg (by omega)]
      rfl
    · rw [if_neg hcount, if_pos (by omega), bind_of_eq_some (hrow _ (by omega) s)]
      dsimp only
      rw [Nat.add_sub_cancel_left]
      by_cases hbehind : liesBehind upper surface (row (first + count / 2)).2 = true
      · rw [if_pos hbehind, if_pos hbehind, ih _ (by omega) (by omega),
          show first + count / 2 + 1 + (count - (count / 2 + 1)) = first + count by omega]
      · rw [if_neg hbehind, if_neg hbehind, ih _ (by omega) (by omega)]

/-- The entry that an answer holds. -/
def StaticDictionaryEntry.asExact (e : StaticDictionaryEntry) : StaticDictionaryEntry :=
  { e with kind := .exact }

/-- **The entries with a surface**, in the order of their numbers. -/
def entriesOf (n : ℕ) (entry : ℕ → StaticDictionaryEntry) (surface : Bytes) :
    List StaticDictionaryEntry :=
  ((List.range n).filter (fun r => decide ((entry r).surface = surface))).map
    (fun r => (entry r).asExact)

/-- The entries with a surface, with one more number. -/
theorem entriesOf_succ (n : ℕ) (entry : ℕ → StaticDictionaryEntry) (surface : Bytes) :
    entriesOf (n + 1) entry surface = entriesOf n entry surface
      ++ if (entry n).surface = surface then [(entry n).asExact] else [] := by
  unfold entriesOf
  rw [List.range_succ, List.filter_append, List.map_append]
  by_cases heq : (entry n).surface = surface
  · simp [heq]
  · simp [heq]

section Search

variable {d : Impl} {entry : ℕ → StaticDictionaryEntry} (hread : d.Readable entry)
include hread

/-- **The scan** over all of the entries. -/
theorem scan_apply (surface : Bytes) (s : Status) :
    foldUntil (d.scanRound surface) (List.range d.entries) [] s
      = some (some (entriesOf d.entries entry surface), s) := by
  rw [List.range_eq_range']
  have hround : ∀ i, i < d.entries →
      d.scanRound surface (entriesOf i entry surface) i s
        = some (some (entriesOf (i + 1) entry surface), s) := by
    intro i hi
    obtain ⟨offset, hoffset, hlength, hrange, hbytes⟩ := stringAt_eq_some (hread.surface i hi s)
    unfold Impl.scanRound
    rw [entriesOf_succ, bind_of_eq_some (hoffset s), bind_of_eq_some (hlength s), if_neg hrange]
    by_cases heq : (entry i).surface = surface
    · rw [if_neg (fun hne => hne (congrArg List.length heq)), bind_of_eq_some (hbytes s),
        if_neg (fun hne => hne heq), bind_of_eq_some (hread.record i hi s), if_pos heq]
      rfl
    · rw [if_neg heq, List.append_nil]
      by_cases hlen : (entry i).surface.length = surface.length
      · rw [if_neg (fun hne => hne hlen), bind_of_eq_some (hbytes s), if_pos heq]
        rfl
      · rw [if_pos hlen]
        rfl
  have hloop : foldUntil (d.scanRound surface) (List.range' 0 d.entries) (entriesOf 0 entry surface) s
      = some (some (entriesOf (0 + d.entries) entry surface), s) :=
    foldUntil_range'_apply (g := fun i => entriesOf i entry surface)
      (fun i _ hi => hround i (by omega))
  rw [Nat.zero_add] at hloop
  exact hloop

variable {index : Section} {rows : List ℕ} (hlength : rows.length = d.entries)
  (hindexed : d.Indexed entry index rows)
include hlength hindexed

/-- **`FindSurface`** of an index that `Verify` has gone through. -/
theorem findSurface_apply (surface : Bytes) (s : Status) :
    d.findSurface index surface s = some (some (entriesOf d.entries entry surface), s) := by
  have hrow : ∀ p, p < d.entries → ∀ s, d.surfaceIndexAt index p s
      = some (some (rows.getD p 0, (entry (rows.getD p 0)).surface), s) :=
    fun p hp => hindexed.row p (hlength ▸ hp)
  have hlower : d.bound index surface false 0 d.entries s
      = some (some (KeyIndex.lower (fun r => (entry r).surface) rows surface), s) := by
    rw [bound_apply hrow surface false (by omega) s, Nat.zero_add, ← hlength]
    congr 4
    funext p
    exact decide_eq_decide.mpr Iff.rfl
  have hupper : d.bound index surface true 0 d.entries s
      = some (some (KeyIndex.upper (fun r => (entry r).surface) rows surface), s) := by
    rw [bound_apply hrow surface true (by omega) s, Nat.zero_add, ← hlength]
    congr 4
    funext p
    show (!decide _) = decide _
    rw [← decide_not]
    exact decide_eq_decide.mpr not_lt
  have hle := KeyIndex.lower_le_upper hindexed.sorted surface
  have hend := (KeyIndex.upper_spec hindexed.sorted surface).1
  have hslice := (KeyIndex.slice_eq_range_filter hindexed.sorted surface hlength hindexed.lt).trans
    (List.filter_congr (q := fun r => decide ((entry r).surface = surface))
      (fun _ _ => decide_eq_decide.mpr Iff.rfl))
  have hvalue : ∀ p, KeyIndex.lower (fun r => (entry r).surface) rows surface ≤ p →
      p < KeyIndex.upper (fun r => (entry r).surface) rows surface →
      (entry (rows.getD p 0)).surface = surface := by
    intro p hp hp'
    have hplace : p < rows.length := lt_of_lt_of_le hp' hend
    refine le_antisymm (((KeyIndex.upper_spec hindexed.sorted surface).2 p hplace).mpr hp') ?_
    refine not_lt.mp (fun hlt => ?_)
    exact absurd (((KeyIndex.lower_spec hindexed.sorted surface).2 p hplace).mp hlt) (not_lt.mpr hp)
  unfold Impl.findSurface
  rw [bind_of_eq_some hlower]
  dsimp only
  rw [bind_of_eq_some hupper]
  dsimp only
  rw [if_neg (not_lt.mpr hle)]
  generalize KeyIndex.lower (fun r => (entry r).surface) rows surface = lower at *
  generalize KeyIndex.upper (fun r => (entry r).surface) rows surface = upper at *
  have hround : ∀ p, lower ≤ p → p < lower + (upper - lower) →
      d.surfaceRound index surface lower (if p = lower then 0 else rows.getD (p - 1) 0,
          ((rows.drop lower).take (p - lower)).map (fun r => (entry r).asExact)) p s
        = some (some (if p + 1 = lower then 0 else rows.getD (p + 1 - 1) 0,
          ((rows.drop lower).take (p + 1 - lower)).map (fun r => (entry r).asExact)), s) := by
    intro p hp hp'
    have hplace : p < rows.length := by omega
    have hentry : rows.getD p 0 < d.entries := by
      rw [← List.getElem_eq_getD (h := hplace) 0]
      exact hindexed.lt _ (List.getElem_mem hplace)
    have horder : ¬ (lower < p ∧ rows.getD p 0 ≤ if p = lower then 0 else rows.getD (p - 1) 0) := by
      rintro ⟨hlt, hbad⟩
      rw [if_neg hlt.ne'] at hbad
      have hbefore := List.pairwise_iff_getElem.mp hindexed.sorted (p - 1) p (by omega) hplace
        (by omega)
      rw [List.getElem_eq_getD 0, List.getElem_eq_getD 0] at hbefore
      obtain hkey | ⟨-, hnumber⟩ := hbefore
      · dsimp only at hkey
        rw [hvalue p hp (by omega), hvalue (p - 1) (by omega) (by omega)] at hkey
        exact lt_irrefl _ hkey
      · exact absurd hnumber (not_lt.mpr hbad)
    unfold Impl.surfaceRound
    rw [bind_of_eq_some (hindexed.row p hplace s)]
    dsimp only
    rw [if_neg (fun hne => hne (hvalue p hp (by omega))), if_neg horder,
      bind_of_eq_some (hread.record _ hentry s), if_neg (by omega), Nat.add_sub_cancel,
      Nat.succ_sub hp, List.take_add_one, List.getElem?_drop, Nat.add_sub_cancel' hp,
      List.getElem?_eq_getElem hplace, List.getElem_eq_getD 0, List.map_append]
    rfl
  have hloop := foldUntil_range'_apply (s := s) hround
  rw [if_pos rfl, Nat.sub_self, List.take_zero, List.map_nil] at hloop
  rw [bind_of_eq_some hloop, Nat.add_sub_cancel' hle]
  show some (some (((rows.drop lower).take (upper - lower)).map _), s) = _
  rw [hslice]
  rfl

end Search

/-- **The answer of a verified dictionary** to a surface. -/
theorem lookupSurface_apply {d : Impl} {entry : ℕ → StaticDictionaryEntry}
    (hread : d.Readable entry)
    (hindexed : ∀ index ∈ d.surfaceIndex,
      ∃ rows : List ℕ, rows.length = d.entries ∧ d.Indexed entry index rows)
    (surface : Bytes) (s : Status) :
    d.lookupSurface surface s = some (if !s.available || surface.isEmpty || !isValidUtf8 surface
      then [] else entriesOf d.entries entry surface, s) := by
  unfold Impl.lookupSurface
  rw [bind_of_eq_some (isAvailable_apply s)]
  by_cases hguard : (!s.available || surface.isEmpty || !isValidUtf8 surface) = true
  · rw [if_pos hguard, if_pos hguard]
    rfl
  · rw [if_neg hguard, if_neg hguard]
    cases hindex : d.surfaceIndex with
    | none =>
      dsimp only
      rw [bind_of_eq_some (scan_apply hread surface s)]
      rfl
    | some index =>
      obtain ⟨rows, hlength, hrows⟩ := hindexed index hindex
      dsimp only
      rw [bind_of_eq_some (findSurface_apply hread hlength hrows surface s)]
      rfl

/-- **The surface index answers what the scan answers**: of an image that is loaded
and verified, `LookupSurface` through the index and `LookupSurface` without one
give the same entries in the same order, whatever was asked before. -/
theorem lookupSurface_eq_scan {σ : SectionSort} {image : Image} {d : Impl} {s : Status}
    (h : load σ image true = some (some d, s)) (surface : Bytes) (status : Status) :
    ∃ out : List StaticDictionaryEntry,
      d.lookupSurface surface status = some (out, status)
        ∧ ({ d with surfaceIndex := none } : Impl).lookupSurface surface status
          = some (out, status) := by
  obtain ⟨hd, hverify⟩ := verify_of_load h
  obtain ⟨_, _, -, -, -, htables⟩ := verify_eq_true hd hverify
  obtain ⟨entry, hread, hindexed⟩ := readable_of_verifyTables htables
  have hscan : ({ d with surfaceIndex := none } : Impl).Readable entry :=
    ⟨hread.record, hread.surface⟩
  refine ⟨_, lookupSurface_apply hread hindexed surface status, ?_⟩
  exact lookupSurface_apply hscan (fun _ hno => absurd hno (by simp)) surface status

/-- A record whose surface has a number of characters U+0001, and whose reading has one. -/
def packRecord (length : ℕ) : Bytes :=
  packNumber 4 0 ++ packNumber 4 length ++ packNumber 4 0 ++ packNumber 4 1 ++ zeros 16

/-- An image with three entries: the first and the last have one surface, and the one
between them has a surface that begins with it. The index names them in the order
of the surfaces. -/
def indexedImage : Image :=
  imageOf (pack [(utf8 "META", utf8 "\x7b\"pos_table\":[\"\"]\x7d"), (utf8 "STRS", [1, 1]),
    (utf8 "ENTS", packRecord 1 ++ packRecord 2 ++ packRecord 1),
    (utf8 "EIDX", packNumber 4 0 ++ zeros 4), (utf8 "KEYS", packNumber 4 0 ++ packNumber 4 1),
    (utf8 "SIDX", packNumber 4 0 ++ packNumber 4 2 ++ packNumber 4 1),
    (utf8 "TRIE", packNode 0 0 noNode 0 ++ packNode 0 0 0 1)] 0 3 1)

/-- The image with three entries is loaded, and its index is there. -/
theorem load_indexedImage :
    ((load .insertion indexedImage true).any (fun r => r.1.any (fun d => d.surfaceIndex.isSome
      && (d.lookupSurface [1] r.2).any (fun x => x.1.length == 2)))) = true := by
  decide +kernel

/-- The index of the image with three entries answers what the scan answers, which is
two entries. -/
theorem lookupSurface_eq_scan_indexed : ∃ d s, load .insertion indexedImage true = some (some d, s)
    ∧ d.surfaceIndex.isSome = true
    ∧ ∃ out : List StaticDictionaryEntry, out.length = 2
      ∧ d.lookupSurface [1] s = some (out, s)
      ∧ ({ d with surfaceIndex := none } : Impl).lookupSurface [1] s = some (out, s) := by
  obtain ⟨⟨r, s⟩, hload, hr⟩ := (Option.any_eq_true _ _).mp load_indexedImage
  obtain ⟨d, rfl, hd⟩ := (Option.any_eq_true _ _).mp hr
  obtain ⟨hindex, hlength⟩ := Bool.and_eq_true_iff.mp hd
  obtain ⟨out, hout, hscan⟩ := lookupSurface_eq_scan hload [1] s
  rw [hout, Option.any_some, beq_iff_eq] at hlength
  exact ⟨d, s, hload, hindex, out, hlength, hout, hscan⟩

end AzooKey.Core.Dictionary

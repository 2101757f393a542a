import AzooKey.Dictbuild.Pack

/-!
# No query reads outside of the image

Whatever stands in an image that `Structure` accepts, no query faults, every
query ends, and a query that gives the dictionary up answers nothing.

`Structure` leaves what the reads of the queries rest on, `Fits`: the sections
lie inside of the image, and have the sizes that the counts of the header
ask for. From there the argument is one bound for each function. `Attempt`
is what it shows of a function that may fail: it does not fault, and when it
answers it has left the status alone.
-/

namespace AzooKey.Core.Dictionary

open Ipc Faulting Dictbuild

/-! ## Reads inside of the image -/

section Reads

variable {image : Image} {off n : ℕ}

/-- A byte of the image. -/
theorem byte_apply (h : off < image.size) (s : Status) :
    image.byte off s = some (image.data off, s) := if_pos h

/-- Bytes of the image. -/
theorem bytes_apply (h : off + n ≤ image.size) (s : Status) :
    image.bytes off n s = some (image.slice off n, s) := by
  induction n generalizing off with
  | zero => rfl
  | succ n ih =>
    rw [Image.bytes, bind_of_eq_some (byte_apply (by omega) s),
      bind_of_eq_some (ih (by omega))]
    rfl

/-- A number of the image. -/
theorem read_apply (h : off + n ≤ image.size) (s : Status) :
    image.read off n s = some (image.value off n, s) := by
  rw [Image.read, bind_of_eq_some (bytes_apply h s)]
  rfl

/-- A 32-bit number of the image. -/
theorem u32_apply (h : off + 4 ≤ image.size) (s : Status) :
    image.u32 off s = some (image.value off 4, s) := read_apply h s

end Reads

/-! ## What `Structure` leaves -/

/-- A section lies inside of the image. -/
def Section.Inside (section_ : Section) (image : Image) : Prop :=
  section_.offset + section_.size ≤ image.size

/-- **The sections of the reader lie inside of its image and have their
sizes.** -/
structure Impl.Fits (d : Impl) : Prop where
  header : 64 ≤ d.image.size
  trie : d.trie.Inside d.image
  keySection : d.keySection.Inside d.image
  refs : d.refs.Inside d.image
  records : d.records.Inside d.image
  strings : d.strings.Inside d.image
  surfaceIndex : ∀ index ∈ d.surfaceIndex, index.Inside d.image ∧ index.size = d.entries * 4
  trie_size : 16 ≤ d.trie.size
  nodeCount_le : d.nodeCount ≤ uint32Max
  keys_size : d.keySection.size = d.keys * 8
  records_size : d.records.size = d.entries * 32
  root_parent : d.field 0 4 = 0
  root_id : d.field 0 8 = noNode
  root_depth : d.field 0 12 = 0

/-- A section in the range that is checked lies inside of the image. -/
theorem inside_of_inRange {offset size : ℕ} {image : Image}
    (h : inRange offset size image.size = true) : (⟨offset, size⟩ : Section).Inside image := by
  simp only [inRange, Bool.and_eq_true, decide_eq_true_eq] at h
  unfold Section.Inside
  dsimp only
  omega

/-- A row of the section table that is accepted adds a section inside of the
image. -/
theorem readSection_eq_some {image : Image} {count i : ℕ} {sections sections' : List (Bytes × Section)}
    {s s' : Status} (h : readSection image count sections i s = some (some sections', s')) :
    (∀ e ∈ sections, e.2.Inside image) → ∀ e ∈ sections', e.2.Inside image := by
  intro hsections
  unfold readSection at h
  obtain ⟨name, s₁, -, h₁⟩ := exists_of_bind h
  obtain ⟨reserved, s₂, -, h₂⟩ := exists_of_bind h₁
  obtain ⟨offset, s₃, -, h₃⟩ := exists_of_bind h₂
  obtain ⟨length, s₄, -, h₄⟩ := exists_of_bind h₃
  split at h₄
  · cases h₄
  · rename_i hgood
    split at h₄
    · cases h₄
    · cases h₄
      intro e he
      rcases List.mem_append.mp he with he | he
      · exact hsections e he
      · rw [List.mem_singleton.mp he]
        refine inside_of_inRange ?_
        simpa using (not_or.mp (not_or.mp (not_or.mp hgood).2).2).2

/-- The sections that are found are sections of the table. -/
theorem findSections_eq_some {sections : List (Bytes × Section)}
    {r : Section × Section × Section × Section × Section × Section}
    (h : findSections sections = some r) {P : Section → Prop}
    (hP : ∀ e ∈ sections, P e.2) :
    P r.1 ∧ P r.2.1 ∧ P r.2.2.1 ∧ P r.2.2.2.1 ∧ P r.2.2.2.2.1 ∧ P r.2.2.2.2.2 := by
  have hlookup : ∀ {name : Bytes} {s : Section}, sections.lookup name = some s → P s := by
    intro name s hs
    obtain ⟨l₁, l₂, heq, -⟩ := List.lookup_eq_some_iff.mp hs
    exact hP (name, s) (by simp [heq])
  unfold findSections at h
  split at h
  · rename_i h₁ h₂ h₃ h₄ h₅ h₆
    cases h
    exact ⟨hlookup h₁, hlookup h₂, hlookup h₃, hlookup h₄, hlookup h₅, hlookup h₆⟩
  · cases h

/-- What `Structure` checks after the sections. -/
theorem structureRest_eq_some {d d' : Impl} {s s' : Status}
    (h : d.structureRest s = some (some d', s')) :
    d.badSize = false ∧ d.field 0 4 = 0 ∧ d.field 0 8 = noNode ∧ d.field 0 12 = 0
      ∧ (∃ n, d' = { d with posCount := n }) ∧ s' = ⟨true, ""⟩ := by
  unfold Impl.structureRest at h
  split at h
  · cases h
  · rename_i hsize
    obtain ⟨text, s₁, -, h₁⟩ := exists_of_bind h
    split at h₁
    · cases h₁
    · cases htable : posTable text with
      | none =>
        rw [htable] at h₁
        cases h₁
      | some table =>
        rw [htable] at h₁
        dsimp only at h₁
        split at h₁
        · cases h₁
        · obtain ⟨parent, s₂, hparent, h₂⟩ := exists_of_bind h₁
          obtain ⟨rfl, rfl⟩ := node_eq_some hparent
          obtain ⟨id, s₃, hid, h₃⟩ := exists_of_bind h₂
          obtain ⟨rfl, rfl⟩ := node_eq_some hid
          obtain ⟨depth, s₄, hdepth, h₄⟩ := exists_of_bind h₃
          obtain ⟨rfl, rfl⟩ := node_eq_some hdepth
          split at h₄
          · cases h₄
          · rename_i hroot
            simp only [not_or, not_not] at hroot
            cases h₄
            exact ⟨Bool.eq_false_iff.mpr hsize, hroot.1, hroot.2.1, hroot.2.2, ⟨_, rfl⟩, rfl⟩

/-- A reader whose sections lie inside of its image fits once the rest of
`Structure` accepts it. -/
theorem fits_of_structureRest {d d' : Impl} {s s' : Status}
    (h : d.structureRest s = some (some d', s')) (hheader : 64 ≤ d.image.size)
    (htrie : d.trie.Inside d.image) (hkeys : d.keySection.Inside d.image)
    (hrefs : d.refs.Inside d.image) (hrecords : d.records.Inside d.image)
    (hstrings : d.strings.Inside d.image)
    (hindex : ∀ index ∈ d.surfaceIndex, index.Inside d.image) :
    d'.Fits ∧ d'.image = d.image ∧ s' = ⟨true, ""⟩ := by
  obtain ⟨hbad, hparent, hid, hdepth, ⟨n, rfl⟩, rfl⟩ := structureRest_eq_some h
  simp only [Impl.badSize, Bool.or_eq_false_iff, decide_eq_false_iff_not, not_lt, not_not] at hbad
  obtain ⟨⟨⟨⟨⟨⟨⟨ht, -⟩, hn⟩, hk⟩, -⟩, hr⟩, -⟩, hsize⟩ := hbad
  refine ⟨⟨hheader, htrie, hkeys, hrefs, hrecords, hstrings, fun index hmem => ?_, ht, hn, hk, hr,
    hparent, hid, hdepth⟩, rfl, rfl⟩
  change index ∈ d.surfaceIndex at hmem
  refine ⟨hindex index hmem, ?_⟩
  rw [Option.mem_def.mp hmem] at hsize
  simpa using hsize

/-- **An image that `Structure` accepts fits.** -/
theorem fits_of_structureOf {σ : SectionSort} {image : Image} {d : Impl} {s s' : Status}
    (h : structureOf σ image s = some (some d, s')) :
    d.Fits ∧ d.image = image ∧ s' = ⟨true, ""⟩ := by
  unfold structureOf at h
  split at h
  · cases h
  · rename_i hsize
    obtain ⟨magic, s₁, -, h₁⟩ := exists_of_bind h
    obtain ⟨version, s₂, -, h₂⟩ := exists_of_bind h₁
    obtain ⟨header, s₃, -, h₃⟩ := exists_of_bind h₂
    obtain ⟨flags, s₄, -, h₄⟩ := exists_of_bind h₃
    obtain ⟨reserved, s₅, -, h₅⟩ := exists_of_bind h₄
    obtain ⟨layer, s₆, -, h₆⟩ := exists_of_bind h₅
    obtain ⟨entries, s₇, -, h₇⟩ := exists_of_bind h₆
    obtain ⟨keys, s₈, -, h₈⟩ := exists_of_bind h₇
    obtain ⟨count, s₉, -, h₉⟩ := exists_of_bind h₈
    split at h₉
    · cases h₉
    · split at h₉
      · cases h₉
      · split at h₉
        · cases h₉
        · split at h₉
          · cases h₉
          · obtain ⟨found, s₁₀, hfound, h₁₀⟩ := exists_of_bind h₉
            cases found with
            | none => cases h₁₀
            | some sections =>
              dsimp only at h₁₀
              split at h₁₀
              · cases h₁₀
              · cases hsections : findSections sections with
                | none =>
                  rw [hsections] at h₁₀
                  cases h₁₀
                | some r =>
                  obtain ⟨trie, keySection, refs, records, strings, metadata⟩ := r
                  rw [hsections] at h₁₀
                  have hinside : ∀ e ∈ sections, e.2.Inside image :=
                    foldUntil_eq_some (P := fun _ acc _ => ∀ e ∈ acc, e.2.Inside image)
                      (fun _ _ _ _ _ _ _ hacc hround => readSection_eq_some hround hacc)
                      (by simp) hfound
                  obtain ⟨ht, hk, hr, he, hs, -⟩ :=
                    findSections_eq_some (P := fun s => s.Inside image) hsections hinside
                  refine fits_of_structureRest h₁₀ (not_lt.mp hsize) ht hk hr he hs
                    (fun index hmem => ?_)
                  obtain ⟨l₁, l₂, heq, -⟩ := List.lookup_eq_some_iff.mp hmem
                  exact hinside (utf8 "SIDX", index) (by simp [heq])

/-! ## Functions that may fail -/

/-- **The function does not fault, and when it answers it has left the status
alone.** -/
def Attempt {α : Type} (m : Query (Option α)) (P : α → Prop) : Prop :=
  ∀ s, Yields m s (fun r s' => ∀ a ∈ r, s' = s ∧ P a)

section Attempt

variable {α β : Type} {P : α → Prop} {Q : β → Prop}

/-- An answer. -/
theorem Attempt.pure {a : α} (h : P a) : Attempt (Pure.pure (some a)) P := by
  intro s
  refine .pure (fun b hb => ?_)
  obtain rfl := Option.some.inj hb
  exact ⟨rfl, h⟩

/-- A failure. -/
theorem Attempt.failWith (reason : String) : Attempt (failWith reason : Query (Option α)) P :=
  fun _ => ⟨Option.none, _, rfl, fun _ hb => by cases hb⟩

/-- A read before. -/
theorem Attempt.read {image : Image} {off n : ℕ} {f : ℕ → Query (Option β)}
    (h : off + n ≤ image.size) (hf : Attempt (f (image.value off n)) Q) :
    Attempt (image.read off n >>= f) Q :=
  fun s => .after (read_apply h s) (hf s)

/-- Bytes that are read before. -/
theorem Attempt.bytes {image : Image} {off n : ℕ} {f : Bytes → Query (Option β)}
    (h : off + n ≤ image.size) (hf : Attempt (f (image.slice off n)) Q) :
    Attempt (image.bytes off n >>= f) Q :=
  fun s => .after (bytes_apply h s) (hf s)

/-- A byte that is read before. -/
theorem Attempt.byte {image : Image} {off : ℕ} {f : UInt8 → Query (Option β)}
    (h : off < image.size) (hf : Attempt (f (image.data off)) Q) :
    Attempt (image.byte off >>= f) Q :=
  fun s => .after (byte_apply h s) (hf s)

/-- **One attempt after another.** Where the first does not answer, neither does
the whole. -/
theorem Attempt.bind {m : Query (Option α)} {f : Option α → Query (Option β)} (hm : Attempt m P)
    (hnone : ∀ s, Yields (f Option.none) s (fun r _ => r = Option.none))
    (hsome : ∀ a, P a → Attempt (f (some a)) Q) : Attempt (m >>= f) Q := by
  intro s
  refine (hm s).bind (fun r s' hr => ?_)
  cases r with
  | none =>
    refine (hnone s').imp (fun r' s'' hr' b hb => ?_)
    rw [hr'] at hb
    cases hb
  | some a =>
    obtain ⟨rfl, ha⟩ := hr a rfl
    exact hsome a ha s'

/-- An attempt whose answer is mapped. -/
theorem Attempt.map {m : Query (Option α)} {g : α → β} (hm : Attempt m P)
    (h : ∀ a, P a → Q (g a)) : Attempt (m >>= fun r => Pure.pure (r.map g)) Q :=
  hm.bind (fun _ => .pure rfl) (fun a ha => .pure (h a ha))

/-- An attempt that answered. -/
theorem Attempt.of_eq_some {m : Query (Option α)} (hm : Attempt m P) {s s' : Status} {a : α}
    (h : m s = some (some a, s')) : s' = s ∧ P a := by
  obtain ⟨r, s₁, hr, hP⟩ := hm s
  rw [h] at hr
  cases hr
  exact hP a rfl

/-- A loop with an early exit. -/
theorem Attempt.foldUntil {f : α → β → Query (Option α)} {xs : List β}
    (hstep : ∀ a, ∀ x ∈ xs, P a → Attempt (f a x) P) {a : α} (h : P a) :
    Attempt (foldUntil f xs a) P := by
  induction xs generalizing a with
  | nil => exact .pure h
  | cons x xs ih =>
    refine (hstep a x List.mem_cons_self h).bind (fun _ => .pure rfl) (fun a' ha' => ?_)
    exact ih (fun b y hy => hstep b y (List.mem_cons_of_mem _ hy)) ha'

end Attempt

section Entries

variable {d : Impl} (hd : d.Fits)
include hd

/-- A string whose place is stored inside of the image. -/
theorem attempt_stringAt {off : ℕ} (hoff : off + 8 ≤ d.image.size) :
    Attempt (d.stringAt off) (fun _ => True) := by
  unfold Impl.stringAt
  refine .read (by omega) (.read (by omega) ?_)
  split
  · exact .failWith _
  · rename_i hrange
    have hin : inRange (d.image.value off 4) (d.image.value (off + 4) 4) d.strings.size = true := by
      simpa using (not_or.mp hrange).2
    simp only [inRange, Bool.and_eq_true, decide_eq_true_eq] at hin
    have hstrings := hd.strings
    unfold Section.Inside at hstrings
    exact .bytes (by omega) (.pure trivial)

/-- The place of a record. -/
theorem record_inside {index : ℕ} (h : index < d.entries) :
    d.records.offset + index * 32 + 32 ≤ d.image.size := by
  have hrecords := hd.records
  have hsize := hd.records_size
  unfold Section.Inside at hrecords
  omega

/-- `Surface` of an entry. -/
theorem attempt_surface {index : ℕ} (h : index < d.entries) :
    Attempt (d.surface index) (fun _ => True) := by
  have := record_inside hd h
  exact attempt_stringAt hd (by omega)

/-- A valid string. -/
theorem attempt_textAt {off : ℕ} (hoff : off + 8 ≤ d.image.size) :
    Attempt (d.textAt off) (fun _ => True) := by
  refine (attempt_stringAt hd hoff).bind (fun _ => .pure rfl) (fun text _ => ?_)
  dsimp only
  split
  · exact .failWith _
  · exact .pure trivial

/-- **`Record`** of any index. -/
theorem attempt_record (index : ℕ) : Attempt (d.record index) (fun _ => True) := by
  unfold Impl.record
  split
  · exact .failWith _
  · rename_i hindex
    have hin := record_inside hd (not_le.mp hindex)
    refine (attempt_textAt hd (by omega)).bind (fun _ => .pure rfl) (fun surface _ => ?_)
    refine (attempt_textAt hd (by omega)).bind (fun _ => .pure rfl) (fun reading _ => ?_)
    refine .read (by omega) (.read (by omega) (.read (by omega) (.read (by omega)
      (.byte (by omega) ?_))))
    split
    · exact .failWith _
    · refine .bytes (by omega) ?_
      split
      · exact .failWith _
      · exact .pure trivial

/-- `SurfaceIndexAt` a position of the index. -/
theorem attempt_surfaceIndexAt {index : Section} (hindex : index ∈ d.surfaceIndex) {position : ℕ}
    (h : position < d.entries) : Attempt (d.surfaceIndexAt index position) (fun _ => True) := by
  obtain ⟨hinside, hsize⟩ := hd.surfaceIndex index hindex
  unfold Section.Inside at hinside
  unfold Impl.surfaceIndexAt
  refine .read (by omega) ?_
  split
  · exact .failWith _
  · rename_i hentry
    exact (attempt_surface hd (not_le.mp hentry)).map (fun _ _ => trivial)

/-- **The binary search** stays in the index. -/
theorem attempt_bound {index : Section} (hindex : index ∈ d.surfaceIndex) (surface : Bytes)
    (upper : Bool) {first count : ℕ} (h : first + count ≤ d.entries) :
    Attempt (d.bound index surface upper first count) (fun r => r ≤ d.entries) := by
  induction count using Nat.strong_induction_on generalizing first with
  | _ count ih =>
    rw [Impl.bound]
    split
    · exact .pure (by omega)
    · refine (attempt_surfaceIndexAt hd hindex (by omega)).bind (fun _ => .pure rfl)
        (fun found _ => ?_)
      dsimp only
      split
      · refine ih (count - (count / 2 + 1)) ?_ ?_
        · omega
        · omega
      · refine ih (count / 2) ?_ ?_
        · omega
        · omega

/-- A round of `FindSurface`. -/
theorem attempt_surfaceRound {index : Section} (hindex : index ∈ d.surfaceIndex) (surface : Bytes)
    (lower : ℕ) (acc : ℕ × List StaticDictionaryEntry) {position : ℕ} (h : position < d.entries) :
    Attempt (d.surfaceRound index surface lower acc position) (fun _ => True) := by
  refine (attempt_surfaceIndexAt hd hindex h).bind (fun _ => .pure rfl) (fun found _ => ?_)
  dsimp only
  split
  · exact .failWith _
  · split
    · exact .failWith _
    · exact (attempt_record hd _).map (fun _ _ => trivial)

/-- **`FindSurface`.** -/
theorem attempt_findSurface {index : Section} (hindex : index ∈ d.surfaceIndex) (surface : Bytes) :
    Attempt (d.findSurface index surface) (fun _ => True) := by
  refine (attempt_bound hd hindex surface false (by omega)).bind (fun _ => .pure rfl)
    (fun lower _ => ?_)
  refine (attempt_bound hd hindex surface true (by omega)).bind (fun _ => .pure rfl)
    (fun upper hupper => ?_)
  dsimp only
  split
  · exact .failWith _
  · refine Attempt.map (P := fun _ => True) (.foldUntil (fun acc position hposition _ => ?_) trivial)
      (fun _ _ => trivial)
    refine attempt_surfaceRound hd hindex surface lower acc ?_
    have := (List.mem_range'_1.mp hposition).2
    omega

/-- A round of the scan of `LookupSurface`. -/
theorem attempt_scanRound (surface : Bytes) (out : List StaticDictionaryEntry) {i : ℕ}
    (h : i < d.entries) : Attempt (d.scanRound surface out i) (fun _ => True) := by
  have hin := record_inside hd h
  unfold Impl.scanRound
  refine .read (by omega) (.read (by omega) ?_)
  split
  · exact .failWith _
  · rename_i hrange
    split
    · exact .pure trivial
    · have hin' := (not_or.mp hrange).2
      rw [Bool.not_eq_false] at hin'
      simp only [inRange, Bool.and_eq_true, decide_eq_true_eq] at hin'
      have hstrings := hd.strings
      unfold Section.Inside at hstrings
      refine .bytes (by omega) ?_
      split
      · exact .pure trivial
      · exact (attempt_record hd i).map (fun _ _ => trivial)

/-- The place of a reference. -/
theorem ref_inside {i : ℕ} (h : i < d.refCount) : d.refs.offset + i * 8 + 8 ≤ d.image.size := by
  have hrefs := hd.refs
  unfold Section.Inside at hrefs
  unfold Impl.refCount at h
  omega

/-- A round of `ReadEntries`. -/
theorem attempt_entryRound {refOff : ℕ} (out : List StaticDictionaryEntry) {i : ℕ}
    (h : refOff + i < d.refCount) : Attempt (d.entryRound refOff out i) (fun _ => True) := by
  have hin := ref_inside hd h
  unfold Impl.entryRound
  refine .byte (by omega) (.bytes (by omega) ?_)
  split
  · exact .failWith _
  · refine .read (by omega) ((attempt_record hd _).bind (fun _ => ⟨none, _, rfl, rfl⟩)
      (fun entry _ => ?_))
    exact .pure trivial

end Entries

/-! ## Steps and keys -/

/-- **The query answers `a`, and gives the dictionary up unless `ok`.** -/
def Answers {α : Type} (m : Query α) (a : α) (ok : Prop) : Prop :=
  ∀ s, ∃ s', m s = some (a, s') ∧ (ok → s' = s) ∧ (¬ ok → s'.available = false)

section Answers

variable {α β : Type}

/-- An answer. -/
theorem Answers.pure (a : α) : Answers (Pure.pure a : Query α) a True :=
  fun s => ⟨s, rfl, fun _ => rfl, fun h => absurd trivial h⟩

/-- A failure, and an answer. -/
theorem Answers.fail (reason : String) (a : α) :
    Answers (fail reason >>= fun _ => Pure.pure a) a False :=
  fun _ => ⟨⟨false, reason⟩, rfl, fun h => h.elim, fun _ => rfl⟩

/-- Another spelling of the condition. -/
theorem Answers.congr {m : Query α} {a : α} {p q : Prop} (h : Answers m a p) (hpq : p ↔ q) :
    Answers m a q := by
  intro s
  obtain ⟨s', hm, hok, hbad⟩ := h s
  exact ⟨s', hm, fun hq => hok (hpq.mpr hq), fun hq => hbad (fun hp => hq (hpq.mp hp))⟩

/-- **One query after another.** -/
theorem Answers.bind {m : Query α} {f : α → Query β} {a : α} {b : β} {p q : Prop}
    (hm : Answers m a p) (hf : Answers (f a) b q) : Answers (m >>= f) b (p ∧ q) := by
  intro s
  obtain ⟨s₁, hm, hok₁, hbad₁⟩ := hm s
  obtain ⟨s₂, hf, hok₂, hbad₂⟩ := hf s₁
  refine ⟨s₂, (bind_of_eq_some hm).trans hf, fun h => ?_, fun h => ?_⟩
  · rw [hok₂ h.2, hok₁ h.1]
  · by_cases hq : q
    · rw [hok₂ hq]
      exact hbad₁ (fun hp => h ⟨hp, hq⟩)
    · exact hbad₂ hq

/-- A query that leaves the status alone before another. -/
theorem Answers.after {m : Query α} {f : α → Query β} {a : α} {b : β} {q : Prop}
    (hm : ∀ s, m s = some (a, s)) (hf : Answers (f a) b q) : Answers (m >>= f) b q := by
  intro s
  obtain ⟨s', hf, h⟩ := hf s
  exact ⟨s', (bind_of_eq_some (hm s)).trans hf, h⟩

/-- **A loop.** -/
theorem Answers.foldlM {f : α → β → Query α} {g : α → β → α} {ok : β → Prop} {xs : List β}
    (h : ∀ a, ∀ x ∈ xs, Answers (f a x) (g a x) (ok x)) (a : α) :
    Answers (xs.foldlM f a) (xs.foldl g a) (∀ x ∈ xs, ok x) := by
  induction xs generalizing a with
  | nil => exact (Answers.pure a).congr (by simp)
  | cons x xs ih =>
    rw [List.foldlM_cons, List.foldl_cons]
    refine ((h a x List.mem_cons_self).bind
      (ih (fun b y hy => h b y (List.mem_cons_of_mem _ hy)) _)).congr ?_
    rw [List.forall_mem_cons]

/-- A query that answers runs. -/
theorem Answers.yields {m : Query α} {a : α} {ok : Prop} (h : Answers m a ok) (s : Status) :
    Yields m s (fun b _ => b = a) := by
  obtain ⟨s', hm, -⟩ := h s
  exact ⟨a, s', hm, rfl⟩

end Answers

/-- The node that a byte leads to, when its depth is right. -/
def Impl.childOf (d : Impl) (state : ℕ) (byte : UInt8) : Option ℕ :=
  let next := d.field state 0 + byte.toNat
  if next < d.nodeCount ∧ d.field next 4 = state ∧ d.field state 12 ≠ uint32Max
      ∧ d.field next 12 = d.field state 12 + 1 then some next else none

/-- A node that names the state as its parent has the depth that it should
have. -/
def Impl.GoodDepth (d : Impl) (state : ℕ) (byte : UInt8) : Prop :=
  let next := d.field state 0 + byte.toNat
  next < d.nodeCount → d.field next 4 = state →
    d.field state 12 ≠ uint32Max ∧ d.field next 12 = d.field state 12 + 1

/-- The key of a node, when its number and its range are right. -/
def Impl.keyOf (d : Impl) (node : ℕ) : Option PrefixMatch :=
  let id := d.field node 8
  let offset := d.image.value (d.keySection.offset + id * 8) 4
  let count := d.image.value (d.keySection.offset + id * 8 + 4) 4
  if id ≠ noNode ∧ id < d.keys ∧ count ≠ 0 ∧ inRange offset count d.refCount = true then
    some ⟨d.field node 12, id, offset, count⟩
  else none

/-- A node with a number has a key. -/
def Impl.GoodKey (d : Impl) (node : ℕ) : Prop :=
  d.field node 8 ≠ noNode → (d.keyOf node).isSome = true

/-- What a child is. -/
theorem childOf_eq_some {d : Impl} {state child : ℕ} {byte : UInt8} :
    d.childOf state byte = some child ↔ child = d.field state 0 + byte.toNat
      ∧ child < d.nodeCount ∧ d.field child 4 = state ∧ d.field state 12 ≠ uint32Max
      ∧ d.field child 12 = d.field state 12 + 1 := by
  unfold Impl.childOf
  dsimp only
  constructor
  · intro h
    split at h
    · rename_i hchild
      cases h
      exact ⟨rfl, hchild⟩
    · cases h
  · rintro ⟨rfl, h⟩
    rw [if_pos h]

section Nodes

variable {d : Impl} (hd : d.Fits)
include hd

/-- A field of a node. -/
theorem node_apply {node field : ℕ} (hnode : node < d.nodeCount) (hfield : field + 4 ≤ 16)
    (s : Status) : d.node node field s = some (d.field node field, s) := by
  have htrie := hd.trie
  unfold Section.Inside at htrie
  unfold Impl.nodeCount at hnode
  exact u32_apply (by omega) s

/-- A field that is read before. -/
theorem Attempt.node {β : Type} {Q : β → Prop} {node field : ℕ} {f : ℕ → Query (Option β)}
    (hnode : node < d.nodeCount) (hfield : field + 4 ≤ 16)
    (hf : Attempt (f (d.field node field)) Q) : Attempt (d.node node field >>= f) Q :=
  fun s => .after (node_apply hd hnode hfield s) (hf s)

/-- The root is a node. -/
theorem root_lt : 0 < d.nodeCount := by
  have := hd.trie_size
  unfold Impl.nodeCount
  omega

/-- **`Step`** leads to the child, and gives the dictionary up when the child
has a wrong depth. -/
theorem answers_step {state : ℕ} (hstate : state < d.nodeCount) (byte : UInt8) :
    Answers (d.step state byte) (d.childOf state byte) (d.GoodDepth state byte) := by
  unfold Impl.step Impl.childOf Impl.GoodDepth
  refine .after (node_apply hd hstate (by norm_num)) ?_
  dsimp only
  split
  · rename_i hlt
    rw [if_neg (fun h => absurd h.1 (not_lt.mpr hlt))]
    exact (Answers.pure none).congr (iff_of_true trivial (fun h => absurd h (not_lt.mpr hlt)))
  · rename_i hlt
    have hnext := not_le.mp hlt
    refine .after (node_apply hd hnext (by norm_num)) ?_
    split
    · rename_i hcheck
      rw [if_neg (fun h => hcheck h.2.1)]
      exact (Answers.pure none).congr (iff_of_true trivial (fun _ h => absurd h hcheck))
    · rename_i hcheck
      have hparent := not_not.mp hcheck
      refine .after (node_apply hd hstate (by norm_num))
        (.after (node_apply hd hnext (by norm_num)) ?_)
      split
      · rename_i hbad
        rw [if_neg (fun h => hbad.elim h.2.2.1 (fun hne => hne h.2.2.2))]
        refine (Answers.fail _ none).congr (iff_of_false id (fun h => ?_))
        exact hbad.elim (h hnext hparent).1 (fun hne => hne (h hnext hparent).2)
      · rename_i hgood
        rw [not_or, not_not] at hgood
        rw [if_pos ⟨hnext, hparent, hgood⟩]
        exact (Answers.pure _).congr (iff_of_true trivial (fun _ _ => hgood))

/-- A step that answers has left the status alone. -/
theorem yields_step {state : ℕ} (hstate : state < d.nodeCount) (byte : UInt8) (s : Status) :
    Yields (d.step state byte) s (fun r s' => ∀ child ∈ r, s' = s) := by
  obtain ⟨s', hstep, -⟩ := answers_step hd hstate byte s
  refine ⟨_, s', hstep, fun child hchild => ?_⟩
  rw [Option.mem_def.mp hchild] at hstep
  exact (step_eq_some hstep).2.2.2.2.2

/-- **`Match`** finds the key, and gives the dictionary up when the key of the
node is not right. -/
theorem answers_matchNode {node : ℕ} (hnode : node < d.nodeCount) :
    Answers (d.matchNode node) (d.keyOf node) (d.GoodKey node) := by
  have hkeys := hd.keySection
  have hsize := hd.keys_size
  unfold Section.Inside at hkeys
  unfold Impl.matchNode Impl.GoodKey Impl.keyOf
  refine .after (node_apply hd hnode (by norm_num)) ?_
  dsimp only
  split
  · rename_i hid
    rw [if_neg (fun h => h.1 hid)]
    exact (Answers.pure none).congr (iff_of_true trivial (fun h => absurd hid h))
  · rename_i hid
    split
    · rename_i hle
      rw [if_neg (fun h => absurd h.2.1 (not_lt.mpr hle))]
      exact (Answers.fail _ none).congr (iff_of_false id (fun h => by simpa using h hid))
    · rename_i hle
      refine .after (fun s => u32_apply (by omega) s) (.after (fun s => u32_apply (by omega) s) ?_)
      split
      · rename_i hbad
        rw [if_neg (fun h => hbad.elim h.2.2.1 (fun hr => by rw [hr] at h; simpa using h.2.2.2))]
        exact (Answers.fail _ none).congr (iff_of_false id (fun h => by simpa using h hid))
      · rename_i hgood
        rw [not_or, Bool.not_eq_false] at hgood
        refine .after (node_apply hd hnode (by norm_num)) ?_
        rw [if_pos ⟨hid, not_le.mp hle, hgood.1, hgood.2⟩]
        exact (Answers.pure _).congr (iff_of_true trivial (fun _ => rfl))

/-- A walk along the bytes of a key. -/
theorem yields_walk {state : ℕ} (hstate : state < d.nodeCount) (key : Bytes) (s : Status) :
    Yields (foldUntil d.step key state) s (fun r _ => ∀ node ∈ r, node < d.nodeCount) := by
  have hstep : ∀ node, ∀ byte ∈ key, ∀ s, node < d.nodeCount →
      Yields (d.step node byte) s (fun r _ => r.elim True (fun child => child < d.nodeCount)) := by
    intro node byte _ s hnode
    refine ((answers_step hd hnode byte).yields s).imp (fun r s' hr => ?_)
    rw [hr]
    cases hchild : d.childOf node byte with
    | none => trivial
    | some child => exact (childOf_eq_some.mp hchild).2.1
  refine (Yields.foldUntil (P := fun node _ => node < d.nodeCount) (E := fun _ => True) hstep
    hstate).imp (fun r s' hr node hnode => ?_)
  rw [Option.mem_def.mp hnode] at hr
  exact hr

/-- The loop of `CommonPrefixSearch` runs. -/
theorem yields_prefixLoop (maximum : ℕ) {state : ℕ} (hstate : state < d.nodeCount) (key : Bytes)
    (out : List PrefixMatch) (s : Status) :
    Yields (d.prefixLoop maximum state key out) s (fun _ _ => True) := by
  induction key generalizing state out s with
  | nil => exact .pure trivial
  | cons byte key ih =>
    rw [Impl.prefixLoop]
    refine ((answers_step hd hstate byte).yields s).bind (fun next s₁ hnext => ?_)
    rw [hnext]
    cases hchild : d.childOf state byte with
    | none => exact .pure trivial
    | some child =>
      have hlt := (childOf_eq_some.mp hchild).2.1
      refine ((answers_matchNode hd hlt).yields s₁).bind (fun found s₂ hfound => ?_)
      rw [hfound]
      cases d.keyOf child with
      | none => exact ih hlt out s₂
      | some m =>
        dsimp only
        split
        · exact ⟨out, _, rfl, trivial⟩
        · split
          · exact .pure trivial
          · exact ih hlt _ s₂

/-! ### The walk of `PredictiveSearch` -/

/-- A round over the keys of a level answers what it should. -/
theorem yields_matchRounds {level : List Visit} (hlevel : ∀ v ∈ level, v.node < d.nodeCount)
    (s : Status) : Yields (level.foldlM d.matchRound []) s (fun _ _ => True) := by
  refine Yields.foldlM (P := fun _ _ => True) (fun found v hv s _ => ?_) trivial
  refine ((answers_matchNode hd (hlevel v hv)).yields s).bind (fun next s₁ hnext => ?_)
  rw [hnext]
  cases d.keyOf v.node with
  | none => exact .pure trivial
  | some m =>
    dsimp only
    split
    · exact ⟨_, _, rfl, trivial⟩
    · split
      · exact ⟨_, _, rfl, trivial⟩
      · exact .pure trivial

end Nodes

/-- The visit of a child, whether or not its byte is one that UTF-8 allows. -/
def childVisit (v : Visit) (byte : UInt8) (child : ℕ) : Visit :=
  ((v.moveTo child).advance byte).getD (v.moveTo child)

/-- The visits and the bytes that the children of a level are looked for with. -/
def edges (level : List Visit) : List (Visit × UInt8) :=
  level.flatMap (fun v => childBytes.map (fun b => (v, b)))

/-- The visit that an edge leads to. -/
def Impl.visitOf (d : Impl) (p : Visit × UInt8) : Option Visit :=
  (d.childOf p.1.node p.2).map (childVisit p.1 p.2)

/-- **The children of a level.** -/
def Impl.nextLevel (d : Impl) (level : List Visit) : List Visit := (edges level).filterMap d.visitOf

/-- An edge that does not give the dictionary up. -/
def Impl.GoodEdge (d : Impl) (p : Visit × UInt8) : Prop :=
  d.GoodDepth p.1.node p.2
    ∧ ∀ child ∈ d.childOf p.1.node p.2, ((p.1.moveTo child).advance p.2).isSome = true

/-- A child stays at its node. -/
theorem childVisit_node (v : Visit) (byte : UInt8) (child : ℕ) :
    (childVisit v byte child).node = child := by
  unfold childVisit
  cases h : (v.moveTo child).advance byte with
  | none => rfl
  | some w => exact advance_node h

/-- An edge leads to a child. -/
theorem visitOf_eq_some {d : Impl} {p : Visit × UInt8} {v : Visit} (h : d.visitOf p = some v) :
    d.childOf p.1.node p.2 = some v.node := by
  obtain ⟨child, hchild, rfl⟩ := Option.map_eq_some_iff.mp h
  rw [childVisit_node]
  exact hchild

/-- Appending what there is, one after another. -/
theorem foldl_append_toList {α β : Type} (f : α → Option β) (xs : List α) (acc : List β) :
    xs.foldl (fun acc x => acc ++ (f x).toList) acc = acc ++ xs.filterMap f := by
  induction xs generalizing acc with
  | nil => simp
  | cons x xs ih =>
    rw [List.foldl_cons, ih, List.filterMap_cons]
    cases f x <;> simp

/-- What a round does once the child is known. -/
theorem answers_childRound {d : Impl} (hd : d.Fits) (next : List Visit) {v : Visit}
    (hv : v.node < d.nodeCount) (byte : UInt8) :
    Answers (d.childRound next (v, byte)) (next ++ (d.visitOf (v, byte)).toList)
      (d.GoodEdge (v, byte)) := by
  unfold Impl.childRound Impl.visitOf Impl.GoodEdge
  refine (answers_step hd hv byte).bind ?_
  cases hchild : d.childOf v.node byte with
  | none =>
    have hok : True ↔ ∀ child ∈ (none : Option ℕ), ((v.moveTo child).advance byte).isSome = true :=
      iff_of_true trivial (fun _ h => by cases h)
    rw [Option.map_none, Option.toList_none, List.append_nil]
    exact (Answers.pure next).congr hok
  | some child =>
    have hiff : (∀ c ∈ some child, ((v.moveTo c).advance byte).isSome = true)
        ↔ ((v.moveTo child).advance byte).isSome = true :=
      ⟨fun h => h child rfl, fun h c hc => by rw [← Option.some.inj hc]; exact h⟩
    rw [Option.map_some, Option.toList_some, childVisit]
    dsimp only
    cases hadvance : (v.moveTo child).advance byte with
    | some w =>
      refine (Answers.pure (next ++ [w])).congr (iff_of_true trivial (hiff.mpr ?_))
      rw [hadvance]
      rfl
    | none =>
      refine (Answers.fail _ (next ++ [v.moveTo child])).congr (iff_of_false id (fun h => ?_))
      have hsome := hiff.mp h
      rw [hadvance] at hsome
      cases hsome

/-- **The children of a level are found**, and the dictionary is given up when
one of its edges is not good. -/
theorem answers_children {d : Impl} (hd : d.Fits) {level : List Visit}
    (hlevel : ∀ v ∈ level, v.node < d.nodeCount) :
    Answers (d.children level) (d.nextLevel level) (∀ p ∈ edges level, d.GoodEdge p) := by
  have hround : ∀ (next : List Visit), ∀ p ∈ edges level,
      Answers (d.childRound next p) (next ++ (d.visitOf p).toList) (d.GoodEdge p) := by
    intro next p hp
    obtain ⟨v, hv, hp⟩ := List.mem_flatMap.mp hp
    obtain ⟨byte, -, rfl⟩ := List.mem_map.mp hp
    exact answers_childRound hd next (hlevel v hv) byte
  have hfold := Answers.foldlM hround []
  rw [foldl_append_toList, List.nil_append] at hfold
  exact hfold

/-- The numbers of the bytes of the children. -/
theorem toNat_ofNat_childBytes {n : ℕ} (h : n ∈ List.range' 1 255) : (UInt8.ofNat n).toNat = n := by
  have hlt := (List.mem_range'_1.mp h).2
  exact UInt8.toNat_ofNat_of_lt' (by omega)

/-- The bytes of the children are distinct. -/
theorem childBytes_nodup : childBytes.Nodup := by
  refine List.Nodup.map_on (fun m hm n hn heq => ?_) List.nodup_range'
  rw [← toNat_ofNat_childBytes hm, heq, toNat_ofNat_childBytes hn]

/-- **Different edges lead to different nodes**: a node names its parent, and
the byte is what it lies behind the base of that. -/
theorem nodup_nextLevel {d : Impl} {level : List Visit} (h : (level.map Visit.node).Nodup) :
    ((d.nextLevel level).map Visit.node).Nodup := by
  have hedges : (edges level).Pairwise (fun p q => p.1.node ≠ q.1.node ∨ p.2 ≠ q.2) := by
    refine List.pairwise_flatMap.mpr ⟨fun v _ => ?_, ?_⟩
    · refine List.pairwise_map.mpr (childBytes_nodup.imp (fun hne => Or.inr hne))
    · refine (List.pairwise_map.mp h).imp (fun {u v} hne p hp q hq => ?_)
      obtain ⟨b, -, rfl⟩ := List.mem_map.mp hp
      obtain ⟨c, -, rfl⟩ := List.mem_map.mp hq
      exact Or.inl hne
  refine List.pairwise_map.mpr (List.pairwise_filterMap.mpr (hedges.imp ?_))
  intro p q hne u hu v hv heq
  obtain ⟨hu₁, -, hu₃, -⟩ := childOf_eq_some.mp (visitOf_eq_some hu)
  obtain ⟨hv₁, -, hv₃, -⟩ := childOf_eq_some.mp (visitOf_eq_some hv)
  have hparent : p.1.node = q.1.node := by rw [← hu₃, ← hv₃, heq]
  refine hne.elim (fun h => h hparent) (fun h => h ?_)
  rw [hparent] at hu₁
  exact UInt8.toNat_inj.mp (by omega)

/-- The nodes of the next level are nodes of the trie, one level deeper. -/
theorem mem_nextLevel {d : Impl} {level : List Visit} {v : Visit} (h : v ∈ d.nextLevel level) :
    ∃ u ∈ level, ∃ byte ∈ childBytes, d.childOf u.node byte = some v.node
      ∧ v = childVisit u byte v.node := by
  obtain ⟨p, hp, hv⟩ := List.mem_filterMap.mp h
  obtain ⟨u, hu, hp⟩ := List.mem_flatMap.mp hp
  obtain ⟨byte, hbyte, rfl⟩ := List.mem_map.mp hp
  obtain ⟨child, hchild, hvisit⟩ := Option.map_eq_some_iff.mp hv
  have hnode : v.node = child := by
    rw [← hvisit]
    exact childVisit_node u byte child
  refine ⟨u, hu, byte, hbyte, ?_, ?_⟩
  · rw [hnode]
    exact hchild
  · rw [hnode]
    exact hvisit.symm

/-- **What the walk keeps**: the nodes of a level are distinct and at one depth,
and everything that was visited before lies above. -/
structure LevelInv (d : Impl) (level : List Visit) (visited : List ℕ) (depth : ℕ) : Prop where
  inside : ∀ v ∈ level, v.node < d.nodeCount
  nodup : (level.map Visit.node).Nodup
  same_depth : ∀ v ∈ level, d.field v.node 12 = depth
  visited_nodup : visited.Nodup
  visited_lt : ∀ node ∈ visited, d.field node 12 < depth

/-- The nodes of a level have not been visited. -/
theorem LevelInv.nodup_append {d : Impl} {level : List Visit} {visited : List ℕ} {depth : ℕ}
    (h : LevelInv d level visited depth) : (visited ++ level.map Visit.node).Nodup := by
  refine List.nodup_append.mpr ⟨h.visited_nodup, h.nodup, ?_⟩
  rintro a ha b hb rfl
  obtain ⟨v, hv, rfl⟩ := List.mem_map.mp hb
  have hlt := h.visited_lt _ ha
  rw [h.same_depth v hv] at hlt
  exact lt_irrefl _ hlt

/-- The next level keeps it. -/
theorem LevelInv.next {d : Impl} {level : List Visit} {visited : List ℕ} {depth : ℕ}
    (h : LevelInv d level visited depth) :
    LevelInv d (d.nextLevel level) (visited ++ level.map Visit.node) (depth + 1) where
  inside v hv := by
    obtain ⟨u, -, byte, -, hchild, -⟩ := mem_nextLevel hv
    exact (childOf_eq_some.mp hchild).2.1
  nodup := nodup_nextLevel h.nodup
  same_depth v hv := by
    obtain ⟨u, hu, byte, -, hchild, -⟩ := mem_nextLevel hv
    rw [(childOf_eq_some.mp hchild).2.2.2.2, h.same_depth u hu]
  visited_nodup := h.nodup_append
  visited_lt node hnode := by
    rcases List.mem_append.mp hnode with hnode | hnode
    · exact (h.visited_lt node hnode).trans (Nat.lt_succ_self depth)
    · obtain ⟨v, hv, rfl⟩ := List.mem_map.mp hnode
      rw [h.same_depth v hv]
      exact Nat.lt_succ_self depth

/-- **The walk of `PredictiveSearch`** visits no node twice, and answers nothing
when it gives the dictionary up. -/
theorem yields_predictiveLoop {d : Impl} (hd : d.Fits) (maximum : ℕ) {level : List Visit}
    {visited : List ℕ} {depth : ℕ} (h : LevelInv d level visited depth) (out : List PrefixMatch)
    (s : Status) :
    Yields (d.predictiveLoop maximum level out visited) s
      (fun r s' => r.2.Nodup ∧ (s'.available = false → r.1 = [])) := by
  induction hleft : d.levelsLeft level using Nat.strong_induction_on
    generalizing level visited depth out s with
  | _ left ih =>
    unfold Yields
    rw [Impl.predictiveLoop]
    split
    · refine ⟨_, s, rfl, h.visited_nodup, fun hs => ?_⟩
      rw [hs]
      rfl
    · rename_i hdone
      obtain ⟨found, s₁, hfound, -⟩ := yields_matchRounds hd h.inside s
      rw [hfound]
      dsimp only
      split
      · exact ⟨_, s₁, rfl, h.nodup_append, fun _ => rfl⟩
      · rename_i havailable
        split
        · exact ⟨_, s₁, rfl, h.nodup_append, fun hs => absurd hs havailable⟩
        · obtain ⟨s₂, hnext, -⟩ := answers_children hd h.inside s₁
          split
          · rename_i hnone
            rw [hnext] at hnone
            cases hnone
          · rename_i next s₃ hsome
            rw [hnext] at hsome
            obtain ⟨rfl, rfl⟩ := Prod.mk.inj (Option.some.inj hsome)
            have hlt := levelsLeft_lt (fun hnil => hdone (Or.inl hnil)) hnext
            exact ih _ (hleft ▸ hlt) h.next _ _ rfl

/-! ## Calls -/

/-- A loop with an early exit, whose answer is lost with the dictionary. -/
theorem yields_getD {α : Type} {m : Query (Option (List α))} (hm : Attempt m (fun _ => True))
    {s : Status} (hs : s.available = true) :
    Yields (m >>= fun out => pure (out.getD [])) s (fun r s' => s'.available = false → r = []) := by
  refine (hm s).bind (fun out s' hout => .pure (fun hgone => ?_))
  cases out with
  | none => rfl
  | some out =>
    obtain ⟨rfl, -⟩ := hout out rfl
    rw [hs] at hgone
    cases hgone

section Calls

variable {d : Impl} (hd : d.Fits)
include hd

/-- The entries of a range of references. -/
theorem attempt_entryRounds {refOff count : ℕ} (h : inRange refOff count d.refCount = true) :
    Attempt (foldUntil (d.entryRound refOff) (List.range count) []) (fun _ => True) := by
  simp only [inRange, Bool.and_eq_true, decide_eq_true_eq] at h
  refine .foldUntil (fun out i hi _ => attempt_entryRound hd out ?_) trivial
  have := List.mem_range.mp hi
  omega

/-- **`ReadEntries`** of any match: its answer is true only when it has left the
status alone, and it has no entries when it gave the dictionary up. -/
theorem yields_readEntries (m : PrefixMatch) (s : Status) :
    Yields (d.readEntries m) s
      (fun r s' => (r.1 = true → s' = s) ∧ (s'.available = false → r.2 = [])) := by
  have hkeys := hd.keySection
  have hsize := hd.keys_size
  unfold Section.Inside at hkeys
  unfold Impl.readEntries
  refine .after (a := s.available) rfl ?_
  split
  · exact .pure ⟨fun h => absurd h Bool.false_ne_true, fun _ => rfl⟩
  · rename_i havailable
    split
    · exact ⟨_, _, rfl, fun h => absurd h Bool.false_ne_true, fun _ => rfl⟩
    · rename_i hrange
      rw [not_or, Bool.not_eq_false] at hrange
      refine .after (u32_apply (by omega) s) (.after (u32_apply (by omega) s) ?_)
      split
      · exact ⟨_, _, rfl, fun h => absurd h Bool.false_ne_true, fun _ => rfl⟩
      · refine (attempt_entryRounds hd hrange.2 s).bind (fun out s' hout => .pure ?_)
        cases out with
        | none => exact ⟨fun h => absurd h Bool.false_ne_true, fun _ => rfl⟩
        | some out =>
          obtain ⟨rfl, -⟩ := hout out rfl
          refine ⟨fun _ => rfl, fun hgone => ?_⟩
          rw [hgone] at havailable
          exact absurd rfl havailable

/-- **`LookupSurface`** of any surface. -/
theorem yields_lookupSurface (surface : Bytes) (s : Status) :
    Yields (d.lookupSurface surface) s (fun r s' => s'.available = false → r = []) := by
  unfold Impl.lookupSurface
  refine .after (a := s.available) rfl ?_
  split
  · exact .pure (fun _ => rfl)
  · rename_i hguard
    have havailable : s.available = true := by
      cases h : s.available with
      | true => rfl
      | false =>
        rw [h] at hguard
        exact absurd rfl hguard
    cases hindex : d.surfaceIndex with
    | some index => exact yields_getD (attempt_findSurface hd hindex surface) havailable
    | none =>
      refine yields_getD (.foldUntil (fun out i hi _ => ?_) trivial) havailable
      exact attempt_scanRound hd surface out (List.mem_range.mp hi)

/-- **`ExactMatch`** of any key. -/
theorem yields_exactMatch (key : Bytes) (s : Status) :
    Yields (d.exactMatch key) s (fun _ _ => True) := by
  unfold Impl.exactMatch
  refine .after (a := s.available) rfl ?_
  split
  · exact .pure trivial
  · refine (yields_walk hd (root_lt hd) key s).bind (fun state s₁ hstate => ?_)
    cases state with
    | none => exact .pure trivial
    | some state =>
      exact ((answers_matchNode hd (hstate state rfl)).yields s₁).imp (fun _ _ _ => trivial)

/-- **`CommonPrefixSearch`** of any key. -/
theorem yields_commonPrefixSearch (key : Bytes) (maximum : ℕ) (s : Status) :
    Yields (d.commonPrefixSearch key maximum) s (fun r s' => s'.available = false → r = []) := by
  unfold Impl.commonPrefixSearch
  refine .after (a := s.available) rfl ?_
  split
  · exact .pure (fun _ => rfl)
  · refine (yields_prefixLoop hd maximum (root_lt hd) key [] s).bind (fun out s₁ _ => ?_)
    refine .after (a := s₁.available) rfl (.pure (fun hgone => ?_))
    rw [hgone]
    rfl

/-- **`PredictiveSearch`** of any key. -/
theorem yields_predictiveVisits (key : Bytes) (maximum : ℕ) (s : Status) :
    Yields (d.predictiveVisits key maximum) s
      (fun r s' => r.2.Nodup ∧ (s'.available = false → r.1 = [])) := by
  unfold Impl.predictiveVisits
  refine .after (a := s.available) rfl ?_
  split
  · exact .pure ⟨List.nodup_nil, fun _ => rfl⟩
  · refine (yields_walk hd (root_lt hd) key s).bind (fun state s₁ hstate => ?_)
    cases state with
    | none => exact .pure ⟨List.nodup_nil, fun _ => rfl⟩
    | some state =>
      have hinv : LevelInv d [{ node := state }] [] (d.field state 12) :=
        ⟨fun v hv => by rw [List.mem_singleton.mp hv]; exact hstate state rfl,
          List.nodup_singleton _, fun v hv => by rw [List.mem_singleton.mp hv], List.nodup_nil,
          fun _ h => absurd h List.not_mem_nil⟩
      exact yields_predictiveLoop hd maximum hinv [] s₁

/-- **The walk to the root** stays in the trie. -/
theorem attempt_ancestry {depth current : ℕ} (hcurrent : current < d.nodeCount) (key : Bytes) :
    Attempt (d.ancestry depth current key) (fun _ => True) := by
  induction depth using Nat.strong_induction_on generalizing current key with
  | _ depth ih =>
    rw [Impl.ancestry]
    split
    · exact .pure trivial
    · refine .node hd hcurrent (by norm_num) ?_
      split
      · exact .failWith _
      · rename_i hup
        refine .node hd (not_le.mp hup) (by norm_num) ?_
        split
        · rename_i hlt
          exact .node hd (not_le.mp hup) (by norm_num) (ih _ hlt (not_le.mp hup) _)
        · exact .failWith _

/-- The checks of `Verify` on a node with a key. -/
theorem attempt_verifyKey (texts : List (Option Bytes)) {i : ℕ} (hi : i < d.nodeCount) (depth : ℕ)
    (found : PrefixMatch) : Attempt (d.verifyKey texts i depth found) (fun _ => True) := by
  unfold Impl.verifyKey
  split
  · exact .failWith _
  · refine (attempt_ancestry hd hi []).bind (fun _ => .pure rfl) (fun key _ => ?_)
    dsimp only
    split
    · exact .failWith _
    · intro s
      refine (yields_readEntries hd found s).bind (fun entries s₁ hentries => ?_)
      split
      · exact .pure (fun _ h => by cases h)
      · rename_i htrue
        have hs : s₁ = s := hentries.1 (by simpa using htrue)
        rw [hs]
        split
        · exact Attempt.failWith _ s
        · exact Attempt.pure trivial s

/-- **A round of `Verify` over the nodes.** -/
theorem attempt_verifyNode (texts : List (Option Bytes)) {i : ℕ} (hi : i < d.nodeCount) :
    Attempt (d.verifyNode texts i) (fun _ => True) := by
  unfold Impl.verifyNode
  refine .node hd hi (by norm_num) ?_
  split
  · exact .pure trivial
  · split
    · exact .failWith _
    · rename_i hparent
      have hparent := not_le.mp hparent
      refine .node hd hparent (by norm_num) (.node hd hparent (by norm_num) (.node hd hi (by norm_num)
        (.node hd hparent (by norm_num) ?_)))
      split
      · exact .failWith _
      · intro s
        refine (yields_step hd hparent _ s).bind (fun child s₁ hchild => ?_)
        split
        · exact ⟨none, _, rfl, fun _ h => by cases h⟩
        · rename_i hi'
          rw [hchild i (not_not.mp hi')]
          obtain ⟨s₂, hmatch, hsame, hgone⟩ := answers_matchNode hd hi s
          refine .after hmatch ?_
          cases hkey : d.keyOf i with
          | none =>
            refine .after (a := some texts) rfl (.after (a := s₂.available) rfl (.pure ?_))
            by_cases hgood : d.GoodKey i
            · rw [hsame hgood]
              exact fun _ _ => ⟨rfl, trivial⟩
            · rw [hgone hgood]
              exact fun _ h => by cases h
          | some found =>
            have hgood : d.GoodKey i := fun _ => by rw [hkey]; rfl
            rw [hsame hgood]
            refine (attempt_verifyKey hd texts hi _ found s).bind (fun next s₃ hnext => ?_)
            refine .after (a := s₃.available) rfl (.pure (fun a ha => ?_))
            split at ha
            · exact hnext a ha
            · cases ha

/-- The loops of `Verify` after the keys. -/
theorem yields_verifyTables (s : Status) :
    Yields d.verifyTables s (fun r s' => r = true → s' = s) := by
  have hrecord : ∀ u, ∀ i ∈ List.range d.entries, True →
      Attempt (d.verifyRecord u i) (fun _ => True) :=
    fun _ i _ _ => (attempt_record hd i).map (fun _ _ => trivial)
  have hsurface : ∀ index ∈ d.surfaceIndex, ∀ previous, ∀ i ∈ List.range d.entries, True →
      Attempt (d.verifySurface index previous i) (fun _ => True) := by
    intro index hindex previous i hi _
    refine (attempt_surfaceIndexAt hd hindex (List.mem_range.mp hi)).bind (fun _ => .pure rfl)
      (fun found _ => ?_)
    dsimp only
    split
    · exact .failWith _
    · exact .pure trivial
  have href : ∀ u, ∀ i ∈ List.range d.refCount, True →
      Attempt (d.verifyRef u i) (fun _ => True) := by
    intro u i hi _
    have hin := ref_inside hd (List.mem_range.mp hi)
    refine .read (by omega) (.byte (by omega) (.bytes (by omega) ?_))
    split
    · exact .failWith _
    · exact .pure trivial
  have htail : Yields (foldUntil d.verifyRef (List.range d.refCount) () >>=
      fun refs => pure refs.isSome) s (fun r s' => r = true → s' = s) := by
    refine (Attempt.foldUntil href trivial s).bind (fun refs s₁ hrefs => .pure (fun h => ?_))
    obtain ⟨u, hu⟩ := Option.isSome_iff_exists.mp h
    exact (hrefs u hu).1
  unfold Impl.verifyTables
  refine (Attempt.foldUntil hrecord trivial s).bind (fun records s₁ hrecords => ?_)
  cases records with
  | none => exact .pure (fun h => absurd h Bool.false_ne_true)
  | some u =>
    rw [(hrecords u rfl).1]
    cases hindex : d.surfaceIndex with
    | none => exact .after (a := some (0, [])) rfl htail
    | some index =>
      refine (Attempt.foldUntil (hsurface index hindex) trivial s).bind (fun surfaces s₂ hs₂ => ?_)
      cases surfaces with
      | none => exact .pure (fun h => absurd h Bool.false_ne_true)
      | some last =>
        rw [(hs₂ last rfl).1]
        exact htail

/-- **`Verify`** of any image: it answers true only when it has left the status
alone. -/
theorem yields_verify (s : Status) : Yields d.verify s (fun r s' => r = true → s' = s) := by
  have hheader := hd.header
  have hround : ∀ texts, ∀ i ∈ List.range' 1 (d.nodeCount - 1), True →
      Attempt (d.verifyNode texts i) (fun _ => True) := by
    intro texts i hi _
    have := List.mem_range'_1.mp hi
    exact attempt_verifyNode hd texts (by omega)
  unfold Impl.verify
  refine .after (a := s.available) rfl ?_
  split
  · exact .pure (fun h => absurd h Bool.false_ne_true)
  · refine .after (bytes_apply (by omega) s) (.after (read_apply (by omega) s) ?_)
    split
    · exact ⟨false, _, rfl, fun h => absurd h Bool.false_ne_true⟩
    · refine (Attempt.foldUntil hround trivial s).bind (fun texts s₁ htexts => ?_)
      cases texts with
      | none => exact .pure (fun h => absurd h Bool.false_ne_true)
      | some texts =>
        rw [(htexts texts rfl).1]
        dsimp only
        split
        · exact ⟨false, _, rfl, fun h => absurd h Bool.false_ne_true⟩
        · split
          · exact ⟨false, _, rfl, fun h => absurd h Bool.false_ne_true⟩
          · exact yields_verifyTables hd s

end Calls

/-- A call of the reader. -/
inductive Call
  | exactMatch (key : Bytes)
  | commonPrefixSearch (key : Bytes) (maximum : ℕ)
  | predictiveSearch (key : Bytes) (maximum : ℕ)
  | readEntries (m : PrefixMatch)
  | lookupSurface (surface : Bytes)
  | verify

/-- What a call answers; of `PredictiveSearch` also the nodes that it visited. -/
inductive Answer
  | exactMatch (found : Option PrefixMatch)
  | commonPrefixSearch (out : List PrefixMatch)
  | predictiveSearch (out : List PrefixMatch) (visited : List ℕ)
  | readEntries (ok : Bool) (out : List StaticDictionaryEntry)
  | lookupSurface (out : List StaticDictionaryEntry)
  | verify (ok : Bool)

/-- The call runs. -/
def Impl.call (d : Impl) : Call → Query Answer
  | .exactMatch key => d.exactMatch key >>= fun found => pure (.exactMatch found)
  | .commonPrefixSearch key maximum =>
    d.commonPrefixSearch key maximum >>= fun out => pure (.commonPrefixSearch out)
  | .predictiveSearch key maximum =>
    d.predictiveVisits key maximum >>= fun r => pure (.predictiveSearch r.1 r.2)
  | .readEntries m => d.readEntries m >>= fun r => pure (.readEntries r.1 r.2)
  | .lookupSurface surface => d.lookupSurface surface >>= fun out => pure (.lookupSurface out)
  | .verify => d.verify >>= fun ok => pure (.verify ok)

/-- A sequence of calls, with what each of them answers and the status that it
leaves. -/
def Impl.calls (d : Impl) : List Call → Query (List (Answer × Status))
  | [] => pure []
  | c :: cs => do
    let answer ← d.call c
    let status ← get
    let answers ← d.calls cs
    pure ((answer, status) :: answers)

/-- The output vector of a call, where it has one, is empty. -/
def Answer.Empty : Answer → Prop
  | .exactMatch _ => True
  | .commonPrefixSearch out => out = []
  | .predictiveSearch out _ => out = []
  | .readEntries _ out => out = []
  | .lookupSurface out => out = []
  | .verify _ => True

/-- The nodes that a call visits level by level. -/
def Answer.visited : Answer → List ℕ
  | .predictiveSearch _ visited => visited
  | _ => []

/-- **A safe answer**: no node was visited twice, and nothing is put out when
the dictionary is no longer available. -/
structure Answer.Safe (answer : Answer) (status : Status) : Prop where
  visited_nodup : answer.visited.Nodup
  empty : status.available = false → answer.Empty

/-- **Every call is safe.** -/
theorem yields_call {d : Impl} (hd : d.Fits) (c : Call) (s : Status) :
    Yields (d.call c) s (fun answer s' => answer.Safe s') := by
  cases c with
  | exactMatch key =>
    exact (yields_exactMatch hd key s).bind
      (fun _ _ _ => .pure ⟨List.nodup_nil, fun _ => trivial⟩)
  | commonPrefixSearch key maximum =>
    exact (yields_commonPrefixSearch hd key maximum s).bind
      (fun _ _ h => .pure ⟨List.nodup_nil, h⟩)
  | predictiveSearch key maximum =>
    exact (yields_predictiveVisits hd key maximum s).bind (fun _ _ h => .pure ⟨h.1, h.2⟩)
  | readEntries m =>
    exact (yields_readEntries hd m s).bind (fun _ _ h => .pure ⟨List.nodup_nil, h.2⟩)
  | lookupSurface surface =>
    exact (yields_lookupSurface hd surface s).bind (fun _ _ h => .pure ⟨List.nodup_nil, h⟩)
  | verify =>
    exact (yields_verify hd s).bind (fun _ _ _ => .pure ⟨List.nodup_nil, fun _ => trivial⟩)

/-- **Every sequence of calls is safe**: on an image that `Structure` accepts,
whichever way it sorts the sections, it runs to its end without a read outside
of the image, and every answer on the way is safe. -/
theorem calls_safe {σ : SectionSort} {image : Image} {d : Impl} {s s' : Status}
    (h : structureOf σ image s = some (some d, s')) (cs : List Call) :
    Yields (d.calls cs) s' (fun answers _ =>
      answers.length = cs.length ∧ ∀ r ∈ answers, r.1.Safe r.2) := by
  have hd := (fits_of_structureOf h).1
  clear h
  induction cs generalizing s' with
  | nil => exact .pure ⟨rfl, fun _ h => absurd h List.not_mem_nil⟩
  | cons c cs ih =>
    refine (yields_call hd c s').bind (fun answer s₁ hanswer => ?_)
    refine .after (a := s₁) rfl (ih.bind (fun answers s₂ hanswers => .pure ?_))
    refine ⟨congrArg Nat.succ hanswers.1, fun r hr => ?_⟩
    rcases List.mem_cons.mp hr with rfl | hr
    · exact hanswer
    · exact hanswers.2 r hr

/-- The sections of a dictionary with one entry, whose surface and reading are
the character U+0001. -/
def oneEntrySections (nodes : Bytes) : List (Bytes × Bytes) :=
  [(utf8 "META", utf8 "\x7b\"pos_table\":[\"\"]\x7d"), (utf8 "STRS", [1]),
    (utf8 "ENTS", packNumber 4 0 ++ packNumber 4 1 ++ packNumber 4 0 ++ packNumber 4 1 ++ zeros 16),
    (utf8 "EIDX", packNumber 4 0 ++ zeros 4), (utf8 "KEYS", packNumber 4 0 ++ packNumber 4 1),
    (utf8 "TRIE", nodes)]

/-- An image whose key names an entry range that is not there: `Structure` does
not look at it, and `ExactMatch` gives the dictionary up. -/
def corruptImage : Image :=
  imageOf (pack (oneEntrySections (packNode 0 0 noNode 0 ++ packNode 0 0 7 1)) 0 1 1)

/-- The calls are safe on an image that is corrupt beyond what `Structure`
checks. -/
theorem calls_safe_corrupt :
    ∃ d s', structureOf .insertion corruptImage ⟨false, "not loaded"⟩ = some (some d, s')
      ∧ Yields (d.calls [.predictiveSearch [1] 0, .exactMatch [1], .verify]) s' (fun answers _ =>
        answers.length = 3 ∧ ∀ r ∈ answers, r.1.Safe r.2) := by
  have hsome : ((structureOf .insertion corruptImage ⟨false, "not loaded"⟩).bind (·.1)).isSome = true := by
    decide +kernel
  obtain ⟨d, hd⟩ := Option.isSome_iff_exists.mp hsome
  obtain ⟨⟨r, s'⟩, hr, hd⟩ := Option.bind_eq_some_iff.mp hd
  obtain rfl : r = some d := hd
  exact ⟨d, s', hr, calls_safe hr _⟩

end AzooKey.Core.Dictionary

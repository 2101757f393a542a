import AzooKey.Core.InputStateBackspace
import AzooKey.Core.RomajiStreaming

/-!
# Chunks of a long conversion

`core/include/azookey/core/BatchConversionChunker.h`: a long text is converted in
chunks. `SplitBatchRomaji` cuts typed romaji and keeps one converter across the
cuts, so that the readings of the chunks are what the whole text prints
(`Batch.Sound`); it looks for a place where nothing is pending, and waits for it a
bounded number of bytes (`Batch.Bounded`). `SplitBatchConversion` cuts a text
between code points, after the end of a sentence or where the next code point
would be too much.
-/

namespace AzooKey.Core

/-! ## Typed romaji -/

/-- `kPendingRomajiSlackBytes`. -/
def pendingRomajiSlackBytes : ℕ := 4

/-- `BatchRomajiChunk`. -/
structure BatchRomajiChunk where
  rawRomaji : Bytes := []
  reading : Bytes := []
deriving DecidableEq, Repr

/-- The variables of the loop of `SplitBatchRomaji`. -/
structure Batch where
  chunks : List BatchRomajiChunk := []
  current : BatchRomajiChunk := {}
  converter : RomajiKanaConverter

/-- `scalar_boundary`: the byte that follows opens a code point, or none
follows. -/
def scalarBoundary (next : Option UInt8) : Bool := next.all (fun c => c &&& 0xC0 ≠ 0x80)

/-- One turn of the loop: the byte is fed, and the chunk may be closed. The sum
is one of `size_t`. -/
def Batch.step (maxBytes : ℕ) (b : Batch) (byte : UInt8) (next : Option UInt8) : Batch :=
  let fed := b.converter.feed byte
  let current : BatchRomajiChunk :=
    { rawRomaji := b.current.rawRomaji ++ [byte], reading := b.current.reading ++ fed.2 }
  if scalarBoundary next && maxBytes ≤ current.rawRomaji.length && !current.reading.isEmpty
      && (!fed.1.hasPending
        || (maxBytes + pendingRomajiSlackBytes) % 2 ^ 64 ≤ current.rawRomaji.length) then
    { chunks := b.chunks ++ [current], current := {}, converter := fed.1 }
  else { b with current := current, converter := fed.1 }

/-- The loop. -/
def Batch.run (maxBytes : ℕ) (b : Batch) : Bytes → Batch
  | [] => b
  | byte :: rest => (b.step maxBytes byte rest.head?).run maxBytes rest

/-- What follows the loop: the flush goes to the last chunk. -/
def Batch.finish (b : Batch) : List BatchRomajiChunk :=
  let current := { b.current with reading := b.current.reading ++ b.converter.flush.2 }
  match b.chunks.getLast? with
  | some last =>
    if current.rawRomaji.isEmpty then
      b.chunks.dropLast ++ [{ last with reading := last.reading ++ current.reading }]
    else b.chunks ++ [current]
  | none =>
    if current.rawRomaji.isEmpty && current.reading.isEmpty then [] else [current]

/-- **`SplitBatchRomaji`.** -/
def splitBatchRomaji (raw : Bytes) (maxBytes : ℕ) (table : Option CustomRomajiTable) :
    List BatchRomajiChunk :=
  (({ converter := { customTable := table } } : Batch).run maxBytes raw).finish

namespace Batch

variable {start : RomajiKanaConverter} {maxBytes : ℕ} {b : Batch} {seen : Bytes}

/-- **The invariant of the loop**, against the whole text that was fed. -/
structure Sound (start : RomajiKanaConverter) (seen : Bytes) (b : Batch) : Prop where
  /-- The chunks hold what was fed. -/
  raw : b.chunks.flatMap BatchRomajiChunk.rawRomaji ++ b.current.rawRomaji = seen
  /-- The chunks hold what was printed. -/
  reading : b.chunks.flatMap BatchRomajiChunk.reading ++ b.current.reading = (start.feedAll seen).2
  /-- The converter has been fed the text. -/
  converter : b.converter = (start.feedAll seen).1
  /-- No chunk is empty. -/
  nonempty : ∀ chunk ∈ b.chunks, chunk.rawRomaji ≠ []

/-- A turn keeps the invariant. -/
theorem Sound.step (h : Sound start seen b) (byte : UInt8) (next : Option UInt8) :
    Sound start (seen ++ [byte]) (b.step maxBytes byte next) := by
  have hfeed : start.feedAll (seen ++ [byte])
      = ((b.converter.feed byte).1, (start.feedAll seen).2 ++ (b.converter.feed byte).2) := by
    rw [RomajiKanaConverter.feedAll_append, ← h.converter]
    simp only [RomajiKanaConverter.feedAll, List.append_nil]
  unfold Batch.step
  dsimp only
  split_ifs
  · refine ⟨?_, ?_, ?_, fun chunk hchunk => ?_⟩
    · rw [← h.raw]
      simp
    · rw [hfeed, ← h.reading]
      simp
    · rw [hfeed]
    · obtain hold | hnew := List.mem_append.mp hchunk
      · exact h.nonempty chunk hold
      · rw [List.mem_singleton.mp hnew]
        simp
  · refine ⟨?_, ?_, ?_, h.nonempty⟩
    · rw [← h.raw]
      simp
    · rw [hfeed, ← h.reading]
      simp
    · rw [hfeed]

/-- So does the loop. -/
theorem Sound.run (h : Sound start seen b) (rest : Bytes) :
    Sound start (seen ++ rest) (b.run maxBytes rest) := by
  induction rest generalizing b seen with
  | nil =>
    rw [List.append_nil]
    exact h
  | cons byte rest ih =>
    have hnext : Sound start (seen ++ [byte] ++ rest) (b.run maxBytes (byte :: rest)) :=
      ih (h.step byte rest.head?)
    rw [List.append_assoc] at hnext
    exact hnext

/-- **What the chunks hold at the end.** -/
theorem Sound.finish (h : Sound start seen b) (hstart : start.pending = []) :
    b.finish.flatMap BatchRomajiChunk.rawRomaji = seen
      ∧ b.finish.flatMap BatchRomajiChunk.reading
        = (start.feedAll seen).2 ++ (start.feedAll seen).1.flush.2
      ∧ ∀ chunk ∈ b.finish, chunk.rawRomaji ≠ [] := by
  have hraw := h.raw
  have hreading := h.reading
  rw [← h.converter, ← hreading]
  unfold Batch.finish
  dsimp only
  split
  · rename_i last hlast
    have hchunks : b.chunks = b.chunks.dropLast ++ [last] :=
      (List.dropLast_append_getLast? last hlast).symm
    have hold : ∀ chunk ∈ b.chunks.dropLast ++ [last], chunk.rawRomaji ≠ [] := hchunks ▸ h.nonempty
    by_cases hempty : b.current.rawRomaji = []
    · rw [if_pos (by simp [hempty])]
      rw [hempty, List.append_nil] at hraw
      refine ⟨?_, ?_, fun chunk hchunk => ?_⟩
      · rw [← hraw]
        conv_rhs => rw [hchunks]
        simp
      · conv_rhs => rw [hchunks]
        simp
      · obtain hfront | hback := List.mem_append.mp hchunk
        · exact hold chunk (List.mem_append_left _ hfront)
        · rw [List.mem_singleton.mp hback]
          exact hold last (List.mem_append_right _ List.mem_cons_self)
    · rw [if_neg (by simpa using hempty)]
      refine ⟨?_, ?_, fun chunk hchunk => ?_⟩
      · rw [← hraw]
        simp
      · simp
      · obtain hfront | hback := List.mem_append.mp hchunk
        · exact h.nonempty chunk hfront
        · rw [List.mem_singleton.mp hback]
          exact hempty
  · rename_i hnone
    have hchunks : b.chunks = [] := List.getLast?_eq_none_iff.mp hnone
    rw [hchunks, List.flatMap_nil, List.nil_append] at hraw hreading
    rw [hchunks, List.flatMap_nil, List.nil_append]
    by_cases hempty : b.current.rawRomaji = []
    · -- Nothing was fed, and the converter started with nothing pending.
      have hseen : seen = [] := by rw [← hraw, hempty]
      have hnothing : b.current.reading = [] := by
        rw [hreading, hseen]
        rfl
      have hconverter : b.converter = start := by
        rw [h.converter, hseen]
        rfl
      have hflush : b.converter.flush.2 = [] := by
        rw [hconverter]
        exact RomajiKanaConverter.flush_nil hstart
      rw [hnothing, hflush, if_pos (by simp [hempty])]
      exact ⟨hseen.symm, rfl, fun chunk hchunk => absurd hchunk (by simp)⟩
    · rw [if_neg (by simp [hempty])]
      refine ⟨?_, ?_, fun chunk hchunk => ?_⟩
      · rw [← hraw]
        simp
      · simp
      · rw [List.mem_singleton.mp hchunk]
        exact hempty

end Batch

/-! ## The length of a chunk -/

namespace RomajiKanaConverter

/-- A conversion that prints nothing keeps what is pending. -/
theorem convertBuiltinPending_silent {pending : Bytes}
    (h : (convertBuiltinPending false pending).1 = []) :
    (convertBuiltinPending false pending).2 = pending := by
  cases pending with
  | nil => rw [convertBuiltinPending]
  | cons front tail =>
    rw [convertBuiltinPending] at h ⊢
    split at h
    · rename_i hmatch
      have hkana := romajiFind_ne_nil (longestMatch_eq_some hmatch).2.2
      exact absurd (List.append_eq_nil_iff.mp h).1 hkana
    · rename_i hmatch
      rw [if_neg (by simp), if_neg (by simp)] at h
      split_ifs at h with hdrop
      rw [if_neg (by simp), if_neg (by simp), if_neg hdrop]

/-- Feeding changes no table. -/
theorem feed_table (c : RomajiKanaConverter) (byte : UInt8) :
    (c.feed byte).1.customTable = c.customTable := by
  unfold feed feedBuiltin convertPending
  dsimp only
  split
  · rfl
  · split_ifs <;> rfl

/-- **A key that prints nothing** is added to what is pending. -/
theorem feed_silent {c : RomajiKanaConverter} (hc : c.customTable = none) {byte : UInt8}
    (h : (c.feed byte).2 = []) : (c.feed byte).1.pending = c.pending ++ [toLower byte] := by
  have hprinted : ∀ text : String, utf8 text ≠ [] → ∀ t, utf8 text ++ t ≠ [] :=
    fun text htext t heq => htext (List.append_eq_nil_iff.mp heq).1
  unfold feed at h ⊢
  rw [hc] at h ⊢
  change (c.feedBuiltin byte).2 = [] at h
  show (c.feedBuiltin byte).1.pending = _
  unfold feedBuiltin at h ⊢
  dsimp only at h ⊢
  split_ifs at h ⊢ with hdash hquote halpha hnn hkey hconsume hsingle hdouble
  · exact absurd (List.append_eq_nil_iff.mp h).2 (by decide)
  · exact absurd h (show utf8 "ん" ≠ [] by decide)
  · exact absurd (List.append_eq_nil_iff.mp h).2 (by simp)
  · exact absurd h (hprinted "ん" (by decide) _)
  · exact absurd h (hprinted "ん" (by decide) _)
  · exact absurd h (hprinted "ん" (by decide) _)
  · exact absurd h (hprinted "ん" (by decide) _)
  · exact absurd h (show utf8 "っ" ≠ [] by decide)
  · unfold convertPending at h ⊢
    simp only [hc] at h ⊢
    exact convertBuiltinPending_silent h

set_option maxRecDepth 10000 in
/-- At most three letters are pending. -/
theorem Steady.length_le {c : RomajiKanaConverter} (hc : c.Steady) (htable : c.customTable = none) :
    c.pending.length ≤ 3 := by
  have hkeys : ∀ e ∈ romajiMap, e.1.length ≤ 4 := by decide
  obtain hshort | hbegin := hc.short htable
  · omega
  · obtain ⟨e, he, hboth⟩ := List.any_eq_true.mp hbegin
    rw [Bool.and_eq_true, decide_eq_true_eq] at hboth
    have hkey := hkeys e he
    omega

end RomajiKanaConverter

namespace Batch

variable {maxBytes : ℕ} {b : Batch}

/-- **The bound of the loop**, for ASCII and the built-in table. -/
structure Bounded (maxBytes : ℕ) (b : Batch) : Prop where
  table : b.converter.customTable = none
  steady : b.converter.Steady
  /-- No chunk is too long. -/
  chunks : ∀ chunk ∈ b.chunks, chunk.rawRomaji.length ≤ maxBytes + pendingRomajiSlackBytes
  /-- The open chunk can take one byte more. -/
  current : b.current.rawRomaji.length < maxBytes + pendingRomajiSlackBytes
  /-- What has printed nothing is pending. -/
  silent : b.current.reading = [] → b.current.rawRomaji.length ≤ b.converter.pending.length

/-- A turn keeps the bound: a chunk as long as the slack allows has printed
something, and is closed. -/
theorem Bounded.step (h : Bounded maxBytes b) {byte : UInt8} (hbyte : byte < 0x80)
    {next : Option UInt8} (hnext : scalarBoundary next = true) :
    Bounded maxBytes (b.step maxBytes byte next) := by
  have htable : (b.converter.feed byte).1.customTable = none := by
    rw [RomajiKanaConverter.feed_table]
    exact h.table
  have hsteady := (h.steady.feed hbyte).1
  have hlength : (b.current.rawRomaji ++ [byte]).length ≤ maxBytes + pendingRomajiSlackBytes := by
    rw [List.length_append]
    exact h.current
  have hsilent : b.current.reading ++ (b.converter.feed byte).2 = [] →
      (b.current.rawRomaji ++ [byte]).length ≤ (b.converter.feed byte).1.pending.length := by
    intro hempty
    obtain ⟨hbefore, hnow⟩ := List.append_eq_nil_iff.mp hempty
    rw [RomajiKanaConverter.feed_silent h.table hnow, List.length_append, List.length_append]
    exact Nat.add_le_add_right (h.silent hbefore) _
  unfold Batch.step
  dsimp only
  split_ifs with hclose
  · refine ⟨htable, hsteady, fun chunk hchunk => ?_, Nat.lt_of_lt_of_le (Nat.succ_pos 3) (Nat.le_add_left _ _),
      fun _ => Nat.zero_le _⟩
    obtain hold | hnew := List.mem_append.mp hchunk
    · exact h.chunks chunk hold
    · rw [List.mem_singleton.mp hnew]
      exact hlength
  · refine ⟨htable, hsteady, h.chunks, ?_, hsilent⟩
    show (b.current.rawRomaji ++ [byte]).length < maxBytes + pendingRomajiSlackBytes
    by_contra hfull
    have hthree := hsteady.length_le htable
    have hslack : (maxBytes + pendingRomajiSlackBytes) % 2 ^ 64 ≤ maxBytes + pendingRomajiSlackBytes :=
      Nat.mod_le _ _
    have hfour : pendingRomajiSlackBytes = 4 := rfl
    have hprinted : b.current.reading ++ (b.converter.feed byte).2 ≠ [] := by
      intro hempty
      have := hsilent hempty
      omega
    refine hclose ?_
    rw [hnext, decide_eq_true (by omega), decide_eq_true (by omega), Bool.or_true, Bool.and_true,
      Bool.true_and, Bool.true_and, Bool.not_eq_true', List.isEmpty_eq_false_iff]
    exact hprinted

set_option maxRecDepth 10000 in
/-- So does the loop. -/
theorem Bounded.run (h : Bounded maxBytes b) {rest : Bytes} (hrest : ∀ c ∈ rest, c < 0x80) :
    Bounded maxBytes (b.run maxBytes rest) := by
  induction rest generalizing b with
  | nil => exact h
  | cons byte rest ih =>
    have hnext : scalarBoundary rest.head? = true := by
      have hopens : ∀ c : UInt8, c < 0x80 → c &&& 0xC0 ≠ 0x80 := by decide
      cases rest with
      | nil => rfl
      | cons c rest =>
        exact decide_eq_true (hopens c (hrest c (List.mem_cons_of_mem _ List.mem_cons_self)))
    exact ih (h.step (hrest byte List.mem_cons_self) hnext)
      (fun c hc => hrest c (List.mem_cons_of_mem _ hc))

/-- So does what follows it. -/
theorem Bounded.finish (h : Bounded maxBytes b) :
    ∀ chunk ∈ b.finish, chunk.rawRomaji.length ≤ maxBytes + pendingRomajiSlackBytes := by
  intro chunk hchunk
  unfold Batch.finish at hchunk
  dsimp only at hchunk
  split at hchunk
  · rename_i last hlast
    split_ifs at hchunk
    · obtain hold | hnew := List.mem_append.mp hchunk
      · exact h.chunks chunk (List.mem_of_mem_dropLast hold)
      · rw [List.mem_singleton.mp hnew]
        exact h.chunks last (List.mem_of_getLast? hlast)
    · obtain hold | hnew := List.mem_append.mp hchunk
      · exact h.chunks chunk hold
      · rw [List.mem_singleton.mp hnew]
        exact h.current.le
  · split_ifs at hchunk
    · exact absurd hchunk (by simp)
    · rw [List.mem_singleton.mp hchunk]
      exact h.current.le

end Batch

/-! ## A text -/

/-- The codepoints after which `SplitBatchConversion` cuts:
`。`, `！`, `？`, the line feed, `.`, `!` and `?`. -/
def endsSentence (codepoint : ℕ) : Bool :=
  codepoint = 0x3002 || codepoint = 0xff01 || codepoint = 0xff1f || codepoint = 0x0a
    || codepoint = 0x2e || codepoint = 0x21 || codepoint = 0x3f

/-- The inner loop: how many bytes the chunk has, when it has `taken` and the
text follows. -/
def chunkLength (maxBytes taken : ℕ) (text : Bytes) : ℕ :=
  match _h : decodeNextUtf8 text with
  | none => taken
  | some d =>
    let next := taken + (text.length - d.rest.length)
    if maxBytes < next && taken ≠ 0 then taken
    else if endsSentence d.codepoint then next
    else chunkLength maxBytes next d.rest
termination_by text.length
decreasing_by exact decodeNextUtf8_rest_lt _h

/-- **The bytes of a chunk**: at least one of a text, and within the bound unless
they are one code point; and a text is cut between code points. -/
theorem chunkLength_spec (maxBytes taken : ℕ) (text : Bytes) :
    ∃ front rest, text = front ++ rest ∧ chunkLength maxBytes taken text = taken + front.length
      ∧ (taken = 0 → text ≠ [] → front ≠ [])
      ∧ (taken + front.length ≤ max maxBytes 1 ∨ taken = 0 ∧ isScalar front = true ∨ front = [])
      ∧ (ValidUtf8 text → ValidUtf8 front ∧ ValidUtf8 rest) := by
  induction hlength : text.length using Nat.strongRecOn generalizing taken text with
  | ind n ih =>
  rw [chunkLength]
  split
  · rename_i hnone
    have hnil : text = [] := by
      cases text with
      | nil => rfl
      | cons first text =>
        rw [decodeNextUtf8_eq] at hnone
        exact absurd hnone (by simp)
    exact ⟨[], text, rfl, rfl, fun _ hne => absurd hnil hne, Or.inr (Or.inr rfl),
      fun hvalid => ⟨.nil, hvalid⟩⟩
  rename_i d hdecode
  obtain ⟨step, htext, hstep, hvalidStep⟩ := exists_front_of_decodeNextUtf8 hdecode
  have hpos : step ≠ [] := by
    rintro rfl
    exact hstep.elim (fun hscalar => ne_nil_of_isScalar hscalar rfl) (by simp)
  have hwidth : text.length - d.rest.length = step.length := by
    rw [htext, List.length_append]
    omega
  dsimp only
  rw [hwidth]
  by_cases hfull : (maxBytes < taken + step.length && taken ≠ 0) = true
  · rw [if_pos hfull]
    refine ⟨[], text, rfl, rfl, fun hzero => ?_, Or.inr (Or.inr rfl), fun hvalid => ⟨.nil, hvalid⟩⟩
    rw [hzero] at hfull
    exact absurd hfull (by simp)
  rw [if_neg hfull]
  -- A first step is taken whatever its width; later ones fit.
  have hbound : taken + step.length ≤ max maxBytes 1 ∨ taken = 0 ∧ isScalar step = true := by
    by_cases hzero : taken = 0
    · obtain hscalar | hone := hstep
      · exact Or.inr ⟨hzero, hscalar⟩
      · refine Or.inl ?_
        rw [hzero, hone]
        exact le_max_right _ _
    · refine Or.inl (le_max_of_le_left ?_)
      by_contra hmore
      exact hfull (by simp [hzero, not_le.mp hmore])
  have hvalidRest : ValidUtf8 text → ValidUtf8 step ∧ ValidUtf8 d.rest := by
    intro hvalid
    have hvalidStep := ValidUtf8.of_isScalar (hvalidStep hvalid)
    rw [htext] at hvalid
    exact ⟨hvalidStep, ValidUtf8.of_append_left hvalidStep hvalid⟩
  by_cases hends : endsSentence d.codepoint = true
  · rw [if_pos hends]
    exact ⟨step, d.rest, htext, rfl, fun _ _ => hpos, hbound.imp_right Or.inl, hvalidRest⟩
  · rw [if_neg hends]
    have hshorter : d.rest.length < n := by
      rw [← hlength]
      exact decodeNextUtf8_rest_lt hdecode
    obtain ⟨front, rest, hrest, hchunk, -, hfront, hvalid⟩ :=
      ih _ hshorter (taken + step.length) d.rest rfl
    refine ⟨step ++ front, rest, ?_, ?_, fun _ _ => ?_, ?_, fun htextValid => ?_⟩
    · rw [htext, hrest, List.append_assoc]
    · rw [hchunk, List.length_append, Nat.add_assoc]
    · exact List.append_ne_nil_of_left_ne_nil hpos _
    · have hsome : taken + step.length ≠ 0 := by
        have := List.length_pos_iff.mpr hpos
        omega
      obtain hfits | ⟨hzero, -⟩ | hnil := hfront
      · refine Or.inl ?_
        rw [List.length_append, ← Nat.add_assoc]
        exact hfits
      · exact absurd hzero hsome
      · rw [hnil, List.append_nil]
        exact hbound.imp_right Or.inl
    · obtain ⟨hvalidStep, hvalidRest⟩ := hvalidRest htextValid
      obtain ⟨hvalidFront, hvalidAfter⟩ := hvalid hvalidRest
      exact ⟨hvalidStep.append hvalidFront, hvalidAfter⟩

/-- A chunk of a text that is not empty has bytes. -/
theorem chunkLength_pos {maxBytes : ℕ} {text : Bytes} (h : text ≠ []) :
    0 < chunkLength maxBytes 0 text := by
  obtain ⟨front, rest, -, hlength, hne, -⟩ := chunkLength_spec maxBytes 0 text
  rw [hlength, Nat.zero_add]
  exact List.length_pos_iff.mpr (hne rfl h)

/-- **`SplitBatchConversion`.** -/
def splitBatchConversion (text : Bytes) (maxBytes : ℕ) : List Bytes :=
  if _h : text = [] then []
  else
    let length := chunkLength maxBytes 0 text
    text.take length :: splitBatchConversion (text.drop length) maxBytes
termination_by text.length
decreasing_by
  have hpos : 0 < chunkLength maxBytes 0 text := chunkLength_pos _h
  have := List.length_pos_iff.mpr _h
  rw [List.length_drop]
  omega

/-- **The chunks of a text** make it up, are bounded, and are texts. -/
theorem splitBatchConversion_spec (text : Bytes) (maxBytes : ℕ) :
    (splitBatchConversion text maxBytes).flatten = text
      ∧ ∀ chunk ∈ splitBatchConversion text maxBytes, chunk ≠ []
        ∧ (chunk.length ≤ max maxBytes 1 ∨ isScalar chunk = true)
        ∧ (ValidUtf8 text → ValidUtf8 chunk) := by
  induction text using splitBatchConversion.induct maxBytes with
  | case1 =>
    rw [splitBatchConversion, dif_pos rfl]
    exact ⟨rfl, fun chunk hchunk => absurd hchunk (by simp)⟩
  | case2 text hne length ih =>
    obtain ⟨front, rest, htext, hlength, hpos, hbound, hvalid⟩ := chunkLength_spec maxBytes 0 text
    have hfront : text.take (chunkLength maxBytes 0 text) = front := by
      rw [hlength, Nat.zero_add, htext, List.take_left]
    have hrest : text.drop (chunkLength maxBytes 0 text) = rest := by
      rw [hlength, Nat.zero_add, htext, List.drop_left]
    obtain ⟨hflatten, hchunks⟩ := ih
    rw [splitBatchConversion, dif_neg hne]
    dsimp only
    rw [show length = chunkLength maxBytes 0 text from rfl, hrest] at hflatten hchunks
    rw [hfront, hrest]
    refine ⟨?_, fun chunk hchunk => ?_⟩
    · rw [List.flatten_cons, hflatten, ← htext]
    · obtain rfl | hlater := List.mem_cons.mp hchunk
      · refine ⟨hpos rfl hne, ?_, fun htextValid => (hvalid htextValid).1⟩
        rw [Nat.zero_add] at hbound
        obtain hfits | ⟨-, hscalar⟩ | hnil := hbound
        · exact Or.inl hfits
        · exact Or.inr hscalar
        · exact absurd hnil (hpos rfl hne)
      · obtain ⟨hchunkNe, hchunkBound, hchunkValid⟩ := hchunks chunk hlater
        exact ⟨hchunkNe, hchunkBound, fun htextValid => hchunkValid (hvalid htextValid).2⟩

/-! ## Both -/

/-- **Conversion in chunks is conversion.** The chunks of typed romaji are not
empty, hold the romaji, and read as the whole text does; with the built-in table
and ASCII each is as long as the slack allows at most. The chunks of a text make
it up, are bounded unless they are one code point, and are cut between code
points. -/
theorem batchConversion_spec (maxBytes : ℕ) (hmax : 1 ≤ maxBytes) :
    (∀ (raw : Bytes) (table : Option CustomRomajiTable),
      (∀ chunk ∈ splitBatchRomaji raw maxBytes table, chunk.rawRomaji ≠ [])
      ∧ (splitBatchRomaji raw maxBytes table).flatMap BatchRomajiChunk.rawRomaji = raw
      ∧ (splitBatchRomaji raw maxBytes table).flatMap BatchRomajiChunk.reading
        = RomajiKanaConverter.convertForCommit raw table
      ∧ (table = none → (∀ c ∈ raw, c < 0x80) →
        ∀ chunk ∈ splitBatchRomaji raw maxBytes table,
          chunk.rawRomaji.length ≤ maxBytes + pendingRomajiSlackBytes))
    ∧ ∀ text : Bytes, (splitBatchConversion text maxBytes).flatten = text
      ∧ ∀ chunk ∈ splitBatchConversion text maxBytes,
        (chunk.length ≤ maxBytes ∨ isScalar chunk = true) ∧ (ValidUtf8 text → ValidUtf8 chunk) := by
  constructor
  · intro raw table
    have hinit : Batch.Sound { customTable := table } []
        { converter := { customTable := table } } :=
      ⟨rfl, rfl, rfl, fun chunk hchunk => absurd hchunk (by simp)⟩
    have hrun : Batch.Sound { customTable := table } ([] ++ raw)
        (({ converter := { customTable := table } } : Batch).run maxBytes raw) := hinit.run raw
    obtain ⟨hraw, hreading, hne⟩ := hrun.finish rfl
    refine ⟨hne, hraw, hreading, fun htable hascii => ?_⟩
    have hbounded : Batch.Bounded maxBytes { converter := { customTable := table } } :=
      ⟨htable, RomajiKanaConverter.steady_of_nil rfl, fun chunk hchunk => absurd hchunk (by simp),
        Nat.lt_of_lt_of_le (Nat.succ_pos 3) (Nat.le_add_left _ _), fun _ => Nat.zero_le _⟩
    exact (hbounded.run hascii).finish
  · intro text
    obtain ⟨hflatten, hchunks⟩ := splitBatchConversion_spec text maxBytes
    refine ⟨hflatten, fun chunk hchunk => ?_⟩
    obtain ⟨-, hbound, hvalid⟩ := hchunks chunk hchunk
    rw [max_eq_left hmax] at hbound
    exact ⟨hbound, hvalid⟩

/-- Chunks of four bytes. -/
theorem batchConversion_spec_four :
    (splitBatchRomaji (utf8 "onnanoko") 4 none).flatMap BatchRomajiChunk.reading
        = RomajiKanaConverter.convertForCommit (utf8 "onnanoko") none
      ∧ (splitBatchConversion (utf8 "はい。次") 4).flatten = utf8 "はい。次" :=
  ⟨((batchConversion_spec 4 (by decide)).1 (utf8 "onnanoko") none).2.2.1,
    ((batchConversion_spec 4 (by decide)).2 (utf8 "はい。次")).1⟩

end AzooKey.Core

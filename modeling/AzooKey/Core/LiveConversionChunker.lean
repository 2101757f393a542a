import AzooKey.Core.Utf8Readers

/-!
# The chunks of live conversion

`core/src/LiveConversionChunker.cpp`. A reading is cut into chunks of Japanese
text, which are converted, and chunks of other text, which stay as they are.
When the reading changes, only the part between what both texts begin with and
what both end with is converted anew.

The texts are cut at units, which are the characters, and single octets where
there is no character. A unit never begins inside of a character
(`not_inside_of_isCut`), so neither a chunk nor the replaced part does.
`computeLiveConversionChunkPlan_spec` says what a plan is: the two replaced
ranges are as short as cuts at units can make them, and chunks that alternate in
kind tile the new text.
-/

namespace AzooKey.Core

/-! ## The source -/

/-- `LiveConversionChunkKind`. -/
inductive LiveConversionChunkKind
  | convert | verbatim
deriving DecidableEq, Repr

/-- `LiveConversionChunk`. -/
structure LiveConversionChunk where
  kind : LiveConversionChunkKind := .verbatim
  text : Bytes := []
  byteOffset : ℕ := 0
deriving DecidableEq

/-- `LiveConversionChunkPlan`. -/
structure LiveConversionChunkPlan where
  chunks : List LiveConversionChunk
  replacementChunks : List LiveConversionChunk
  unchangedPrefixBytes : ℕ
  unchangedSuffixBytes : ℕ
  replaceOldBeginByte : ℕ
  replaceOldEndByte : ℕ
  replaceNewBeginByte : ℕ
  replaceNewEndByte : ℕ
deriving DecidableEq

/-- `Utf8Unit`. -/
structure Utf8Unit where
  codePoint : ℕ
  offset : ℕ
  byteLength : ℕ
deriving DecidableEq

/-- The loop of `DecodeUtf8Units`, over the rest of a text that begins at
`offset`. -/
def unitsFrom : ℕ → ℕ → Bytes → List Utf8Unit
  | fuel + 1, offset, b0 :: rest =>
    let decoded := decodeUtf8At b0 rest
    ⟨decoded.codePoint, offset, decoded.byteLength⟩
      :: unitsFrom fuel (offset + decoded.byteLength) ((b0 :: rest).drop decoded.byteLength)
  | _, _, _ => []

/-- `DecodeUtf8Units`. A unit has an octet at least, so that the length of the
text is enough fuel. -/
def decodeUtf8Units (text : Bytes) : List Utf8Unit := unitsFrom text.length 0 text

/-- The blocks that `IsJapaneseForLiveConversion` lists, in its order. -/
def japaneseRanges : List (ℕ × ℕ) :=
  [(0x3041, 0x3096), (0x309d, 0x309f), (0x30a1, 0x30fa), (0x30fd, 0x30ff), (0x31f0, 0x31ff),
    (0xff66, 0xff9f), (0x3400, 0x4dbf), (0x4e00, 0x9fff), (0xf900, 0xfaff), (0x20000, 0x2ebef)]

/-- `IsJapaneseForLiveConversion`. -/
def isJapaneseForLiveConversion (codePoint : ℕ) : Bool :=
  japaneseRanges.any (fun r => r.1 ≤ codePoint && codePoint ≤ r.2)
    || codePoint = 0x3005 || codePoint = 0x3006 || codePoint = 0x3007 || codePoint = 0x30fc

/-- `KindFor`. -/
def kindFor (codePoint : ℕ) : LiveConversionChunkKind :=
  if isJapaneseForLiveConversion codePoint then .convert else .verbatim

/-- `std::string_view::substr`. -/
def substr (text : Bytes) (offset count : ℕ) : Bytes := (text.drop offset).take count

/-- The variables of `GroupUnitRange`. -/
structure Grouping where
  chunks : List LiveConversionChunk
  current : LiveConversionChunk
  currentEnd : ℕ

/-- The chunks with the current one, which ends where the last unit ended. -/
def Grouping.push (text : Bytes) (g : Grouping) : List LiveConversionChunk :=
  g.chunks ++ [{ g.current with
    text := substr text g.current.byteOffset (g.currentEnd - g.current.byteOffset) }]

/-- One unit. The first one has the kind of the chunk that it opened. -/
def Grouping.add (text : Bytes) (g : Grouping) (unit : Utf8Unit) : Grouping :=
  let kind := kindFor unit.codePoint
  let unitEnd := unit.offset + unit.byteLength
  if kind ≠ g.current.kind then ⟨g.push text, ⟨kind, [], unit.offset⟩, unitEnd⟩
  else { g with currentEnd := unitEnd }

/-- `GroupUnitRange`. -/
def groupUnitRange (text : Bytes) (units : List Utf8Unit) (beginUnit endUnit : ℕ) :
    List LiveConversionChunk :=
  match (units.take endUnit).drop beginUnit with
  | [] => []
  | unit :: rest =>
    ((unit :: rest).foldl (Grouping.add text)
      ⟨[], ⟨kindFor unit.codePoint, [], unit.offset⟩, unit.offset⟩).push text

/-- `SameUtf8Unit`. -/
def sameUtf8Unit (lhs rhs : Bytes) (lhsUnit rhsUnit : Utf8Unit) : Bool :=
  if lhsUnit.byteLength ≠ rhsUnit.byteLength then false
  else substr lhs lhsUnit.offset lhsUnit.byteLength = substr rhs rhsUnit.offset rhsUnit.byteLength

/-- How many elements of two lists match, one after the other. -/
def countWhile {α β : Type} (same : α → β → Bool) : List α → List β → ℕ
  | a :: as, b :: bs => if same a b then countWhile same as bs + 1 else 0
  | _, _ => 0

/-- `CommonPrefixUnits`. -/
def commonPrefixUnits (previousText : Bytes) (previousUnits : List Utf8Unit) (currentText : Bytes)
    (currentUnits : List Utf8Unit) : ℕ :=
  countWhile (sameUtf8Unit previousText currentText) previousUnits currentUnits

/-- `CommonSuffixUnits`: it counts from the end, and no further than to the
common prefix. -/
def commonSuffixUnits (previousText : Bytes) (previousUnits : List Utf8Unit) (currentText : Bytes)
    (currentUnits : List Utf8Unit) (prefixUnits : ℕ) : ℕ :=
  countWhile (sameUtf8Unit previousText currentText) (previousUnits.drop prefixUnits).reverse
    (currentUnits.drop prefixUnits).reverse

/-- `UnitOffsetOrEnd`. -/
def unitOffsetOrEnd (units : List Utf8Unit) (unitIndex textSize : ℕ) : ℕ :=
  (units[unitIndex]?).elim textSize Utf8Unit.offset

/-- `GroupLiveConversionChunks`. -/
def groupLiveConversionChunks (text : Bytes) : List LiveConversionChunk :=
  groupUnitRange text (decodeUtf8Units text) 0 (decodeUtf8Units text).length

/-- **`ComputeLiveConversionChunkPlan`.** -/
def computeLiveConversionChunkPlan (previousText currentText : Bytes) : LiveConversionChunkPlan :=
  let previousUnits := decodeUtf8Units previousText
  let currentUnits := decodeUtf8Units currentText
  let prefixUnits := commonPrefixUnits previousText previousUnits currentText currentUnits
  let suffixUnits :=
    commonSuffixUnits previousText previousUnits currentText currentUnits prefixUnits
  { chunks := groupUnitRange currentText currentUnits 0 currentUnits.length
    unchangedPrefixBytes := unitOffsetOrEnd currentUnits prefixUnits currentText.length
    unchangedSuffixBytes := currentText.length
      - unitOffsetOrEnd currentUnits (currentUnits.length - suffixUnits) currentText.length
    replaceOldBeginByte := unitOffsetOrEnd previousUnits prefixUnits previousText.length
    replaceOldEndByte :=
      unitOffsetOrEnd previousUnits (previousUnits.length - suffixUnits) previousText.length
    replaceNewBeginByte := unitOffsetOrEnd currentUnits prefixUnits currentText.length
    replaceNewEndByte :=
      unitOffsetOrEnd currentUnits (currentUnits.length - suffixUnits) currentText.length
    replacementChunks := groupUnitRange currentText currentUnits prefixUnits
      (currentUnits.length - suffixUnits) }

/-! ## Units -/

/-- The octets of a unit. -/
def Utf8Unit.octets (text : Bytes) (unit : Utf8Unit) : Bytes :=
  substr text unit.offset unit.byteLength

/-- **Units follow one another** in a text, from one byte to another. -/
def Follow (text : Bytes) : ℕ → List Utf8Unit → ℕ → Prop
  | start, [], stop => start = stop
  | start, unit :: units, stop =>
    unit.offset = start ∧ 0 < unit.byteLength ∧ start + unit.byteLength ≤ text.length
      ∧ Follow text (start + unit.byteLength) units stop

/-- One step of the decoder: a character, or one octet where there is none. -/
theorem byteLength_decodeUtf8At (b0 : UInt8) (rest : Bytes) :
    0 < (decodeUtf8At b0 rest).byteLength
      ∧ (decodeUtf8At b0 rest).byteLength ≤ (b0 :: rest).length := by
  by_cases h : Malformed (b0 :: rest)
  · rw [decodeUtf8At_malformed h]
    exact ⟨Nat.one_pos, Nat.succ_le_succ (Nat.zero_le _)⟩
  · simp only [Malformed, not_forall, not_not] at h
    obtain ⟨scalar, after, hscalar, heq⟩ := h
    obtain ⟨first, tail, rfl⟩ := List.exists_cons_of_ne_nil (ne_nil_of_isScalar hscalar)
    obtain ⟨rfl, rfl⟩ : b0 = first ∧ rest = tail ++ after := List.cons.inj heq
    rw [decodeUtf8At_append hscalar]
    simp

/-- The units of a text follow one another from its start to its end. -/
theorem follow_unitsFrom (text : Bytes) {fuel offset : ℕ} {rest : Bytes} (hfuel : rest.length ≤ fuel)
    (hlen : offset + rest.length = text.length) :
    Follow text offset (unitsFrom fuel offset rest) text.length := by
  induction fuel generalizing offset rest with
  | zero =>
    obtain rfl := List.eq_nil_of_length_eq_zero (Nat.le_zero.mp hfuel)
    exact hlen
  | succ fuel ih =>
    cases rest with
    | nil => exact hlen
    | cons b0 rest =>
      obtain ⟨hpos, hle⟩ := byteLength_decodeUtf8At b0 rest
      rw [unitsFrom]
      refine ⟨rfl, hpos, (Nat.add_le_add_left hle offset).trans hlen.le, ih ?_ ?_⟩
      · rw [List.length_drop]
        omega
      · show offset + (decodeUtf8At b0 rest).byteLength + _ = _
        rw [List.length_drop]
        omega

/-- The units of a text tile it. -/
theorem follow_decodeUtf8Units (text : Bytes) :
    Follow text 0 (decodeUtf8Units text) text.length :=
  follow_unitsFrom text le_rfl (Nat.zero_add _)

section Follow

variable {text : Bytes} {start stop : ℕ} {units : List Utf8Unit}

/-- Units go forward, within the text. -/
theorem Follow.le (h : Follow text start units stop) : start ≤ stop := by
  induction units generalizing start with
  | nil => exact h.le
  | cons unit units ih => exact (Nat.le_add_right _ _).trans (ih h.2.2.2)

/-- Units can be cut in two. -/
theorem Follow.split (h : Follow text start units stop) (i : ℕ) :
    Follow text start (units.take i) (unitOffsetOrEnd units i stop)
      ∧ Follow text (unitOffsetOrEnd units i stop) (units.drop i) stop := by
  induction units generalizing start i with
  | nil =>
    rw [List.take_nil, List.drop_nil]
    exact ⟨h, rfl⟩
  | cons unit units ih =>
    cases i with
    | zero =>
      obtain ⟨rfl, hpos, hle, hrest⟩ := h
      exact ⟨rfl, rfl, hpos, hle, hrest⟩
    | succ i =>
      obtain ⟨htake, hdrop⟩ := ih h.2.2.2 i
      exact ⟨⟨h.1, h.2.1, h.2.2.1, htake⟩, hdrop⟩

/-- **The octets of units are the text between their ends.** -/
theorem Follow.flatMap_octets (h : Follow text start units stop) :
    units.flatMap (Utf8Unit.octets text) = substr text start (stop - start) := by
  induction units generalizing start with
  | nil =>
    obtain rfl : start = stop := h
    rw [Nat.sub_self]
    rfl
  | cons unit units ih =>
    obtain ⟨hoffset, -, hle, hrest⟩ := h
    have hstop := Follow.le hrest
    rw [List.flatMap_cons, ih hrest]
    unfold Utf8Unit.octets substr
    rw [hoffset, ← List.drop_drop]
    have hsum : stop - start = unit.byteLength + (stop - (start + unit.byteLength)) := by omega
    rw [hsum, List.take_add]

/-- The octets of a unit are as many as it says. -/
theorem Follow.length_octets (h : Follow text start units stop) {unit : Utf8Unit}
    (hmem : unit ∈ units) : (unit.octets text).length = unit.byteLength := by
  induction units generalizing start with
  | nil => cases hmem
  | cons first units ih =>
    rcases List.mem_cons.mp hmem with rfl | hmem
    · unfold Utf8Unit.octets substr
      rw [List.length_take, List.length_drop, h.1]
      have := h.2.2.1
      omega
    · exact ih h.2.2.2 hmem

end Follow

/-! ## What two texts have in common -/

section CountWhile

variable {α β γ : Type} {same : α → β → Bool} {f : α → γ} {g : β → γ}

/-- The elements that are counted are the same. -/
theorem take_countWhile (h : ∀ a b, same a b = true → f a = g b) (as : List α) (bs : List β) :
    (as.map f).take (countWhile same as bs) = (bs.map g).take (countWhile same as bs)
      ∧ countWhile same as bs ≤ as.length ∧ countWhile same as bs ≤ bs.length := by
  induction as generalizing bs with
  | nil => exact ⟨rfl, Nat.zero_le _, Nat.zero_le _⟩
  | cons a as ih =>
    cases bs with
    | nil => exact ⟨rfl, Nat.zero_le _, Nat.zero_le _⟩
    | cons b bs =>
      rw [countWhile]
      by_cases hsame : same a b = true
      · obtain ⟨htake, has, hbs⟩ := ih bs
        rw [if_pos hsame, List.map_cons, List.map_cons, List.take_succ_cons, List.take_succ_cons,
          h a b hsame, htake]
        exact ⟨rfl, Nat.succ_le_succ has, Nat.succ_le_succ hbs⟩
      · rw [if_neg hsame]
        exact ⟨rfl, Nat.zero_le _, Nat.zero_le _⟩

/-- **No more elements are the same.** -/
theorem le_countWhile (as : List α) (bs : List β)
    (h : ∀ a ∈ as, ∀ b ∈ bs, f a = g b → same a b = true) {k : ℕ} (has : k ≤ as.length)
    (hbs : k ≤ bs.length) (heq : (as.map f).take k = (bs.map g).take k) :
    k ≤ countWhile same as bs := by
  induction as generalizing bs k with
  | nil => exact has.trans (Nat.zero_le _)
  | cons a as ih =>
    cases bs with
    | nil => exact hbs.trans (Nat.zero_le _)
    | cons b bs =>
      cases k with
      | zero => exact Nat.zero_le _
      | succ k =>
        rw [List.map_cons, List.map_cons, List.take_succ_cons, List.take_succ_cons] at heq
        obtain ⟨hhead, htail⟩ := List.cons.inj heq
        rw [countWhile, if_pos (h a List.mem_cons_self b List.mem_cons_self hhead)]
        exact Nat.succ_le_succ (ih bs (fun a ha b hb => h a (List.mem_cons_of_mem _ ha) b
          (List.mem_cons_of_mem _ hb)) (Nat.le_of_succ_le_succ has) (Nat.le_of_succ_le_succ hbs)
          htail)

end CountWhile

/-- The octets of the units of a text. -/
def unitTexts (text : Bytes) : List Bytes := (decodeUtf8Units text).map (Utf8Unit.octets text)

/-- The same units have the same octets. -/
theorem octets_eq_of_same {lhs rhs : Bytes} (a b : Utf8Unit) (h : sameUtf8Unit lhs rhs a b = true) :
    a.octets lhs = b.octets rhs := by
  unfold sameUtf8Unit at h
  split at h
  · cases h
  · exact of_decide_eq_true h

/-- Units of the same octets are the same. -/
theorem same_of_octets_eq {lhs rhs : Bytes} {a b : Utf8Unit} (ha : a ∈ decodeUtf8Units lhs)
    (hb : b ∈ decodeUtf8Units rhs) (h : a.octets lhs = b.octets rhs) :
    sameUtf8Unit lhs rhs a b = true := by
  have hlength : a.byteLength = b.byteLength := by
    rw [← (follow_decodeUtf8Units lhs).length_octets ha,
      ← (follow_decodeUtf8Units rhs).length_octets hb, h]
  unfold sameUtf8Unit
  rw [if_neg (not_not.mpr hlength)]
  exact decide_eq_true h

/-- A place where a list of texts may be cut: so many texts before it. -/
abbrev sizeBefore (texts : List Bytes) (i : ℕ) : ℕ := (texts.take i).flatten.length

/-- The byte at which a unit begins. -/
theorem unitOffsetOrEnd_eq (text : Bytes) (i : ℕ) :
    unitOffsetOrEnd (decodeUtf8Units text) i text.length = sizeBefore (unitTexts text) i := by
  have hfollow := (follow_decodeUtf8Units text).split i
  have hle := hfollow.2.le
  unfold sizeBefore unitTexts
  rw [← List.map_take, ← List.flatMap_def, hfollow.1.flatMap_octets, Nat.sub_zero]
  unfold substr
  rw [List.drop_zero, List.length_take]
  omega

/-! ## Cuts -/

/-- **A byte at which a unit begins**, or the end of the text. -/
def IsCut (text : Bytes) (n : ℕ) : Prop :=
  ∃ i, n = unitOffsetOrEnd (decodeUtf8Units text) i text.length

/-- A byte inside of a character. -/
def Inside (text : Bytes) (n : ℕ) : Prop :=
  ∃ before scalar after, isScalar scalar = true ∧ text = before ++ scalar ++ after
    ∧ before.length < n ∧ n < before.length + scalar.length

/-- The decoder does not read past the start of a character. -/
theorem byteLength_le_or {b0 : UInt8} {rest before scalar after : Bytes}
    (hscalar : isScalar scalar = true) (heq : b0 :: rest = before ++ (scalar ++ after)) :
    (decodeUtf8At b0 rest).byteLength ≤ before.length
      ∨ before = [] ∧ (decodeUtf8At b0 rest).byteLength = scalar.length := by
  cases before with
  | nil =>
    obtain ⟨first, tail, rfl⟩ := List.exists_cons_of_ne_nil (ne_nil_of_isScalar hscalar)
    obtain ⟨rfl, rfl⟩ : b0 = first ∧ rest = tail ++ after := List.cons.inj heq
    rw [decodeUtf8At_append hscalar]
    exact Or.inr ⟨rfl, rfl⟩
  | cons first before =>
    left
    by_cases h : Malformed (b0 :: rest)
    · rw [decodeUtf8At_malformed h]
      exact Nat.succ_le_succ (Nat.zero_le _)
    · simp only [Malformed, not_forall, not_not] at h
      obtain ⟨read, after', hread, hsplit⟩ := h
      obtain ⟨lead, tail, rfl⟩ := List.exists_cons_of_ne_nil (ne_nil_of_isScalar hread)
      obtain ⟨rfl, rfl⟩ : b0 = lead ∧ rest = tail ++ after' := List.cons.inj hsplit
      rw [decodeUtf8At_append hread]
      -- otherwise the character at the front would contain the lead byte of the other
      by_contra hlong
      have htail : before.length < tail.length := by
        simp only [List.length_cons] at hlong
        omega
      have hrest : tail ++ after' = before ++ (scalar ++ after) := (List.cons.inj heq).2
      obtain ⟨c, scalar, rfl⟩ := List.exists_cons_of_ne_nil (ne_nil_of_isScalar hscalar)
      have hc : tail[before.length]? = some c := by
        have hinside : (tail ++ after')[before.length]? = tail[before.length]? :=
          List.getElem?_append_left htail
        rw [← hinside, hrest, List.getElem?_append_right le_rfl, Nat.sub_self]
        rfl
      have htrailing := Ipc.Json.isTrailing_of_isScalar hread c (List.mem_of_getElem? hc)
      rw [(ValidUtf8.of_isScalar hscalar).not_isTrailing_head] at htrailing
      cases htrailing

/-- No unit begins inside of a character. -/
theorem not_inside_unitsFrom {fuel : ℕ} (offset : ℕ) {rest : Bytes}
    (hfuel : rest.length ≤ fuel) (i : ℕ)
    {before scalar after : Bytes} (hscalar : isScalar scalar = true)
    (heq : rest = before ++ (scalar ++ after)) :
    unitOffsetOrEnd (unitsFrom fuel offset rest) i (offset + rest.length) ≤ offset + before.length
      ∨ offset + before.length + scalar.length
        ≤ unitOffsetOrEnd (unitsFrom fuel offset rest) i (offset + rest.length) := by
  induction fuel generalizing offset rest before i with
  | zero =>
    obtain rfl := List.eq_nil_of_length_eq_zero (Nat.le_zero.mp hfuel)
    exact Or.inl (Nat.le_add_right _ _)
  | succ fuel ih =>
    cases rest with
    | nil => exact Or.inl (Nat.le_add_right _ _)
    | cons b0 rest =>
      rw [unitsFrom]
      cases i with
      | zero => exact Or.inl (Nat.le_add_right _ _)
      | succ i =>
        obtain ⟨hpos, hle⟩ := byteLength_decodeUtf8At b0 rest
        have hdrop := byteLength_le_or hscalar heq
        generalize (decodeUtf8At b0 rest).byteLength = width at hpos hle hdrop ⊢
        have hend : offset + (b0 :: rest).length
            = offset + width + ((b0 :: rest).drop width).length := by
          rw [List.length_drop]
          omega
        have hshort : ((b0 :: rest).drop width).length ≤ fuel := by
          rw [List.length_drop]
          omega
        show unitOffsetOrEnd (unitsFrom fuel (offset + width) ((b0 :: rest).drop width)) i _ ≤ _
          ∨ _ ≤ unitOffsetOrEnd (unitsFrom fuel (offset + width) ((b0 :: rest).drop width)) i _
        rw [hend]
        rcases hdrop with hbefore | ⟨rfl, rfl⟩
        · have hrest : (b0 :: rest).drop width = before.drop width ++ (scalar ++ after) := by
            rw [heq, List.drop_append_of_le_length hbefore]
          have h := ih (offset + width) hshort i hrest
          have hsum : offset + width + (before.drop width).length = offset + before.length := by
            rw [List.length_drop]
            omega
          rwa [hsum] at h
        · right
          -- where the units end depends on the length of the text only
          have hfollow := follow_unitsFrom (List.replicate (offset + scalar.length
            + ((b0 :: rest).drop scalar.length).length) 0) hshort (by rw [List.length_replicate])
          rw [List.length_replicate] at hfollow
          exact (hfollow.split i).1.le

/-- **No cut is inside of a character.** -/
theorem not_inside_of_isCut {text : Bytes} {n : ℕ} (h : IsCut text n) : ¬ Inside text n := by
  rintro ⟨before, scalar, after, hscalar, heq, hbefore, hafter⟩
  obtain ⟨i, rfl⟩ := h
  rw [List.append_assoc] at heq
  have hcut := not_inside_unitsFrom 0 (le_refl text.length) i hscalar heq
  rw [Nat.zero_add, Nat.zero_add] at hcut
  exact hcut.elim (fun h => absurd hbefore (not_lt.mpr h)) (fun h => absurd hafter (not_lt.mpr h))

/-! ## Chunks -/

/-- **Chunks tile a text** from one byte to another: each begins where the one
before it ended, and none is empty. -/
def Tiles (text : Bytes) : ℕ → List LiveConversionChunk → ℕ → Prop
  | start, [], stop => start = stop
  | start, chunk :: chunks, stop =>
    chunk.byteOffset = start ∧ chunk.text ≠ [] ∧ chunk.text = substr text start chunk.text.length
      ∧ Tiles text (start + chunk.text.length) chunks stop

/-- A unit within a chunk of its kind. -/
def Utf8Unit.LiesIn (unit : Utf8Unit) (chunk : LiveConversionChunk) (chunkEnd : ℕ) : Prop :=
  chunk.kind = kindFor unit.codePoint ∧ chunk.byteOffset ≤ unit.offset
    ∧ unit.offset + unit.byteLength ≤ chunkEnd

/-- **The chunks of units**: they tile the text, their kinds alternate, they
begin at cuts, and every unit lies in a chunk of its kind. -/
structure Chunked (text : Bytes) (start : ℕ) (units : List Utf8Unit)
    (chunks : List LiveConversionChunk) (stop : ℕ) : Prop where
  tiles : Tiles text start chunks stop
  alternate : (chunks.map LiveConversionChunk.kind).IsChain (· ≠ ·)
  cuts : ∀ chunk ∈ chunks, IsCut text chunk.byteOffset
  kinds : ∀ unit ∈ units, ∃ chunk ∈ chunks,
    unit.LiesIn chunk (chunk.byteOffset + chunk.text.length)

/-- The loop, after the units up to `stop`: the chunks that it has closed tile
the text up to the current one, which is not empty. -/
structure Grouping.Inv (text : Bytes) (start : ℕ) (units : List Utf8Unit) (g : Grouping)
    (stop : ℕ) : Prop where
  tiles : Tiles text start g.chunks g.current.byteOffset
  currentEnd_eq : g.currentEnd = stop
  lt_stop : g.current.byteOffset < stop
  stop_le : stop ≤ text.length
  alternate : (g.chunks.map LiveConversionChunk.kind ++ [g.current.kind]).IsChain (· ≠ ·)
  cuts : ∀ chunk ∈ g.chunks, IsCut text chunk.byteOffset
  cut : IsCut text g.current.byteOffset
  kinds : ∀ unit ∈ units, (∃ chunk ∈ g.chunks,
    unit.LiesIn chunk (chunk.byteOffset + chunk.text.length)) ∨ unit.LiesIn g.current stop

section Grouping

variable {text : Bytes} {start stop : ℕ} {units : List Utf8Unit} {g : Grouping}

/-- One more tile. -/
theorem Tiles.append {chunks : List LiveConversionChunk} {middle : ℕ} {chunk : LiveConversionChunk}
    (h : Tiles text start chunks middle) (hoffset : chunk.byteOffset = middle)
    (htext : chunk.text = substr text middle (stop - middle)) (hlt : middle < stop)
    (hle : stop ≤ text.length) : Tiles text start (chunks ++ [chunk]) stop := by
  induction chunks generalizing start with
  | nil =>
    obtain rfl : start = middle := h
    have hlength : chunk.text.length = stop - start := by
      rw [htext]
      unfold substr
      rw [List.length_take, List.length_drop]
      omega
    refine ⟨hoffset, fun hnil => ?_, ?_, ?_⟩
    · rw [hnil, List.length_nil] at hlength
      omega
    · rw [hlength]
      exact htext
    · show start + chunk.text.length = stop
      omega
  | cons first chunks ih => exact ⟨h.1, h.2.1, h.2.2.1, ih h.2.2.2⟩

/-- **Closing the current chunk** makes chunks of all units so far. -/
theorem Grouping.Inv.push (h : g.Inv text start units stop) :
    Chunked text start units (g.push text) stop where
  tiles := h.tiles.append rfl (by rw [h.currentEnd_eq]) h.lt_stop h.stop_le
  alternate := by
    unfold Grouping.push
    rw [List.map_append]
    exact h.alternate
  cuts := by
    intro chunk hmem
    rcases List.mem_append.mp hmem with hmem | hmem
    · exact h.cuts chunk hmem
    · obtain rfl := List.mem_singleton.mp hmem
      exact h.cut
  kinds := by
    have hlength : (substr text g.current.byteOffset (g.currentEnd - g.current.byteOffset)).length
        = stop - g.current.byteOffset := by
      have hle := h.stop_le
      unfold substr
      rw [List.length_take, List.length_drop, h.currentEnd_eq]
      omega
    intro unit hunit
    rcases h.kinds unit hunit with ⟨chunk, hmem, hlies⟩ | hlies
    · exact ⟨chunk, List.mem_append_left _ hmem, hlies⟩
    · refine ⟨_, List.mem_append_right _ (List.mem_singleton_self _), hlies.1, hlies.2.1, ?_⟩
      have hlt := h.lt_stop
      have hstop := hlies.2.2
      show unit.offset + unit.byteLength ≤ g.current.byteOffset + (substr text _ _).length
      rw [hlength]
      omega

/-- **One unit** keeps the invariant. -/
theorem Grouping.Inv.add (h : g.Inv text start units stop) {unit : Utf8Unit}
    (hoffset : unit.offset = stop) (hpos : 0 < unit.byteLength)
    (hle : stop + unit.byteLength ≤ text.length) (hcut : IsCut text stop) :
    (g.add text unit).Inv text start (units ++ [unit]) (stop + unit.byteLength) := by
  subst hoffset
  unfold Grouping.add
  dsimp only
  by_cases hkind : kindFor unit.codePoint = g.current.kind
  · rw [if_neg (not_not.mpr hkind)]
    refine ⟨h.tiles, rfl, h.lt_stop.trans (Nat.lt_add_of_pos_right hpos), hle, h.alternate, h.cuts,
      h.cut, fun u hu => ?_⟩
    rcases List.mem_append.mp hu with hu | hu
    · refine (h.kinds u hu).imp_right fun hlies => ⟨hlies.1, hlies.2.1, ?_⟩
      exact hlies.2.2.trans (Nat.le_add_right _ _)
    · obtain rfl := List.mem_singleton.mp hu
      exact Or.inr ⟨hkind.symm, h.lt_stop.le, le_rfl⟩
  · rw [if_pos hkind]
    -- the current chunk is closed, and the unit opens the next one
    have hpush := h.push
    refine ⟨hpush.tiles, rfl, Nat.lt_add_of_pos_right hpos, hle, ?_, hpush.cuts, hcut, fun u hu => ?_⟩
    · show ((g.push text).map LiveConversionChunk.kind ++ [kindFor unit.codePoint]).IsChain _
      unfold Grouping.push
      rw [List.map_append]
      refine List.IsChain.append h.alternate (List.isChain_singleton _) ?_
      intro x hx y hy
      rw [List.map_singleton, List.getLast?_concat, Option.mem_some_iff] at hx
      rw [List.head?_cons, Option.mem_some_iff] at hy
      rw [← hx, ← hy]
      exact fun heq => hkind heq.symm
    · rcases List.mem_append.mp hu with hu | hu
      · exact Or.inl (hpush.kinds u hu)
      · obtain rfl := List.mem_singleton.mp hu
        exact Or.inr ⟨rfl, le_rfl, le_rfl⟩

/-- **All units** keep the invariant. -/
theorem Grouping.Inv.foldl {more : List Utf8Unit} {stop' : ℕ} (h : g.Inv text start units stop)
    (hfollow : Follow text stop more stop') (hcuts : ∀ unit ∈ more, IsCut text unit.offset) :
    (more.foldl (Grouping.add text) g).Inv text start (units ++ more) stop' := by
  induction more generalizing g units stop with
  | nil =>
    obtain rfl : stop = stop' := hfollow
    rw [List.append_nil]
    exact h
  | cons unit more ih =>
    obtain ⟨rfl, hpos, hle, hrest⟩ := hfollow
    have hadd := h.add rfl hpos hle (hcuts unit List.mem_cons_self)
    have hall := ih hadd hrest (fun u hu => hcuts u (List.mem_cons_of_mem _ hu))
    rwa [List.append_assoc] at hall

end Grouping

/-- The offsets of the units of a text are its cuts. -/
theorem isCut_of_mem {text : Bytes} {unit : Utf8Unit} (h : unit ∈ decodeUtf8Units text) :
    IsCut text unit.offset := by
  obtain ⟨i, hi⟩ := List.mem_iff_getElem?.mp h
  exact ⟨i, by rw [unitOffsetOrEnd, hi]; rfl⟩

/-- An earlier unit of those before a place begins where it did. -/
theorem unitOffsetOrEnd_take (units : List Utf8Unit) {b e : ℕ} (h : b ≤ e) (stop : ℕ) :
    unitOffsetOrEnd (units.take e) b (unitOffsetOrEnd units e stop)
      = unitOffsetOrEnd units b stop := by
  unfold unitOffsetOrEnd
  rw [List.getElem?_take]
  by_cases hlt : b < e
  · rw [if_pos hlt]
    cases hb : units[b]? with
    | some unit => rfl
    | none =>
      have hlen : units.length ≤ e := (List.getElem?_eq_none_iff.mp hb).trans h
      rw [List.getElem?_eq_none hlen]
      rfl
  · obtain rfl : b = e := le_antisymm h (not_lt.mp hlt)
    rw [if_neg hlt]
    rfl

/-- **The chunks of a range of units.** -/
theorem chunked_groupUnitRange (text : Bytes) {b e : ℕ} (hbe : b ≤ e) :
    Chunked text (unitOffsetOrEnd (decodeUtf8Units text) b text.length)
      (((decodeUtf8Units text).take e).drop b)
      (groupUnitRange text (decodeUtf8Units text) b e)
      (unitOffsetOrEnd (decodeUtf8Units text) e text.length) := by
  have hfollow : Follow text (unitOffsetOrEnd (decodeUtf8Units text) b text.length)
      (((decodeUtf8Units text).take e).drop b)
      (unitOffsetOrEnd (decodeUtf8Units text) e text.length) := by
    have htake := ((follow_decodeUtf8Units text).split e).1
    rw [← unitOffsetOrEnd_take _ hbe]
    exact (htake.split b).2
  have hcuts : ∀ unit ∈ ((decodeUtf8Units text).take e).drop b, IsCut text unit.offset :=
    fun unit hunit => isCut_of_mem (List.mem_of_mem_take (List.mem_of_mem_drop hunit))
  unfold groupUnitRange
  generalize ((decodeUtf8Units text).take e).drop b = units at hfollow hcuts
  cases units with
  | nil => exact ⟨hfollow, .nil, fun _ h => absurd h List.not_mem_nil,
      fun _ h => absurd h List.not_mem_nil⟩
  | cons unit units =>
    obtain ⟨hoffset, hpos, hle, hrest⟩ := hfollow
    rw [← hoffset] at hle hrest ⊢
    have hfirst : (Grouping.add text ⟨[], ⟨kindFor unit.codePoint, [], unit.offset⟩, unit.offset⟩
        unit).Inv text unit.offset [unit] (unit.offset + unit.byteLength) := by
      unfold Grouping.add
      rw [if_neg (not_not.mpr rfl)]
      refine ⟨rfl, rfl, Nat.lt_add_of_pos_right hpos, hle, List.isChain_singleton _,
        fun _ h => absurd h List.not_mem_nil, hcuts unit List.mem_cons_self, fun u hu => ?_⟩
      obtain rfl := List.mem_singleton.mp hu
      exact Or.inr ⟨rfl, le_rfl, le_rfl⟩
    exact (hfirst.foldl hrest (fun u hu => hcuts u (List.mem_cons_of_mem _ hu))).push

/-- **The chunks of a whole text.** -/
theorem chunked_groupLiveConversionChunks (text : Bytes) :
    Chunked text 0 (decodeUtf8Units text) (groupLiveConversionChunks text) text.length := by
  have hchunks := chunked_groupUnitRange text (Nat.zero_le (decodeUtf8Units text).length)
  have hfirst : unitOffsetOrEnd (decodeUtf8Units text) 0 text.length = 0 := by
    rw [unitOffsetOrEnd_eq]
    rfl
  have hlast : unitOffsetOrEnd (decodeUtf8Units text) (decodeUtf8Units text).length text.length
      = text.length := by
    unfold unitOffsetOrEnd
    rw [List.getElem?_eq_none le_rfl]
    rfl
  rw [hfirst, hlast, List.take_length, List.drop_zero] at hchunks
  exact hchunks

/-! ## The plan -/

/-- **What two lists have in common**: they begin with the same `p` elements
and end with the same `s` of the others, and not with more. -/
structure Common (lhs rhs : List Bytes) (p s : ℕ) : Prop where
  le_left : p + s ≤ lhs.length
  le_right : p + s ≤ rhs.length
  begin_eq : lhs.take p = rhs.take p
  end_eq : lhs.drop (lhs.length - s) = rhs.drop (rhs.length - s)
  begin_max : ∀ k ≤ lhs.length, k ≤ rhs.length → lhs.take k = rhs.take k → k ≤ p
  end_max : ∀ k, p + k ≤ lhs.length → p + k ≤ rhs.length →
    lhs.drop (lhs.length - k) = rhs.drop (rhs.length - k) → k ≤ s

/-- The last elements, from behind. -/
theorem take_reverse_drop {α : Type} (xs : List α) {p k : ℕ} (h : p + k ≤ xs.length) :
    (xs.drop p).reverse.take k = (xs.drop (xs.length - k)).reverse := by
  rw [List.take_reverse, List.drop_drop, List.length_drop]
  congr 2
  omega

/-- **The two counts find what the texts have in common.** -/
theorem common_units (previousText currentText : Bytes) :
    Common (unitTexts previousText) (unitTexts currentText)
      (commonPrefixUnits previousText (decodeUtf8Units previousText) currentText
        (decodeUtf8Units currentText))
      (commonSuffixUnits previousText (decodeUtf8Units previousText) currentText
        (decodeUtf8Units currentText)
        (commonPrefixUnits previousText (decodeUtf8Units previousText) currentText
          (decodeUtf8Units currentText))) := by
  have hsame := @octets_eq_of_same previousText currentText
  have hback : ∀ a ∈ decodeUtf8Units previousText, ∀ b ∈ decodeUtf8Units currentText,
      a.octets previousText = b.octets currentText →
        sameUtf8Unit previousText currentText a b = true :=
    fun a ha b hb => same_of_octets_eq ha hb
  unfold unitTexts commonSuffixUnits commonPrefixUnits
  generalize decodeUtf8Units previousText = lhs at hback ⊢
  generalize decodeUtf8Units currentText = rhs at hback ⊢
  obtain ⟨htake, hleft, hright⟩ := take_countWhile hsame lhs rhs
  have hmax : ∀ k ≤ lhs.length, k ≤ rhs.length →
      (lhs.map (Utf8Unit.octets previousText)).take k
        = (rhs.map (Utf8Unit.octets currentText)).take k →
      k ≤ countWhile (sameUtf8Unit previousText currentText) lhs rhs :=
    fun k hl hr heq => le_countWhile lhs rhs hback hl hr heq
  generalize countWhile (sameUtf8Unit previousText currentText) lhs rhs = p
    at htake hleft hright hmax ⊢
  obtain ⟨htake', hleft', hright'⟩ :=
    take_countWhile hsame (lhs.drop p).reverse (rhs.drop p).reverse
  rw [List.length_reverse, List.length_drop] at hleft' hright'
  refine ⟨?_, ?_, htake, ?_, ?_, ?_⟩
  · rw [List.length_map]
    omega
  · rw [List.length_map]
    omega
  · -- read from behind, the counted units are the last ones of both
    rw [List.map_reverse, List.map_reverse, List.map_drop, List.map_drop,
      take_reverse_drop _ (by rw [List.length_map]; omega),
      take_reverse_drop _ (by rw [List.length_map]; omega)] at htake'
    exact List.reverse_injective htake'
  · intro k hl hr heq
    rw [List.length_map] at hl hr
    exact hmax k hl hr heq
  · intro k hl hr heq
    refine le_countWhile (lhs.drop p).reverse (rhs.drop p).reverse
      (fun a ha b hb => hback a (List.mem_of_mem_drop (List.mem_reverse.mp ha)) b
        (List.mem_of_mem_drop (List.mem_reverse.mp hb))) ?_ ?_ ?_
    · rw [List.length_reverse, List.length_drop]
      rw [List.length_map] at hl
      omega
    · rw [List.length_reverse, List.length_drop]
      rw [List.length_map] at hr
      omega
    · rw [List.map_reverse, List.map_reverse, List.map_drop, List.map_drop,
        take_reverse_drop _ hl, take_reverse_drop _ hr, heq]

/-- The text before a cut. -/
theorem take_sizeBefore (texts : List Bytes) (i : ℕ) :
    texts.flatten.take (sizeBefore texts i) = (texts.take i).flatten := by
  have hsplit : texts.flatten = (texts.take i).flatten ++ (texts.drop i).flatten := by
    rw [← List.flatten_append, List.take_append_drop]
  rw [hsplit]
  exact List.take_left

/-- The text after a cut. -/
theorem drop_sizeBefore (texts : List Bytes) (i : ℕ) :
    texts.flatten.drop (sizeBefore texts i) = (texts.drop i).flatten := by
  have hsplit : texts.flatten = (texts.take i).flatten ++ (texts.drop i).flatten := by
    rw [← List.flatten_append, List.take_append_drop]
  rw [hsplit]
  exact List.drop_left

/-- Later cuts are further on. -/
theorem sizeBefore_mono (texts : List Bytes) {i j : ℕ} (h : i ≤ j) :
    sizeBefore texts i ≤ sizeBefore texts j := by
  unfold sizeBefore
  obtain ⟨k, rfl⟩ := Nat.exists_eq_add_of_le h
  rw [List.take_add, List.flatten_append, List.length_append]
  exact Nat.le_add_right _ _

/-- The units of a text are the text. -/
theorem flatten_unitTexts (text : Bytes) : (unitTexts text).flatten = text := by
  have h := (follow_decodeUtf8Units text).flatMap_octets
  rw [Nat.sub_zero, List.flatMap_def] at h
  unfold unitTexts
  rw [h, substr, List.drop_zero, List.take_length]

/-- **What a plan is.** The new text is the old one with one range replaced by a
range of the new one; both ranges are what lies between the units that the texts
have in common, and chunks tile the new text and its range. -/
structure LiveConversionChunkPlan.Spec (previousText currentText : Bytes)
    (plan : LiveConversionChunkPlan) : Prop where
  old_le : plan.replaceOldBeginByte ≤ plan.replaceOldEndByte
    ∧ plan.replaceOldEndByte ≤ previousText.length
  new_le : plan.replaceNewBeginByte ≤ plan.replaceNewEndByte
    ∧ plan.replaceNewEndByte ≤ currentText.length
  replaced : previousText.take plan.replaceOldBeginByte
      ++ substr currentText plan.replaceNewBeginByte
        (plan.replaceNewEndByte - plan.replaceNewBeginByte)
      ++ previousText.drop plan.replaceOldEndByte = currentText
  bytes : plan.unchangedPrefixBytes + (plan.replaceNewEndByte - plan.replaceNewBeginByte)
    + plan.unchangedSuffixBytes = currentText.length
  chunks : Chunked currentText 0 (decodeUtf8Units currentText) plan.chunks currentText.length
  cuts : IsCut previousText plan.replaceOldBeginByte ∧ IsCut previousText plan.replaceOldEndByte
    ∧ IsCut currentText plan.replaceNewBeginByte ∧ IsCut currentText plan.replaceNewEndByte
  shortest : ∃ p s, Common (unitTexts previousText) (unitTexts currentText) p s
    ∧ plan.replaceOldBeginByte = sizeBefore (unitTexts previousText) p
    ∧ plan.replaceOldEndByte
      = sizeBefore (unitTexts previousText) ((unitTexts previousText).length - s)
    ∧ plan.replaceNewBeginByte = sizeBefore (unitTexts currentText) p
    ∧ plan.replaceNewEndByte
      = sizeBefore (unitTexts currentText) ((unitTexts currentText).length - s)
    ∧ Chunked currentText plan.replaceNewBeginByte
      (((decodeUtf8Units currentText).take ((decodeUtf8Units currentText).length - s)).drop p)
      plan.replacementChunks plan.replaceNewEndByte

/-- **Every plan is one**, for any two texts, and no cut of a text is inside of
a character. -/
theorem computeLiveConversionChunkPlan_spec (previousText currentText : Bytes) :
    (computeLiveConversionChunkPlan previousText currentText).Spec previousText currentText
      ∧ ∀ text n, IsCut text n → ¬ Inside text n := by
  refine ⟨?_, fun text n => not_inside_of_isCut⟩
  have hcommon := common_units previousText currentText
  unfold computeLiveConversionChunkPlan
  dsimp only
  generalize commonPrefixUnits previousText (decodeUtf8Units previousText) currentText
    (decodeUtf8Units currentText) = p at hcommon ⊢
  generalize commonSuffixUnits previousText (decodeUtf8Units previousText) currentText
    (decodeUtf8Units currentText) p = s at hcommon ⊢
  have hleft := hcommon.le_left
  have hright := hcommon.le_right
  have hprevious := flatten_unitTexts previousText
  have hcurrent := flatten_unitTexts currentText
  have hoffset : ∀ text i, unitOffsetOrEnd (decodeUtf8Units text) i text.length
      = sizeBefore (unitTexts text) i := unitOffsetOrEnd_eq
  have hcount : ∀ text, (decodeUtf8Units text).length = (unitTexts text).length := by
    intro text
    unfold unitTexts
    rw [List.length_map]
  have hwhole : ∀ text, sizeBefore (unitTexts text) (unitTexts text).length = text.length := by
    intro text
    unfold sizeBefore
    rw [List.take_length, flatten_unitTexts]
  have hchunks := chunked_groupLiveConversionChunks currentText
  have hreplacement := chunked_groupUnitRange currentText
    (by rw [hcount]; omega : p ≤ (decodeUtf8Units currentText).length - s)
  have hcuts : ∀ text i, IsCut text (sizeBefore (unitTexts text) i) :=
    fun text i => ⟨i, (hoffset text i).symm⟩
  rw [hoffset, hoffset] at hreplacement
  rw [hoffset, hoffset, hoffset, hoffset, hcount, hcount]
  unfold groupLiveConversionChunks at hchunks
  rw [hcount] at hchunks hreplacement
  have hold := sizeBefore_mono (unitTexts previousText)
    (by omega : p ≤ (unitTexts previousText).length - s)
  have hnew := sizeBefore_mono (unitTexts currentText)
    (by omega : p ≤ (unitTexts currentText).length - s)
  have holdLe := sizeBefore_mono (unitTexts previousText)
    (Nat.sub_le (unitTexts previousText).length s)
  have hnewLe := sizeBefore_mono (unitTexts currentText)
    (Nat.sub_le (unitTexts currentText).length s)
  rw [hwhole] at holdLe hnewLe
  refine ⟨⟨hold, holdLe⟩, ⟨hnew, hnewLe⟩, ?_, ?_, hchunks, ⟨hcuts _ _, hcuts _ _, hcuts _ _, hcuts _ _⟩,
    p, s, hcommon, rfl, rfl, rfl, rfl, ?_⟩
  · -- the units in common are the same in both texts
    have hbegin : previousText.take (sizeBefore (unitTexts previousText) p)
        = currentText.take (sizeBefore (unitTexts currentText) p) := by
      have h := take_sizeBefore (unitTexts previousText) p
      have h' := take_sizeBefore (unitTexts currentText) p
      rw [hprevious] at h
      rw [hcurrent] at h'
      rw [h, h', hcommon.begin_eq]
    have hend : previousText.drop
          (sizeBefore (unitTexts previousText) ((unitTexts previousText).length - s))
        = currentText.drop
          (sizeBefore (unitTexts currentText) ((unitTexts currentText).length - s)) := by
      have h := drop_sizeBefore (unitTexts previousText) ((unitTexts previousText).length - s)
      have h' := drop_sizeBefore (unitTexts currentText) ((unitTexts currentText).length - s)
      rw [hprevious] at h
      rw [hcurrent] at h'
      rw [h, h', hcommon.end_eq]
    dsimp only
    rw [hbegin, hend]
    unfold substr
    rw [← List.take_add, Nat.add_sub_cancel' hnew, List.take_append_drop]
  · dsimp only
    omega
  · rw [hcount]
    exact hreplacement

end AzooKey.Core

import AzooKey.Core.InputStateBackspace
import AzooKey.Core.MixedRomajiBest
import AzooKey.Core.Utf8Readers

/-!
# Readable words in Japanese segments

`SplitMixedRomaji` and `ReadableEnglishAlternatives` of
`core/src/MixedRomajiSplitter.cpp`. A Japanese segment of the split that was adopted
may hold a common English word that also reads as kana; each such word is offered as
an alternative in which it stands as an English segment, with what is left of the
Japanese one before and behind it.

The source only checks that the pieces cost no more than the segment, and that their
kana are its kana. That they cost no less follows: letters and capitals add up, and
a kana that is natural behind another one can only become unnatural where the word is
cut out (`countUnnaturalKana_append_le`). So an alternative costs what the adopted split
costs and its word (`alternatives_spec`).

The cost of the adopted split is the one of its path where the lattice found it. A
composition that is judged as a whole has the cost 0 whatever its letters are, and
its alternatives start from there.
-/

namespace AzooKey.Core.MixedRomajiSplitter

open Dictionary

/-! ## The splits of a composition -/

/-- `IsPrintableAscii`. -/
def isPrintableAscii (c : UInt8) : Bool := 0x20 < c && c ≤ 0x7e

/-- `HasEnglishEdge`. -/
def Lattice.hasEnglishEdge (l : Lattice) : Bool :=
  (List.range l.size).any (fun start => !(l.englishEdges start).isEmpty)

/-- A segment of a whole composition. -/
def wholeSegment (raw : Bytes) (kind : MixedRomajiSegmentKind) (kana surface : Bytes)
    (confidence : EnglishSegmentConfidence) : MixedRomajiSegment :=
  ⟨kind, 0, raw.length, kana, surface, confidence⟩

/-- `SplitMixedRomaji` from section 6.1 on: the composition as one segment. -/
def wholeSplit (raw : Bytes) (options : MixedRomajiSplitOptions) : MixedRomajiSplit :=
  let lower := lowered raw
  if hasAsciiLetter lower && decide (options.minEnglishLength ≤ raw.length)
      && isAsciiUpper (raw.headD 0) then
    ⟨[wholeSegment raw .english [] raw .high], 0⟩
  else ⟨[wholeSegment raw .japanese (convertForCommit lower) [] .low], 0⟩

/-- **`SplitMixedRomaji`**, with a number of rounds that each trace may take. The lookup
may be an empty function. -/
def splitMixedRomaji (rounds : ℕ) (raw : Bytes) (lookup : Option EnglishWordLookup)
    (options : MixedRomajiSplitOptions) : Option (List MixedRomajiSplit) :=
  if raw = [] ∨ options.maxRawLength < raw.length ∨ options.maxSplits = 0
      ∨ raw.all isPrintableAscii = false then some []
  else
    let lower := lowered raw
    let hasLetter := hasAsciiLetter lower
    let shiftFirst := isAsciiUpper (raw.headD 0)
    let found :=
      if hasLetter && decide (options.minEnglishLength ≤ raw.length) then
        lookup.elim [] (fun lookup => lookup lower)
      else []
    match found with
    | front :: _ =>
      let surface := if raw.any isAsciiUpper then raw else front.surface
      let confidence := if shiftFirst || hasAsciiLetter (convertForCommit lower) then
        EnglishSegmentConfidence.high else .low
      some [⟨[wholeSegment raw .english [] surface confidence], 0⟩]
    | [] =>
      match lookup with
      | none => some [wholeSplit raw options]
      | some lookup =>
        let lattice := latticeOf raw lookup options
        if options.splitInline && hasLetter && lattice.hasEnglishEdge then
          (lattice.best rounds).map (fun splits =>
            let anyEnglish := splits.head?.any (fun split =>
              split.segments.any (fun segment => segment.kind = .english))
            if anyEnglish || !shiftFirst then splits else [wholeSplit raw options])
        else some [wholeSplit raw options]

/-! ## The alternatives -/

/-- `MixedRomajiAlternative`. -/
structure MixedRomajiAlternative where
  split : MixedRomajiSplit
  englishSegment : ℕ
deriving DecidableEq

/-- The shortest readable word. -/
def minReadableLength (options : MixedRomajiSplitOptions) : ℕ :=
  max options.minReadableEnglishLength options.minInlineEnglishLength

/-- The cost of a boundary in front of a Japanese segment. -/
def costBefore (lower : Bytes) (start : ℕ) : ℚ := if 0 < start then boundaryCost lower start else 0

/-- The Japanese piece of a range, if there is one. -/
def piece (l : Lattice) (start stop : ℕ) : List MixedRomajiSegment :=
  if start < stop then [l.japaneseSegment start stop] else []

/-- The word of an alternative. -/
def wordSegment (start stop : ℕ) (surface : Bytes) : MixedRomajiSegment :=
  ⟨.english, start, stop, [], surface, .low⟩

/-- The alternative with a word in the segment at an index, if the word fits there. -/
def alternativeAt (l : Lattice) (lookup : EnglishWordLookup) (adopted : MixedRomajiSplit)
    (index : ℕ) (segment : MixedRomajiSegment) (start stop : ℕ) : Option MixedRomajiAlternative :=
  let s := segment.rawBegin
  let t := segment.rawEnd
  let adoptedCost := costBefore l.lower s + japaneseEdgeCost l.raw l.lower s t
  let head := convertForCommit (rangeOf l.lower s start)
  let headCost :=
    if s < start then costBefore l.lower s + japaneseEdgeCost l.raw l.lower s start else 0
  let key := rangeOf l.lower start stop
  let kana := convertForCommit key
  let tail := convertForCommit (rangeOf l.lower stop t)
  let tailCost := if stop < t then japaneseEdgeCost l.raw l.lower stop t else 0
  if hasAsciiLetter kana then none
  else if countUnnaturalKana kana ≠ 0 then none
  else if head ++ kana ++ tail ≠ convertForCommit (rangeOf l.lower s t) then none
  else if adoptedCost < headCost + tailCost then none
  else if !(lookup key).any (fun word => word.flags == 0 && word.surface == key) then none
  else
    (lookup key).head?.map fun front =>
      let before := adopted.segments.take index ++ piece l s start
      ⟨⟨before ++ wordSegment start stop front.surface :: piece l stop t
            ++ adopted.segments.drop (index + 1),
          adopted.cost - adoptedCost + headCost + tailCost
            + englishEdgeCost (lengthFrom start stop) true false⟩,
        before.length⟩

/-- The loop over the ends of a word. -/
def alternativesFrom (l : Lattice) (lookup : EnglishWordLookup) (adopted : MixedRomajiSplit)
    (index : ℕ) (segment : MixedRomajiSegment) (start : ℕ) : List ℕ → List MixedRomajiAlternative
  | [] => []
  | stop :: stops =>
    let rest := alternativesFrom l lookup adopted index segment start stops
    if start = 0 ∧ stop = l.size then rest
    else if stop < segment.rawEnd ∧ boundaryCost l.lower stop ≠ 0 then rest
    else if (rangeOf l.raw start stop).any isAsciiUpper then []
    else (alternativeAt l lookup adopted index segment start stop).toList ++ rest

/-- The loop over the begins of a word in a segment. -/
def alternativesIn (l : Lattice) (lookup : EnglishWordLookup) (adopted : MixedRomajiSplit)
    (index : ℕ) (segment : MixedRomajiSegment) : List MixedRomajiAlternative :=
  let s := segment.rawBegin
  let t := segment.rawEnd
  if segment.kind ≠ .japanese ∨ l.size < t ∨ t ≤ s then []
  else
    (List.range' s (t - s)).flatMap fun start =>
      if start = s ∧ costBefore l.lower s ≠ 0 then []
      else
        let first := sizeT (start + minReadableLength l.options)
        let last := min t (sizeT (start + l.options.maxInlineEnglishLength))
        alternativesFrom l lookup adopted index segment start (List.range' first (last + 1 - first))

/-- **`ReadableEnglishAlternatives`.** -/
def readableEnglishAlternatives (raw : Bytes) (adopted : MixedRomajiSplit)
    (lookup : Option EnglishWordLookup) (options : MixedRomajiSplitOptions) :
    List MixedRomajiAlternative :=
  match lookup with
  | none => []
  | some lookup =>
    if options.splitInline = false ∨ raw = [] ∨ options.maxRawLength < raw.length
        ∨ raw.all isPrintableAscii = false then []
    else
      let l := latticeOf raw lookup options
      let all := adopted.segments.zipIdx.flatMap fun item => alternativesIn l lookup adopted item.2 item.1
      if options.maxSplits = 0 then all else all.take options.maxSplits

/-! ## A word of four letters -/

/-- A dictionary of one word, `kite`. -/
def kiteLookup : EnglishWordLookup := fun key =>
  if key = [0x6b, 0x69, 0x74, 0x65] then [⟨key, 0⟩] else []

/-- `Akite`, where a word with a capital has six letters at least. -/
def kiteOptions : MixedRomajiSplitOptions := { splitInline := true, minEnglishLength := 6 }

/-- The split of `Akite`, and its one alternative. -/
def kiteSplit : MixedRomajiSplit := ⟨[⟨.japanese, 0, 5, utf8 "あきて", [], .low⟩], 0⟩

def kiteAlternative : MixedRomajiAlternative :=
  ⟨⟨[⟨.japanese, 0, 1, utf8 "あ", [], .low⟩, ⟨.english, 1, 5, [], [0x6b, 0x69, 0x74, 0x65], .low⟩],
    14 / 5⟩, 1⟩

/-- They are what is computed, and the cost of the alternative is not that of its path. -/
theorem kite_computed :
    splitMixedRomaji 5 [0x41, 0x6b, 0x69, 0x74, 0x65] (some kiteLookup) kiteOptions = some [kiteSplit]
      ∧ kiteAlternative ∈ readableEnglishAlternatives [0x41, 0x6b, 0x69, 0x74, 0x65] kiteSplit
        (some kiteLookup) kiteOptions
      ∧ kiteAlternative.split.cost
        ≠ (latticeOf [0x41, 0x6b, 0x69, 0x74, 0x65] kiteLookup kiteOptions).pathCost
          kiteAlternative.split.segments := by
  decide +kernel

/-! ## The kana of a text -/

/-- Feeding ASCII to a steady converter prints a text. -/
theorem validUtf8_feedAll {c : RomajiKanaConverter} (hc : c.Steady) {ascii : Bytes}
    (h : Ascii ascii) :
    (c.feedAll ascii).1.Steady ∧ ValidUtf8 (c.feedAll ascii).2 := by
  induction ascii generalizing c with
  | nil => exact ⟨hc, .nil⟩
  | cons raw ascii ih =>
    obtain ⟨hsteady, hfirst⟩ := hc.feed (h raw List.mem_cons_self)
    obtain ⟨hlast, hrest⟩ := ih hsteady (fun b hb => h b (List.mem_cons_of_mem _ hb))
    exact ⟨hlast, hfirst.append hrest⟩

/-- The kana of ASCII letters are a text. -/
theorem validUtf8_convertForCommit {text : Bytes} (h : Ascii text) :
    ValidUtf8 (convertForCommit text) := by
  obtain ⟨hsteady, hout⟩ := validUtf8_feedAll (RomajiKanaConverter.steady_of_nil (c := {}) rfl) h
  exact hout.append hsteady.flush.2

/-- One kana is counted after the one before it. -/
theorem countUnnaturalKanaAfter_scalar {scalar : Bytes} (h : isScalar scalar = true)
    (previous : Option ℕ) (rest : Bytes) :
    countUnnaturalKanaAfter previous (scalar ++ rest)
      = (if isUnnatural previous (scalarValue scalar) then 1 else 0)
        + countUnnaturalKanaAfter (some (scalarValue scalar)) rest := by
  have hdecode := decodeNextUtf8_append h rest
  rw [countUnnaturalKanaAfter]
  split
  · next hnone => rw [hdecode] at hnone; cases hnone
  · next d hsome =>
    rw [hdecode] at hsome
    obtain rfl := Option.some.inj hsome
    rfl

/-- A kana that is natural behind nothing is natural behind another. -/
theorem isUnnatural_none {previous : Option ℕ} {c : ℕ} (h : isUnnatural previous c = true) :
    isUnnatural none c = true := by
  unfold isUnnatural at h ⊢
  show (_ || (_ && true) || (_ && true)) = true
  rw [Bool.or_eq_true, Bool.or_eq_true, Bool.and_eq_true, Bool.and_eq_true] at h
  rw [Bool.and_true, Bool.and_true, Bool.or_eq_true, Bool.or_eq_true]
  exact h.imp (Or.imp_right And.left) And.left

/-- The kana before a text can only make it more natural. -/
theorem countUnnaturalKanaAfter_le (previous : Option ℕ) {kana : Bytes} (h : ValidUtf8 kana) :
    countUnnaturalKanaAfter previous kana ≤ countUnnaturalKana kana := by
  unfold countUnnaturalKana
  cases h with
  | nil =>
    rw [countUnnaturalKanaAfter, countUnnaturalKanaAfter]
    exact le_refl _
  | cons hscalar hrest =>
    rw [countUnnaturalKanaAfter_scalar hscalar, countUnnaturalKanaAfter_scalar hscalar]
    refine Nat.add_le_add_right ?_ _
    split
    · next hunnatural => rw [if_pos (isUnnatural_none hunnatural)]
    · exact Nat.zero_le _

/-- **Cutting a text makes no kana natural.** -/
theorem countUnnaturalKana_append_le {before after : Bytes} (hbefore : ValidUtf8 before)
    (hafter : ValidUtf8 after) :
    countUnnaturalKana (before ++ after) ≤ countUnnaturalKana before + countUnnaturalKana after := by
  have hcut : ∀ previous, countUnnaturalKanaAfter previous (before ++ after)
      ≤ countUnnaturalKanaAfter previous before + countUnnaturalKana after := by
    induction hbefore with
    | nil =>
      intro previous
      exact (countUnnaturalKanaAfter_le previous hafter).trans (Nat.le_add_left _ _)
    | cons hscalar _ ih =>
      intro previous
      rw [List.append_assoc, countUnnaturalKanaAfter_scalar hscalar,
        countUnnaturalKanaAfter_scalar hscalar, Nat.add_assoc]
      exact Nat.add_le_add_left (ih _) _
  exact hcut none

/-! ## Cutting a range -/

/-- The length of a range. -/
theorem lengthFrom_eq {start stop : ℕ} (h : start ≤ stop) : lengthFrom start stop = stop - start :=
  if_pos h

/-- Two ranges that follow one another. -/
theorem rangeOf_append (text : Bytes) {a b c : ℕ} (hab : a ≤ b) (hbc : b ≤ c) :
    rangeOf text a b ++ rangeOf text b c = rangeOf text a c := by
  unfold rangeOf
  rw [lengthFrom_eq hab, lengthFrom_eq hbc, lengthFrom_eq (hab.trans hbc),
    show c - a = (b - a) + (c - b) by omega, List.take_add, List.drop_drop,
    show a + (b - a) = b by omega]

/-- A range is some of the letters. -/
theorem rangeOf_sublist (text : Bytes) (start stop : ℕ) : (rangeOf text start stop).Sublist text :=
  (List.take_sublist _ _).trans (List.drop_sublist _ _)

/-- An empty range. -/
theorem rangeOf_self (text : Bytes) (start : ℕ) : rangeOf text start start = [] := by
  unfold rangeOf
  rw [lengthFrom_eq (le_refl start), Nat.sub_self, List.take_zero]

/-- The first letter of a range. -/
theorem getD_mem_rangeOf {text : Bytes} {start stop : ℕ} (hlt : start < stop)
    (hstart : start < text.length) : text.getD start 0 ∈ rangeOf text start stop := by
  unfold rangeOf
  rw [lengthFrom_eq hlt.le, List.drop_eq_getElem_cons hstart, List.getD_eq_getElem _ _ hstart,
    show stop - start = (stop - start - 1) + 1 by omega, List.take_succ_cons]
  exact List.mem_cons_self

/-- An empty range costs nothing. -/
theorem japaneseEdgeCost_self (raw lower : Bytes) (start : ℕ) :
    japaneseEdgeCost raw lower start start = 0 := by
  have hnil : countUnnaturalKana [] = 0 := by
    rw [countUnnaturalKana, countUnnaturalKanaAfter]
    rfl
  unfold japaneseEdgeCost
  dsimp only
  rw [rangeOf_self, rangeOf_self, convertForCommit, RomajiKanaConverter.convertForCommit_nil, hnil,
    show countAsciiLetters [] = 0 from rfl, List.countP_nil]
  norm_num

/-- **What is left of a range around a word costs no less than the range**, where the
word is readable and natural, has no capitals, and the kana are the same. -/
theorem japaneseEdgeCost_le {raw lower : Bytes} {s start stop t : ℕ}
    (hascii : Ascii lower) (hs : s ≤ start) (hlt : start ≤ stop) (ht : stop ≤ t)
    (hletter : hasAsciiLetter (convertForCommit (rangeOf lower start stop)) = false)
    (hnatural : countUnnaturalKana (convertForCommit (rangeOf lower start stop)) = 0)
    (hupper : (rangeOf raw start stop).any isAsciiUpper = false)
    (hkana : convertForCommit (rangeOf lower s start) ++ convertForCommit (rangeOf lower start stop)
      ++ convertForCommit (rangeOf lower stop t) = convertForCommit (rangeOf lower s t)) :
    japaneseEdgeCost raw lower s t
      ≤ japaneseEdgeCost raw lower s start + japaneseEdgeCost raw lower stop t := by
  have hvalid : ∀ a b, ValidUtf8 (convertForCommit (rangeOf lower a b)) := fun a b =>
    validUtf8_convertForCommit (hascii.sublist (rangeOf_sublist lower a b))
  have hletters : countAsciiLetters (convertForCommit (rangeOf lower s t))
      = countAsciiLetters (convertForCommit (rangeOf lower s start))
        + countAsciiLetters (convertForCommit (rangeOf lower stop t)) := by
    have hnone : countAsciiLetters (convertForCommit (rangeOf lower start stop)) = 0 := by
      refine List.countP_eq_zero.mpr (fun c hc hlower => ?_)
      exact absurd (List.any_eq_true.mpr ⟨c, hc, hlower⟩) (by
        rw [show (convertForCommit (rangeOf lower start stop)).any isAsciiLower = false from hletter]
        exact Bool.false_ne_true)
    rw [← hkana]
    unfold countAsciiLetters at hnone ⊢
    rw [List.countP_append, List.countP_append, hnone, Nat.add_zero]
  have hkanas : countUnnaturalKana (convertForCommit (rangeOf lower s t))
      ≤ countUnnaturalKana (convertForCommit (rangeOf lower s start))
        + countUnnaturalKana (convertForCommit (rangeOf lower stop t)) := by
    rw [← hkana]
    refine (countUnnaturalKana_append_le ((hvalid _ _).append (hvalid _ _)) (hvalid _ _)).trans ?_
    refine Nat.add_le_add_right ((countUnnaturalKana_append_le (hvalid _ _) (hvalid _ _)).trans ?_) _
    rw [hnatural, Nat.add_zero]
  have huppers : (rangeOf raw s t).countP isAsciiUpper
      = (rangeOf raw s start).countP isAsciiUpper + (rangeOf raw stop t).countP isAsciiUpper := by
    have hnone : (rangeOf raw start stop).countP isAsciiUpper = 0 := by
      refine List.countP_eq_zero.mpr (fun c hc hcapital => ?_)
      exact absurd (List.any_eq_true.mpr ⟨c, hc, hcapital⟩) (by rw [hupper]; exact Bool.false_ne_true)
    rw [← rangeOf_append raw (hs.trans hlt) ht, ← rangeOf_append raw hs hlt, List.countP_append,
      List.countP_append, hnone, Nat.add_zero]
  have hkanas : ((countUnnaturalKana (convertForCommit (rangeOf lower s t)) : ℕ) : ℚ)
      ≤ (countUnnaturalKana (convertForCommit (rangeOf lower s start)) : ℚ)
        + (countUnnaturalKana (convertForCommit (rangeOf lower stop t)) : ℚ) := by
    exact_mod_cast hkanas
  unfold japaneseEdgeCost
  dsimp only
  rw [hletters, huppers]
  push_cast
  linarith

/-! ## Splicing -/

namespace Lattice

/-- Segments that follow one another, cut in two. -/
theorem tiles_append {p q : ℕ} {before after : List MixedRomajiSegment} :
    Tiles p (before ++ after) q ↔ ∃ m, Tiles p before m ∧ Tiles m after q := by
  induction before generalizing p with
  | nil => exact ⟨fun h => ⟨p, rfl, h⟩, fun ⟨_, heq, h⟩ => (show p = _ from heq) ▸ h⟩
  | cons first before ih =>
    show (_ ∧ _ ∧ Tiles first.rawEnd (before ++ after) q) ↔ ∃ m, (_ ∧ _ ∧ Tiles first.rawEnd before m) ∧ _
    rw [ih]
    exact ⟨fun ⟨hbegin, hlt, m, hbefore, hafter⟩ => ⟨m, ⟨hbegin, hlt, hbefore⟩, hafter⟩,
      fun ⟨m, ⟨hbegin, hlt, hbefore⟩, hafter⟩ => ⟨hbegin, hlt, m, hbefore, hafter⟩⟩

/-- The piece of a range fills the range. -/
theorem tiles_piece (l : Lattice) {start stop : ℕ} (h : start ≤ stop) :
    Tiles start (piece l start stop) stop := by
  unfold piece
  split
  · next hlt => exact ⟨rfl, hlt, rfl⟩
  · next hge => exact le_antisymm h (not_lt.mp hge)

/-- A piece in the place of a Japanese segment is apart from what is before it. -/
theorem apart_before {l : Lattice} {before : List MixedRomajiSegment} {s t : ℕ}
    (h : Apart (before ++ [l.japaneseSegment s t])) (a b : ℕ) : Apart (before ++ piece l a b) := by
  unfold piece
  split
  · exact apart_concat.mpr ⟨(apart_concat.mp h).1, (apart_concat.mp h).2⟩
  · rw [List.append_nil]
    exact (apart_concat.mp h).1

/-- A piece in the place of a Japanese segment is apart from what is behind it. -/
theorem apart_after {l : Lattice} {after : List MixedRomajiSegment} {s t : ℕ}
    (h : Apart (l.japaneseSegment s t :: after)) (a b : ℕ) : Apart (piece l a b ++ after) := by
  unfold Apart at h ⊢
  rw [List.isChain_cons] at h
  unfold piece
  split
  · exact List.isChain_cons.mpr h
  · exact h.2

/-- The cost of two paths, one behind the other. -/
theorem pathCost_append (l : Lattice) (before after : List MixedRomajiSegment) :
    l.pathCost (before ++ after) = l.pathCost before + l.pathCost after := by
  unfold pathCost
  rw [List.map_append, List.sum_append]

/-- The cost of a piece. -/
theorem pathCost_piece (l : Lattice) (start stop : ℕ) :
    l.pathCost (piece l start stop)
      = if start < stop then
          costBefore l.lower start + japaneseEdgeCost l.raw l.lower start stop
        else 0 := by
  unfold piece
  split
  · show (_ + _ : ℚ) + 0 = _
    rw [add_zero]
    rfl
  · rfl

/-- **A word in a Japanese segment**: the segment has been replaced by the word and by
what is left of the segment before and behind it, the kana are the same, and the word
is all that the split costs more. -/
structure PutsIn (l : Lattice) (adopted : MixedRomajiSplit) (alternative : MixedRomajiAlternative)
    (before after : List MixedRomajiSegment) (s t start stop : ℕ) (surface : Bytes) : Prop where
  adopted_eq : adopted.segments = before ++ l.japaneseSegment s t :: after
  begin_le : s ≤ start
  lt : start < stop
  le_end : stop ≤ t
  segments_eq : alternative.split.segments
    = (before ++ piece l s start) ++ wordSegment start stop surface :: (piece l stop t ++ after)
  englishSegment_eq : alternative.englishSegment = (before ++ piece l s start).length
  kana_eq : (piece l s start).flatMap MixedRomajiSegment.kana
    ++ convertForCommit (rangeOf l.lower start stop)
    ++ (piece l stop t).flatMap MixedRomajiSegment.kana = (l.japaneseSegment s t).kana
  pieces_cost : l.pathCost (piece l s start) + l.pathCost (piece l stop t)
    = l.segmentCost (l.japaneseSegment s t)
  cost_eq : alternative.split.cost
    = adopted.cost + englishEdgeCost (stop - start) true false

/-- The kana of a piece. -/
theorem kana_piece (l : Lattice) {start stop : ℕ} (h : start ≤ stop) :
    (piece l start stop).flatMap MixedRomajiSegment.kana
      = convertForCommit (rangeOf l.lower start stop) := by
  unfold piece
  split
  · exact List.append_nil _
  · next hge =>
    rw [le_antisymm h (not_lt.mp hge), rangeOf_self, convertForCommit,
      RomajiKanaConverter.convertForCommit_nil]
    rfl

/-- What is spliced in fills the place of the segment, and is apart from what is around
it. -/
theorem PutsIn.spliced {l : Lattice} {adopted : MixedRomajiSplit}
    {alternative : MixedRomajiAlternative} {before after : List MixedRomajiSegment}
    {s t start stop : ℕ} {surface : Bytes}
    (h : l.PutsIn adopted alternative before after s t start stop surface)
    (hadopted : l.Admissible adopted.segments) :
    Tiles 0 alternative.split.segments l.size ∧ Apart alternative.split.segments := by
  obtain ⟨htiles, hapart, -⟩ := hadopted
  rw [h.adopted_eq] at htiles hapart
  rw [h.segments_eq]
  refine ⟨?_, ?_⟩
  · obtain ⟨m, hbefore, hbegin, -, hafter⟩ := tiles_append.mp htiles
    obtain rfl : s = m := hbegin
    refine tiles_append.mpr ⟨start, tiles_append.mpr ⟨s, hbefore, tiles_piece l h.begin_le⟩, rfl,
      h.lt, tiles_append.mpr ⟨t, tiles_piece l h.le_end, hafter⟩⟩
  · obtain ⟨hbefore, hafter⟩ := List.isChain_split.mp hapart
    refine List.isChain_split.mpr ⟨apart_concat.mpr ⟨apart_before hbefore s start,
      fun _ _ => Or.inr rfl⟩, List.isChain_cons.mpr ⟨fun _ _ => Or.inl rfl, apart_after hafter stop t⟩⟩

/-- **Where the word is an edge, what is spliced in is made of edges**, and the path
costs the word more. -/
theorem PutsIn.admissible {l : Lattice} {adopted : MixedRomajiSplit}
    {alternative : MixedRomajiAlternative} {before after : List MixedRomajiSegment}
    {s t start stop : ℕ} {surface : Bytes}
    (h : l.PutsIn adopted alternative before after s t start stop surface)
    (hadopted : l.Admissible adopted.segments) (ht : t ≤ l.size)
    (hword : l.IsSegment (wordSegment start stop surface)) :
    l.Admissible alternative.split.segments
      ∧ l.pathCost alternative.split.segments
        = l.pathCost adopted.segments + l.segmentCost (wordSegment start stop surface) := by
  have hpiece : ∀ a b, b ≤ t → ∀ segment ∈ piece l a b, l.IsSegment segment := by
    intro a b hb segment hsegment
    unfold piece at hsegment
    split at hsegment
    · next hab =>
      rw [List.mem_singleton.mp hsegment]
      exact .japanese hab (hb.trans ht)
    · exact absurd hsegment List.not_mem_nil
  have hedges := hadopted.edges
  rw [h.adopted_eq] at hedges
  refine ⟨⟨(h.spliced hadopted).1, (h.spliced hadopted).2, fun segment hsegment => ?_⟩, ?_⟩
  · rw [h.segments_eq] at hsegment
    obtain hsegment | hsegment := List.mem_append.mp hsegment
    · obtain hsegment | hsegment := List.mem_append.mp hsegment
      · exact hedges segment (List.mem_append_left _ hsegment)
      · exact hpiece s start (h.lt.le.trans h.le_end) segment hsegment
    · obtain rfl | hsegment := List.mem_cons.mp hsegment
      · exact hword
      obtain hsegment | hsegment := List.mem_append.mp hsegment
      · exact hpiece stop t (le_refl t) segment hsegment
      · exact hedges segment (List.mem_append_right _ (List.mem_cons_of_mem _ hsegment))
  · rw [h.segments_eq, h.adopted_eq, pathCost_append, pathCost_append, pathCost_append, pathCost_cons,
      pathCost_cons, pathCost_append, ← h.pieces_cost]
    ring

end Lattice

/-! ## The checks of an alternative -/

namespace Lattice

/-- **What the source checks is enough**: the word is put in the segment. -/
theorem putsIn_of_alternativeAt {l : Lattice} {lookup : EnglishWordLookup}
    {adopted : MixedRomajiSplit} {index s t start stop : ℕ} {alternative : MixedRomajiAlternative}
    (hascii : Ascii l.lower) (hsegment : adopted.segments[index]? = some (l.japaneseSegment s t))
    (hs : s ≤ start) (hlt : start < stop) (ht : stop ≤ t)
    (hfront : ¬ (start = s ∧ costBefore l.lower s ≠ 0))
    (hback : ¬ (stop < t ∧ boundaryCost l.lower stop ≠ 0))
    (hupper : (rangeOf l.raw start stop).any isAsciiUpper = false)
    (h : alternativeAt l lookup adopted index (l.japaneseSegment s t) start stop = some alternative) :
    ∃ front, (lookup (rangeOf l.lower start stop)).head? = some front
      ∧ hasAsciiLetter (convertForCommit (rangeOf l.lower start stop)) = false
      ∧ l.PutsIn adopted alternative (adopted.segments.take index)
        (adopted.segments.drop (index + 1)) s t start stop front.surface := by
  -- the cost of the pieces, where there may be none
  have hheadCost : (if s < start then
        costBefore l.lower s + japaneseEdgeCost l.raw l.lower s start else 0)
      = costBefore l.lower s + japaneseEdgeCost l.raw l.lower s start := by
    by_cases hbegin : s < start
    · exact if_pos hbegin
    · obtain rfl : start = s := le_antisymm (not_lt.mp hbegin) hs
      rw [if_neg hbegin, japaneseEdgeCost_self, add_zero]
      by_contra hne
      exact hfront ⟨rfl, fun hzero => hne hzero.symm⟩
  have htailCost : (if stop < t then japaneseEdgeCost l.raw l.lower stop t else 0)
      = japaneseEdgeCost l.raw l.lower stop t := by
    by_cases hend : stop < t
    · exact if_pos hend
    · rw [if_neg hend, le_antisymm ht (not_lt.mp hend), japaneseEdgeCost_self]
  have hbehind : (if stop < t then costBefore l.lower stop + japaneseEdgeCost l.raw l.lower stop t
      else 0) = japaneseEdgeCost l.raw l.lower stop t := by
    by_cases hend : stop < t
    · have hzero : boundaryCost l.lower stop = 0 := by
        by_contra hne
        exact hback ⟨hend, hne⟩
      rw [if_pos hend, costBefore, hzero, ite_self, zero_add]
    · rw [← htailCost, if_neg hend, if_neg hend]
  unfold alternativeAt at h
  dsimp only [japaneseSegment] at h
  rw [hheadCost, htailCost] at h
  split_ifs at h with hletter hnatural hkana hcost hcommon
  obtain ⟨front, hhead, rfl⟩ := Option.map_eq_some_iff.mp h
  rw [Bool.not_eq_true] at hletter
  rw [not_not] at hnatural hkana
  have hle := @japaneseEdgeCost_le l.raw _ _ _ _ _ hascii hs hlt.le ht hletter hnatural hupper hkana
  have hpieces : japaneseEdgeCost l.raw l.lower s start + japaneseEdgeCost l.raw l.lower stop t
      = japaneseEdgeCost l.raw l.lower s t := by
    refine le_antisymm ?_ hle
    have := not_lt.mp hcost
    linarith
  obtain ⟨hindex, hget⟩ := List.getElem?_eq_some_iff.mp hsegment
  refine ⟨front, hhead, hletter, ⟨?_, hs, hlt, ht, ?_, rfl, ?_, ?_, ?_⟩⟩
  · rw [← hget, ← List.drop_eq_getElem_cons hindex, List.take_append_drop]
  · show _ ++ _ :: piece l stop t ++ _ = _
    rw [List.append_assoc]
    rfl
  · rw [kana_piece l hs, kana_piece l ht]
    exact hkana
  · rw [pathCost_piece, pathCost_piece, hheadCost, hbehind]
    show _ = costBefore l.lower s + japaneseEdgeCost l.raw l.lower s t
    linarith
  · show adopted.cost - _ + _ + _ + englishEdgeCost (lengthFrom start stop) true false = _
    rw [lengthFrom_eq hlt.le]
    linarith

/-- An alternative is one of a word that ends where the loop stops. -/
theorem mem_alternativesFrom {l : Lattice} {lookup : EnglishWordLookup} {adopted : MixedRomajiSplit}
    {index start : ℕ} {segment : MixedRomajiSegment} {stops : List ℕ}
    {alternative : MixedRomajiAlternative}
    (h : alternative ∈ alternativesFrom l lookup adopted index segment start stops) :
    ∃ stop ∈ stops, ¬ (stop < segment.rawEnd ∧ boundaryCost l.lower stop ≠ 0)
      ∧ (rangeOf l.raw start stop).any isAsciiUpper = false
      ∧ alternativeAt l lookup adopted index segment start stop = some alternative := by
  induction stops with
  | nil => exact absurd h List.not_mem_nil
  | cons stop stops ih =>
    unfold alternativesFrom at h
    dsimp only at h
    split_ifs at h with hwhole hboundary hupper
    · obtain ⟨last, hlast, hword⟩ := ih h
      exact ⟨last, List.mem_cons_of_mem _ hlast, hword⟩
    · obtain ⟨last, hlast, hword⟩ := ih h
      exact ⟨last, List.mem_cons_of_mem _ hlast, hword⟩
    · exact absurd h List.not_mem_nil
    · rcases List.mem_append.mp h with hhere | hrest
      · exact ⟨stop, List.mem_cons_self, hboundary, Bool.not_eq_true _ ▸ hupper,
          Option.mem_toList.mp hhere⟩
      · obtain ⟨last, hlast, hword⟩ := ih hrest
        exact ⟨last, List.mem_cons_of_mem _ hlast, hword⟩

end Lattice

/-- No sum of a position and of a shortest length exceeds 64 bits. -/
def Fits (raw : Bytes) (options : MixedRomajiSplitOptions) : Prop :=
  raw.length + max (minReadableLength options) options.minShiftInlineEnglishLength < 2 ^ 64

/-- Then the edges of the lattice lead forward. -/
theorem forward_of_fits {raw : Bytes} {lookup : EnglishWordLookup}
    {options : MixedRomajiSplitOptions} (h : Fits raw options) :
    (latticeOf raw lookup options).Forward := by
  have hbound : ∀ start, start < raw.length →
      start + minLength raw options start < 2 ^ 64 := by
    intro start hstart
    have hlength : minLength raw options start
        ≤ max (max (minReadableLength options) options.minShiftInlineEnglishLength) 1 := by
      unfold minLength minReadableLength
      split
      · exact max_le_max (le_max_right _ _) (le_refl _)
      · exact max_le_max ((le_max_right _ _).trans (le_max_left _ _)) (le_refl _)
    have hmax := max_cases (max (minReadableLength options) options.minShiftInlineEnglishLength) 1
    unfold Fits at h
    omega
  refine forward_of_not_overflows (lt_of_le_of_lt (Nat.le_add_right _ _) h) ?_
  rintro ⟨start, hstart, hback, -⟩
  rw [sizeT, Nat.mod_eq_of_lt (hbound start hstart)] at hback
  omega

/-- An alternative is one of a word in a Japanese segment. -/
theorem mem_readableEnglishAlternatives {raw : Bytes} {adopted : MixedRomajiSplit}
    {lookup : Option EnglishWordLookup} {options : MixedRomajiSplitOptions}
    {alternative : MixedRomajiAlternative}
    (h : alternative ∈ readableEnglishAlternatives raw adopted lookup options) :
    ∃ dictionary, lookup = some dictionary ∧ raw.all isPrintableAscii = true
      ∧ ∃ index segment start, adopted.segments[index]? = some segment
        ∧ segment.kind = .japanese ∧ segment.rawEnd ≤ raw.length
        ∧ segment.rawBegin ≤ start ∧ start < segment.rawEnd
        ∧ ¬ (start = segment.rawBegin ∧ costBefore (lowered raw) segment.rawBegin ≠ 0)
        ∧ alternative ∈ alternativesFrom (latticeOf raw dictionary options) dictionary adopted index
          segment start (List.range' (sizeT (start + minReadableLength options))
            (min segment.rawEnd (sizeT (start + options.maxInlineEnglishLength)) + 1
              - sizeT (start + minReadableLength options))) := by
  cases lookup with
  | none => exact absurd h List.not_mem_nil
  | some dictionary =>
    unfold readableEnglishAlternatives at h
    dsimp only at h
    split_ifs at h with hno hall
    · exact absurd h List.not_mem_nil
    all_goals
      have hmem : alternative ∈ adopted.segments.zipIdx.flatMap (fun item =>
          alternativesIn (latticeOf raw dictionary options) dictionary adopted item.2 item.1) := by
        first
          | exact h
          | exact List.mem_of_mem_take h
      obtain ⟨⟨segment, index⟩, hitem, halternative⟩ := List.mem_flatMap.mp hmem
      have hindex : adopted.segments[index]? = some segment := List.mem_zipIdx_iff_getElem?.mp hitem
      unfold alternativesIn at halternative
      dsimp only at halternative
      split_ifs at halternative with hkind
      · exact absurd halternative List.not_mem_nil
      obtain ⟨start, hstart, hword⟩ := List.mem_flatMap.mp halternative
      have hrange := List.mem_range'_1.mp hstart
      split_ifs at hword with hfront
      · exact absurd hword List.not_mem_nil
      have hsize : (latticeOf raw dictionary options).size = raw.length := List.length_map _
      rw [hsize] at hkind
      refine ⟨dictionary, rfl, ?_, index, segment, start, hindex, ?_, ?_, hrange.1, ?_, hfront, hword⟩
      · by_contra hprintable
        exact hno (Or.inr (Or.inr (Or.inr (Bool.not_eq_true _ ▸ hprintable))))
      · by_contra hother
        exact hkind (Or.inl hother)
      · exact not_lt.mp (fun hlt => hkind (Or.inr (Or.inl hlt)))
      · omega

set_option maxRecDepth 10000 in
/-- Typed letters are ASCII, also in lower case. -/
theorem ascii_lowered {raw : Bytes} (h : raw.all isPrintableAscii = true) : Ascii (lowered raw) := by
  have hbyte : ∀ c : UInt8, isPrintableAscii c = true →
      (if isAsciiUpper c then c - 0x41 + 0x61 else c) < 0x80 := by decide
  intro c hc
  obtain ⟨typed, htyped, rfl⟩ := List.mem_map.mp hc
  exact hbyte typed (List.all_eq_true.mp h typed htyped)

/-- **A readable word is an English edge of the lattice**, where it has a letter. -/
theorem exists_edge {raw : Bytes} {lookup : EnglishWordLookup} {options : MixedRomajiSplitOptions}
    {start stop : ℕ} {front : EnglishWordMatch} (hfits : Fits raw options)
    (hmin : 1 ≤ minReadableLength options) (hstop : stop ≤ raw.length)
    (hfirst : start + minReadableLength options ≤ stop)
    (hlast : stop ≤ sizeT (start + options.maxInlineEnglishLength))
    (hupper : (rangeOf raw start stop).any isAsciiUpper = false)
    (hletter : hasAsciiLetter (rangeOf (lowered raw) start stop) = true)
    (hreadable : hasAsciiLetter (convertForCommit (rangeOf (lowered raw) start stop)) = false)
    (hfront : (lookup (rangeOf (lowered raw) start stop)).head? = some front) :
    ∃ edge ∈ englishEdgesFrom raw lookup options start,
      Lattice.englishSegment start edge.stop edge = wordSegment start stop front.surface
        ∧ edge.cost = englishEdgeCost (stop - start) true false := by
  have hcapital : isAsciiUpper (raw.getD start 0) = false := by
    by_contra hno
    rw [Bool.not_eq_false] at hno
    have hmem : raw.getD start 0 ∈ rangeOf raw start stop := getD_mem_rangeOf (by omega) (by omega)
    refine absurd (List.any_eq_true.mpr ⟨_, hmem, hno⟩) ?_
    rw [hupper]
    exact Bool.false_ne_true
  refine ⟨⟨stop, englishEdgeCost (stop - start) true false, front.surface, .low⟩,
    List.mem_filterMap.mpr ⟨stop, ?_, ?_⟩, rfl, rfl⟩
  · have hlength : minLength raw options start ≤ minReadableLength options := by
      unfold minLength
      rw [hcapital]
      exact max_le (le_max_right _ _) hmin
    have hfits : raw.length + minReadableLength options < 2 ^ 64 :=
      lt_of_le_of_lt (Nat.add_le_add_left (le_max_left _ _) _) hfits
    have hsum : sizeT (start + minLength raw options start) = start + minLength raw options start :=
      Nat.mod_eq_of_lt (by omega)
    have hend : stop ≤ maxEnd raw options start := le_min hstop hlast
    exact List.mem_range'_1.mpr ⟨by omega, by omega⟩
  · unfold englishEdge
    dsimp only
    rw [hletter, hfront, hcapital, hreadable, hupper,
      lengthFrom_eq (show start ≤ stop by omega)]
    rfl

/-! ## The split that was adopted -/

/-- **What is adopted**: it has no Japanese segment, or it is a segmentation of the
lattice, and its cost is the one of its path or that of a whole composition. -/
theorem adopted_cases {rounds : ℕ} {raw : Bytes} {lookup : EnglishWordLookup}
    {options : MixedRomajiSplitOptions} {splits : List MixedRomajiSplit} {adopted : MixedRomajiSplit}
    (hfits : Fits raw options) (hrounds : raw.length ≤ rounds)
    (h : splitMixedRomaji rounds raw (some lookup) options = some splits)
    (hadopted : adopted ∈ splits) :
    (∀ segment ∈ adopted.segments, segment.kind = .english)
      ∨ (latticeOf raw lookup options).Admissible adopted.segments
        ∧ (adopted.cost = (latticeOf raw lookup options).pathCost adopted.segments
          ∨ adopted.segments = [(latticeOf raw lookup options).japaneseSegment 0 raw.length]
            ∧ adopted.cost = 0) := by
  have hlower : (lowered raw).length = raw.length := List.length_map _
  have hsize : (latticeOf raw lookup options).size = raw.length := hlower
  have hwhole : raw ≠ [] → wholeSplit raw options = adopted →
      (∀ segment ∈ adopted.segments, segment.kind = .english)
      ∨ (latticeOf raw lookup options).Admissible adopted.segments
        ∧ (adopted.cost = (latticeOf raw lookup options).pathCost adopted.segments
          ∨ adopted.segments = [(latticeOf raw lookup options).japaneseSegment 0 raw.length]
            ∧ adopted.cost = 0) := by
    rintro hne rfl
    unfold wholeSplit
    dsimp only
    split
    · left
      intro segment hsegment
      rw [List.mem_singleton.mp hsegment]
      rfl
    · right
      have hsegment : wholeSegment raw .japanese (convertForCommit (lowered raw)) [] .low
          = (latticeOf raw lookup options).japaneseSegment 0 raw.length := by
        show MixedRomajiSegment.mk _ _ _ _ _ _ = MixedRomajiSegment.mk _ _ _ _ _ _
        congr 2
        show _ = rangeOf (lowered raw) 0 raw.length
        rw [rangeOf, lengthFrom_eq (Nat.zero_le _), List.drop_zero, Nat.sub_zero, ← hlower,
          List.take_length]
      rw [hsegment]
      refine ⟨⟨⟨rfl, List.length_pos_iff.mpr hne, ?_⟩, .singleton _, fun segment hmem => ?_⟩,
        Or.inr ⟨rfl, rfl⟩⟩
      · exact hsize.symm
      · rw [List.mem_singleton.mp hmem]
        exact .japanese (List.length_pos_iff.mpr hne) hsize.ge
  unfold splitMixedRomaji at h
  dsimp only at h
  split at h
  · obtain rfl := Option.some.inj h
    exact absurd hadopted List.not_mem_nil
  next hvalid =>
  have hne : raw ≠ [] := fun hnil => hvalid (Or.inl hnil)
  have hk : 1 ≤ options.maxSplits :=
    Nat.one_le_iff_ne_zero.mpr (fun hzero => hvalid (Or.inr (Or.inr (Or.inl hzero))))
  split at h
  · obtain rfl := Option.some.inj h
    left
    intro segment hsegment
    rw [List.mem_singleton.mp hadopted] at hsegment
    rw [List.mem_singleton.mp hsegment]
    rfl
  · split at h
    · obtain ⟨found, hbest, rfl⟩ := Option.map_eq_some_iff.mp h
      split at hadopted
      · -- the lattice
        obtain ⟨all, hall, hkbest, hcost, -⟩ :=
          Lattice.exact_of_forward (forward_of_fits hfits) hk
        rw [hall rounds (hsize.le.trans hrounds)] at hbest
        obtain rfl := Option.some.inj hbest
        exact Or.inr ⟨hkbest.mem _ (List.mem_map_of_mem hadopted), Or.inl (hcost adopted hadopted)⟩
      · exact hwhole hne (List.mem_singleton.mp hadopted).symm
    · obtain rfl := Option.some.inj h
      exact hwhole hne (List.mem_singleton.mp hadopted).symm

/-! ## Alternatives -/

/-- **An alternative is a segmentation**: a word has been put in a Japanese segment of
what was adopted, its split costs what the adopted one does and its word, and where
the word has a letter it is a segmentation of the lattice that costs as much more. -/
theorem alternatives_spec (rounds : ℕ) (raw : Bytes) (lookup : Option EnglishWordLookup)
    (options : MixedRomajiSplitOptions) (hrounds : raw.length ≤ rounds) (hfits : Fits raw options)
    (hmin : 1 ≤ minReadableLength options) (splits : List MixedRomajiSplit)
    (hsplits : splitMixedRomaji rounds raw lookup options = some splits) (adopted : MixedRomajiSplit)
    (hadopted : adopted ∈ splits) (alternative : MixedRomajiAlternative)
    (halternative : alternative ∈ readableEnglishAlternatives raw adopted lookup options) :
    ∃ l, l = latticeOf raw (lookup.getD (fun _ => [])) options
      ∧ ∃ before after s t start stop surface,
        l.PutsIn adopted alternative before after s t start stop surface
        ∧ Lattice.Tiles 0 alternative.split.segments l.size
        ∧ Lattice.Apart alternative.split.segments
        ∧ (hasAsciiLetter (rangeOf l.lower start stop) = true →
          l.Admissible alternative.split.segments
          ∧ l.pathCost alternative.split.segments
            = l.pathCost adopted.segments + englishEdgeCost (stop - start) true false)
        ∧ (adopted.cost = l.pathCost adopted.segments
          ∨ adopted.segments = [l.japaneseSegment 0 raw.length] ∧ adopted.cost = 0) := by
  obtain ⟨dictionary, rfl, hascii, index, segment, start, hsegment, hkind, hend, hbegin, hlt, hfront,
    hfrom⟩ := mem_readableEnglishAlternatives halternative
  have hsize : (latticeOf raw dictionary options).size = raw.length := List.length_map _
  obtain ⟨stop, hstop, hback, hupper, hword⟩ := Lattice.mem_alternativesFrom hfrom
  obtain heng | ⟨hadmissible, hcost⟩ := adopted_cases hfits hrounds hsplits hadopted
  · rw [heng segment (List.mem_of_getElem? hsegment)] at hkind
    cases hkind
  have hedge := hadmissible.edges segment (List.mem_of_getElem? hsegment)
  cases hedge with
  | english => cases hkind
  | @japanese s t hst ht =>
    have hrange := List.mem_range'_1.mp hstop
    have hfirst : sizeT (start + minReadableLength options) = start + minReadableLength options := by
      refine Nat.mod_eq_of_lt (lt_of_le_of_lt ?_ hfits)
      exact Nat.add_le_add (hlt.le.trans hend) (le_max_left _ _)
    rw [hfirst] at hrange
    have hle : s ≤ start := hbegin
    have hstart : start < t := hlt
    have hlast := Nat.le_of_lt_succ (lt_of_lt_of_le hrange.2 (by
      rw [Nat.add_sub_cancel' (by omega)]))
    have hstopT : stop ≤ t := hlast.trans (Nat.min_le_left _ _)
    have hlower : Ascii (latticeOf raw dictionary options).lower := ascii_lowered hascii
    obtain ⟨front, hhead, hreadable, hputs⟩ := Lattice.putsIn_of_alternativeAt hlower
      hsegment hle (by omega) hstopT hfront hback hupper hword
    obtain ⟨htiles, hapart⟩ := hputs.spliced hadmissible
    refine ⟨_, rfl, _, _, _, _, _, _, _, hputs, htiles, hapart, fun hletter => ?_, hcost⟩
    obtain ⟨edge, hmem, hsegmentEq, hedgeCost⟩ := exists_edge hfits hmin (hstopT.trans hend) hrange.1
      (hlast.trans (Nat.min_le_right _ _)) hupper hletter hreadable hhead
    have hedgeSegment : (latticeOf raw dictionary options).IsSegment
        (wordSegment start stop front.surface) := by
      rw [← hsegmentEq]
      exact .english (by omega) hmem
    have hforward := @forward_of_fits _ dictionary _ hfits
    have hwordCost : (latticeOf raw dictionary options).segmentCost
        (wordSegment start stop front.surface) = englishEdgeCost (stop - start) true false := by
      rw [← hsegmentEq, ← hedgeCost]
      exact Lattice.segmentCost_english hforward hmem
    rw [← hwordCost]
    exact hputs.admissible hadmissible ht hedgeSegment

/-- The alternative of `Akite`. -/
theorem alternatives_spec_kite :
    ∃ l, l = latticeOf [0x41, 0x6b, 0x69, 0x74, 0x65] kiteLookup kiteOptions
      ∧ ∃ before after s t start stop surface,
        l.PutsIn kiteSplit kiteAlternative before after s t start stop surface
        ∧ Lattice.Tiles 0 kiteAlternative.split.segments l.size
        ∧ Lattice.Apart kiteAlternative.split.segments
        ∧ (hasAsciiLetter (rangeOf l.lower start stop) = true →
          l.Admissible kiteAlternative.split.segments
          ∧ l.pathCost kiteAlternative.split.segments
            = l.pathCost kiteSplit.segments + englishEdgeCost (stop - start) true false)
        ∧ (kiteSplit.cost = l.pathCost kiteSplit.segments
          ∨ kiteSplit.segments = [l.japaneseSegment 0 5] ∧ kiteSplit.cost = 0) :=
  alternatives_spec 5 [0x41, 0x6b, 0x69, 0x74, 0x65] (some kiteLookup) kiteOptions (le_refl 5)
    (by unfold Fits; decide) (by decide) [kiteSplit] kite_computed.1 kiteSplit
    (List.mem_singleton.mpr rfl) kiteAlternative kite_computed.2.1

/-- **A composition that is judged as a whole costs nothing**, so its alternatives do
not cost what their paths do. -/
theorem alternatives_cost_ne :
    splitMixedRomaji 5 [0x41, 0x6b, 0x69, 0x74, 0x65] (some kiteLookup) kiteOptions = some [kiteSplit]
      ∧ kiteAlternative ∈ readableEnglishAlternatives [0x41, 0x6b, 0x69, 0x74, 0x65] kiteSplit
        (some kiteLookup) kiteOptions
      ∧ kiteAlternative.split.cost
        ≠ (latticeOf [0x41, 0x6b, 0x69, 0x74, 0x65] kiteLookup kiteOptions).pathCost
          kiteAlternative.split.segments :=
  kite_computed

end AzooKey.Core.MixedRomajiSplitter

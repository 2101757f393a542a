import AzooKey.Core.RomajiKanaConverter
import AzooKey.Core.Utf8
import AzooKey.Lib.KBest

/-!
# The mixed lattice

`core/src/MixedRomajiSplitter.cpp`: the typed letters of a composition are split
into Japanese and English segments. Every range that the dictionary knows is an
English edge of a lattice, every range at all is a Japanese one, and no two
Japanese edges follow one another. `Lattice::Best` keeps the cheapest partial
paths at each position, by the kind of the last edge, and traces the cheapest
whole ones back.

Costs are rational numbers. A position and a length of the source are 64 bits
wide, which the sums of a position and an option can exceed; where they do the
model wraps around as the source does.
-/

namespace AzooKey.Core

/-- `MixedRomajiSegmentKind`. -/
inductive MixedRomajiSegmentKind where
  | japanese
  | english
deriving DecidableEq, Repr

/-- `EnglishSegmentConfidence`. -/
inductive EnglishSegmentConfidence where
  | low
  | high
deriving DecidableEq, Repr

/-- `MixedRomajiSegment`: a range of the typed letters. -/
structure MixedRomajiSegment where
  kind : MixedRomajiSegmentKind
  rawBegin : ℕ
  rawEnd : ℕ
  kana : Bytes
  surface : Bytes
  confidence : EnglishSegmentConfidence
deriving DecidableEq, Repr

/-- `EnglishWordMatch`. -/
structure EnglishWordMatch where
  surface : Bytes
  flags : UInt8
deriving DecidableEq, Repr

/-- `EnglishWordLookup`, a dictionary. -/
abbrev EnglishWordLookup := Bytes → List EnglishWordMatch

/-- `MixedRomajiSplitOptions`. -/
structure MixedRomajiSplitOptions where
  maxRawLength : ℕ := 64
  maxSplits : ℕ := 8
  minEnglishLength : ℕ := 2
  splitInline : Bool := false
  minInlineEnglishLength : ℕ := 3
  minShiftInlineEnglishLength : ℕ := 2
  maxInlineEnglishLength : ℕ := 24
  inlineHighConfidence : Bool := true
  minReadableEnglishLength : ℕ := 4

/-- `MixedRomajiSplit`. -/
structure MixedRomajiSplit where
  segments : List MixedRomajiSegment
  cost : ℚ
deriving DecidableEq

namespace MixedRomajiSplitter

/-! ## Letters and kana -/

/-- `IsAsciiUpper`. -/
def isAsciiUpper (c : UInt8) : Bool := 0x41 ≤ c && c ≤ 0x5a

/-- `IsAsciiLower`. -/
def isAsciiLower (c : UInt8) : Bool := 0x61 ≤ c && c ≤ 0x7a

/-- `Lower`. -/
def lowered (raw : Bytes) : Bytes :=
  raw.map (fun c => if isAsciiUpper c then c - 0x41 + 0x61 else c)

/-- `HasAsciiLetter`. -/
def hasAsciiLetter (text : Bytes) : Bool := text.any isAsciiLower

/-- `CountAsciiLetters`. -/
def countAsciiLetters (text : Bytes) : ℕ := text.countP isAsciiLower

/-- `IsSmallVowel`. -/
def isSmallVowel (c : ℕ) : Bool := (['ぁ', 'ぃ', 'ぅ', 'ぇ', 'ぉ'].map Char.toNat).contains c

/-- `IsSmallY`. -/
def isSmallY (c : ℕ) : Bool := (['ゃ', 'ゅ', 'ょ'].map Char.toNat).contains c

/-- `TakesSmallVowel`. -/
def takesSmallVowel (c : ℕ) : Bool :=
  (['い', 'う', 'く', 'ぐ', 'し', 'じ', 'す', 'ず', 'ち', 'ぢ', 'つ', 'て', 'で', 'と', 'ど', 'ふ',
    'ゔ'].map Char.toNat).contains c

/-- `TakesSmallY`. -/
def takesSmallY (c : ℕ) : Bool :=
  (['き', 'ぎ', 'し', 'じ', 'ち', 'ぢ', 'に', 'ひ', 'び', 'ぴ', 'み', 'り', 'て', 'で', 'ふ',
    'ゔ'].map Char.toNat).contains c

/-- A kana that does not combine with the one before it. -/
def isUnnatural (previous : Option ℕ) (c : ℕ) : Bool :=
  c == 'ゔ'.toNat || (isSmallVowel c && !previous.any takesSmallVowel)
    || (isSmallY c && !previous.any takesSmallY)

/-- `CountUnnaturalKana`, after a kana. -/
def countUnnaturalKanaAfter (previous : Option ℕ) (kana : Bytes) : ℕ :=
  match _h : decodeNextUtf8 kana with
  | none => 0
  | some d =>
    if d.ok then
      (if isUnnatural previous d.codepoint then 1 else 0)
        + countUnnaturalKanaAfter (some d.codepoint) d.rest
    else 0
termination_by kana.length
decreasing_by exact decodeNextUtf8_rest_lt _h

/-- `CountUnnaturalKana`. -/
def countUnnaturalKana (kana : Bytes) : ℕ := countUnnaturalKanaAfter none kana

/-- `ConvertForCommit` with the built-in table. -/
def convertForCommit (text : Bytes) : Bytes := RomajiKanaConverter.convertForCommit text none

/-! ## Positions -/

/-- A number of 64 bits. -/
def sizeT (n : ℕ) : ℕ := n % 2 ^ 64

/-- The difference of two positions, as the source computes it. -/
def lengthFrom (start stop : ℕ) : ℕ := if start ≤ stop then stop - start else sizeT (2 ^ 64 + stop - start)

/-- `substr`, from one position up to another. -/
def rangeOf (text : Bytes) (start stop : ℕ) : Bytes := (text.drop start).take (lengthFrom start stop)

/-! ## Costs -/

/-- `EnglishEdgeCost`. -/
def englishEdgeCost (length : ℕ) (readable shift : Bool) : ℚ :=
  max (1 / 10 : ℚ) (1 - 1 / 20 * (length : ℚ)) + if readable && !shift then 2 else 0

/-- A vowel letter. -/
def isVowelLetter (c : UInt8) : Bool := [0x61, 0x69, 0x75, 0x65, 0x6f].contains c

/-- `BoundaryCost`. -/
def boundaryCost (lower : Bytes) (start : ℕ) : ℚ :=
  let c := lower.getD start 0
  if isVowelLetter c then 1
  else if c = 0x6e then
    let next := if start + 1 < lower.length then lower.getD (start + 1) 0 else 0
    if isVowelLetter next || next = 0x79 then 0 else 3 / 2
  else 0

/-- `JapaneseEdgeCost`. -/
def japaneseEdgeCost (raw lower : Bytes) (start stop : ℕ) : ℚ :=
  let kana := convertForCommit (rangeOf lower start stop)
  let typed := rangeOf raw start stop
  10 * (countAsciiLetters kana : ℚ) + 3 / 2 * (countUnnaturalKana kana : ℚ)
    + 2 * (typed.countP isAsciiUpper : ℚ)

/-! ## The lattice -/

/-- `EnglishEdge`. -/
structure EnglishEdge where
  stop : ℕ
  cost : ℚ
  surface : Bytes
  confidence : EnglishSegmentConfidence

/-- The shortest English edge that starts at a position. -/
def minLength (raw : Bytes) (options : MixedRomajiSplitOptions) (start : ℕ) : ℕ :=
  max (if isAsciiUpper (raw.getD start 0) then options.minShiftInlineEnglishLength
    else options.minInlineEnglishLength) 1

/-- `max_end`. -/
def maxEnd (raw : Bytes) (options : MixedRomajiSplitOptions) (start : ℕ) : ℕ :=
  min raw.length (sizeT (start + options.maxInlineEnglishLength))

/-- The English edge of a range, if the dictionary knows it. -/
def englishEdge (raw : Bytes) (lookup : EnglishWordLookup) (options : MixedRomajiSplitOptions)
    (start stop : ℕ) : Option EnglishEdge :=
  let shift := isAsciiUpper (raw.getD start 0)
  let key := rangeOf (lowered raw) start stop
  if !hasAsciiLetter key then none
  else
    (lookup key).head?.map fun front =>
      let readable := !hasAsciiLetter (convertForCommit key)
      let typed := rangeOf raw start stop
      { stop := stop
        cost := englishEdgeCost (lengthFrom start stop) readable shift
        surface := if typed.any isAsciiUpper then typed else front.surface
        confidence := if (shift || !readable) && options.inlineHighConfidence then .high else .low }

/-- The English edges from a position. -/
def englishEdgesFrom (raw : Bytes) (lookup : EnglishWordLookup) (options : MixedRomajiSplitOptions)
    (start : ℕ) : List EnglishEdge :=
  let first := sizeT (start + minLength raw options start)
  (List.range' first (maxEnd raw options start + 1 - first)).filterMap
    (englishEdge raw lookup options start)

/-- `State`: the kind of the last edge. -/
inductive State where
  | afterEnglish
  | afterJapanese
deriving DecidableEq

/-- `Node`: a partial path, by its last edge and the node it came from. -/
structure Node where
  cost : ℚ
  start : ℕ
  fromState : State
  fromRank : ℕ
  english : Bool
  edgeIndex : ℕ

/-- The nodes that are kept, by their position and their state. -/
abbrev Nodes := ℕ → State → List Node

/-- `Lattice`. -/
structure Lattice where
  raw : Bytes
  lower : Bytes
  options : MixedRomajiSplitOptions
  englishEdges : ℕ → List EnglishEdge

/-- The constructor of `Lattice`. -/
def latticeOf (raw : Bytes) (lookup : EnglishWordLookup) (options : MixedRomajiSplitOptions) :
    Lattice where
  raw := raw
  lower := lowered raw
  options := options
  englishEdges := englishEdgesFrom raw lookup options

namespace Lattice

/-- The number of letters. -/
def size (l : Lattice) : ℕ := l.lower.length

/-- `Offer`. -/
def offer (l : Lattice) (nodes : Nodes) (position : ℕ) (state : State) (node : Node) : Nodes :=
  fun p s =>
    if p = position ∧ s = state then
      KBest.offer Node.cost l.options.maxSplits node (nodes position state)
    else nodes p s

/-- What `Best` offers for one node that it has kept: a position, a state and a node. -/
def offersOf (l : Lattice) (start : ℕ) (state : State) (here : Node) (rank : ℕ) :
    List (ℕ × State × Node) :=
  let boundary := if 0 < start then boundaryCost l.lower start else 0
  (l.englishEdges start).zipIdx.map (fun e =>
      (e.1.stop, .afterEnglish, ⟨here.cost + e.1.cost, start, state, rank, true, e.2⟩))
    ++ match state with
      | .afterJapanese => []
      | .afterEnglish =>
        (List.range' (start + 1) (l.size - start)).map (fun stop =>
          (stop, .afterJapanese,
            ⟨here.cost + boundary + japaneseEdgeCost l.raw l.lower start stop, start, state, rank,
              false, 0⟩))

/-- What `Best` offers at a position. -/
def offersAt (l : Lattice) (nodes : Nodes) (start : ℕ) : List (ℕ × State × Node) :=
  [State.afterEnglish, State.afterJapanese].flatMap (fun state =>
    (nodes start state).zipIdx.flatMap (fun here => l.offersOf start state here.1 here.2))

/-- One position of the loop of `Best`. -/
def advance (l : Lattice) (nodes : Nodes) (start : ℕ) : Nodes :=
  (l.offersAt nodes start).foldl (fun nodes o => l.offer nodes o.1 o.2.1 o.2.2) nodes

/-- The nodes before the loop: the empty path. -/
def firstNodes : Nodes
  | 0, .afterEnglish => [⟨0, 0, .afterEnglish, 0, false, 0⟩]
  | _, _ => []

/-- The nodes after the positions before one. -/
def nodesUpTo (l : Lattice) (start : ℕ) : Nodes := (List.range start).foldl l.advance firstNodes

/-- A Japanese segment. -/
def japaneseSegment (l : Lattice) (start stop : ℕ) : MixedRomajiSegment where
  kind := .japanese
  rawBegin := start
  rawEnd := stop
  kana := convertForCommit (rangeOf l.lower start stop)
  surface := []
  confidence := .low

/-- An English segment. -/
def englishSegment (start stop : ℕ) (edge : EnglishEdge) : MixedRomajiSegment where
  kind := .english
  rawBegin := start
  rawEnd := stop
  kana := []
  surface := edge.surface
  confidence := edge.confidence

/-- The segment of the last edge of a node. -/
def segmentOf (l : Lattice) (position : ℕ) (node : Node) : Option MixedRomajiSegment :=
  if node.english then
    (l.englishEdges node.start)[node.edgeIndex]?.map (englishSegment node.start position)
  else some (l.japaneseSegment node.start position)

/-- `Trace`, in front of the segments that have been traced. The loop of the source ends
at the position 0; here it also ends when it has taken too many rounds. -/
def trace (l : Lattice) (nodes : Nodes) : ℕ → ℕ → State → ℕ → List MixedRomajiSegment →
    Option (List MixedRomajiSegment)
  | _, 0, _, _, traced => some traced
  | 0, _ + 1, _, _, _ => none
  | rounds + 1, position + 1, state, rank, traced =>
    (nodes (position + 1) state)[rank]?.bind (fun node =>
      (l.segmentOf (position + 1) node).bind (fun segment =>
        l.trace nodes rounds node.start node.fromState node.fromRank (segment :: traced)))

/-- The ends of the whole paths, with their costs. -/
def ends (l : Lattice) (nodes : Nodes) : List ((State × ℕ) × ℚ) :=
  [State.afterEnglish, State.afterJapanese].flatMap (fun state =>
    (nodes l.size state).zipIdx.map (fun node => ((state, node.2), node.1.cost)))

/-- **`Best`**, with a number of rounds that each trace may take. -/
def best (l : Lattice) (rounds : ℕ) : Option (List MixedRomajiSplit) :=
  let nodes := l.nodesUpTo l.size
  (((l.ends nodes).insertionSort (fun a b => a.2 ≤ b.2)).take l.options.maxSplits).mapM
    (fun e => (l.trace nodes rounds l.size e.1.1 e.1.2 []).map (fun segments => ⟨segments, e.2⟩))

end Lattice

end MixedRomajiSplitter

end AzooKey.Core

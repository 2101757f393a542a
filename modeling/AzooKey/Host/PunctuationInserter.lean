import AzooKey.Host.Utf16Units

/-!
# Automatic punctuation

`PunctuationInserter::Insert` of `inference-host/src/PunctuationInserter.cpp` and the rules it
is given, of `core/PunctuationRules.h`: marks are put between the segments of a conversion, as
segments of their own, and behind the last one.

What is put in depends on the segments and on the text before; where it goes does not depend on
the positions. So the segments are first woven with the marks (`weave`), and then placed one
behind the other (`foldl_appendSegment`); what a mark stands next to is proved of the first
(`weave_spec`) and carried to the second (`insert_spec`).
-/

namespace AzooKey.Core

/-- `SegmentPos`. -/
inductive SegmentPos
  | unknown
  | taigen
  | yougen
  | joshiCase
  | joshiConj
  | joshiOther
  | setsuzoku
  | jodoushi
  | hojoYougen
  | rentai
  | fukushi
  | kigou
  | english
deriving DecidableEq

/-- `SegmentSemantic`. -/
inductive SegmentSemantic
  | unknown
  | generic
  | personName
  | placeName
  | orgName
  | productName
  | dateTime
  | number
deriving DecidableEq

/-- `PunctuationKind`. -/
inductive PunctuationKind
  | comma
  | period
deriving DecidableEq

/-- `PunctuationGuard::Field`. -/
inductive PunctuationGuardField
  | prevPos
  | nextHeadPos
  | prevSem
  | nextHeadSem
  | sentenceFinal

/-- `PunctuationGuard`. -/
structure PunctuationGuard where
  field : PunctuationGuardField := .sentenceFinal
  notEqual : Bool := false
  pos : SegmentPos := .unknown
  sem : SegmentSemantic := .unknown

/-- `PunctuationRule`. -/
structure PunctuationRule where
  kind : PunctuationKind := .comma
  «match» : Bytes
  baseScore : Double
  guards : List PunctuationGuard

/-- `PunctuationRules`. -/
structure PunctuationRules where
  rules : List PunctuationRule

/-- `MatchPos`. -/
def matchPos (actual expected : SegmentPos) (notEqual : Bool) : Bool :=
  if actual = .unknown then notEqual else decide (actual = expected) != notEqual

/-- `MatchSem`. -/
def matchSem (actual expected : SegmentSemantic) (notEqual : Bool) : Bool :=
  if actual = .unknown then notEqual else decide (actual = expected) != notEqual

/-- `MatchesGuard`. -/
def matchesGuard (rule : PunctuationRule) (prevPos : SegmentPos) (prevSem : SegmentSemantic)
    (nextHeadPos : SegmentPos) (nextHeadSem : SegmentSemantic) (sentenceFinal : Bool) : Bool :=
  rule.guards.all fun guard =>
    match guard.field with
    | .prevPos => matchPos prevPos guard.pos guard.notEqual
    | .nextHeadPos => matchPos nextHeadPos guard.pos guard.notEqual
    | .prevSem => matchSem prevSem guard.sem guard.notEqual
    | .nextHeadSem => matchSem nextHeadSem guard.sem guard.notEqual
    | .sentenceFinal => sentenceFinal

end AzooKey.Core

namespace AzooKey.Host

open AzooKey.Core (decodeNextUtf8 SegmentPos SegmentSemantic PunctuationKind PunctuationRule
  PunctuationRules matchesGuard)
open AzooKey.Ipc (LiveSegment)

/-- `PunctuationResult`. -/
structure PunctuationResult where
  surface : Bytes := []
  segments : List LiveSegment := []

namespace Punctuation

/-- `EndsWith`. -/
def endsWith (value suffix : Bytes) : Bool := suffix.isSuffixOf value

/-- `StartsWith`. -/
def startsWith (value start : Bytes) : Bool := start.isPrefixOf value

/-- The code points that `DecodeNextUtf8` stores one after the other. -/
def storedCodepoints (value : Bytes) : List ℕ :=
  match _h : decodeNextUtf8 value with
  | none => []
  | some d => d.codepoint :: storedCodepoints d.rest
termination_by value.length
decreasing_by exact Core.decodeNextUtf8_rest_lt _h

/-- `Utf16Length`. -/
def utf16Length (value : Bytes) : UInt32 :=
  (storedCodepoints value).foldl
    (fun length codepoint => length + if 0xffff < codepoint then 2 else 1) 0

/-- `CodepointLength`. -/
def codepointLength (value : Bytes) : ℕ := (storedCodepoints value).length

/-- The marks of `IsPunctuationEnd`. -/
def punctuationMarks : List Bytes :=
  ["、", "。", "，", "．", ",", ".", "!", "?", "！", "？"].map utf8

/-- The brackets that close, which `IsPunctuationStart` has too. -/
def closingBrackets : List Bytes :=
  ["」", "』", "）", ")", "】", "]", "〉", "》", "｝", "\x7d"].map utf8

/-- `IsPunctuationEnd`. -/
def isPunctuationEnd (value : Bytes) : Bool := punctuationMarks.any (endsWith value)

/-- `IsPunctuationStart`. -/
def isPunctuationStart (value : Bytes) : Bool :=
  (punctuationMarks ++ closingBrackets).any (startsWith value)

/-- `IsAsciiWord`. -/
def isAsciiWord (value : Bytes) : Bool :=
  !value.isEmpty && value.all (fun c => 0x21 ≤ c && c ≤ 0x7e)

/-- `RecentComma`. -/
def recentComma (value : Bytes) : Bool :=
  let chars := storedCodepoints value
  (chars.drop (chars.length - 6)).any (fun c => c = '、'.toNat || c = '，'.toNat)

/-- `AsPos`. -/
def asPos (raw : UInt8) : SegmentPos :=
  match raw.toNat with
  | 1 => .taigen
  | 2 => .yougen
  | 3 => .joshiCase
  | 4 => .joshiConj
  | 5 => .joshiOther
  | 6 => .setsuzoku
  | 7 => .jodoushi
  | 8 => .hojoYougen
  | 9 => .rentai
  | 10 => .fukushi
  | 11 => .kigou
  | 12 => .english
  | _ => .unknown

/-- `AsSem`. -/
def asSem (raw : UInt8) : SegmentSemantic :=
  match raw.toNat with
  | 1 => .generic
  | 2 => .personName
  | 3 => .placeName
  | 4 => .orgName
  | 5 => .productName
  | 6 => .dateTime
  | 7 => .number
  | _ => .unknown

/-- `InferPrevPos`. -/
def inferPrevPos (segment : LiveSegment) : SegmentPos :=
  let value := segment.surface
  if ["しかし", "だから", "そして", "ただし", "つまり", "また"].any (fun s => endsWith value (utf8 s)) then
    .setsuzoku
  else if endsWith value (utf8 "が") then
    let stem := value.take (value.length - (utf8 "が").length)
    if ["た", "だ", "る", "い", "う", "す", "く", "む", "ぬ", "ぶ", "つ"].any
        (fun s => endsWith stem (utf8 s)) then .joshiConj
    else .joshiCase
  else .unknown

/-- `InferNextHeadPos`. -/
def inferNextHeadPos (segment : LiveSegment) : SegmentPos :=
  let value := segment.surface
  if ["いる", "ある", "おく", "みる", "しまう", "くれる", "もらう", "いく", "くる"].any
      (fun s => startsWith value (utf8 s)) then .hojoYougen
  else if ["思", "言", "考", "聞", "話", "呼", "書"].any (fun s => startsWith value (utf8 s)) then
    .yougen
  else .unknown

/-- `BestRule`: the longest match, of the highest score, the first of these. -/
def bestRule (rules : PunctuationRules) (kind : PunctuationKind) (surface : Bytes) :
    Option PunctuationRule :=
  rules.rules.foldl (fun best rule =>
    if rule.kind ≠ kind || !endsWith surface rule.match then best
    else
      match best with
      | none => some rule
      | some other =>
        if other.match.length < rule.match.length
            || (rule.match.length = other.match.length
              && Double.ieeeLt other.baseScore rule.baseScore) then some rule
        else best) none

/-- `AppendSegment`. -/
def appendSegment (out : PunctuationResult) (segment : LiveSegment) : PunctuationResult :=
  let startChar := (out.segments.getLast?.map LiveSegment.endChar).getD 0
  { surface := out.surface ++ segment.surface
    segments := out.segments
      ++ [{ segment with startChar, endChar := startChar + utf16Length segment.surface }] }

/-- A segment that has been put in. -/
def inserted (surface : Bytes) : LiveSegment where
  startChar := 0
  endChar := 0
  score := .finite (.zero false)
  autoPunctuation := true
  surface := surface
  reading := []
  pos := 11
  headPos := 0
  sem := 0
  headSem := 0
  tag := 0

/-- The comma of a style. -/
def commaOf (style : Bytes) : Bytes := if style = utf8 "fullwidth_latin" then utf8 "，" else utf8 "、"

/-- The period of a style. -/
def periodOf (style : Bytes) : Bytes := if style = utf8 "fullwidth_latin" then utf8 "．" else utf8 "。"

/-- Whether a comma goes between two segments, behind a text that ends with the first. -/
def commaBetween (rules : PunctuationRules) (boundaryConfidence : Double) (surface : Bytes)
    (current next : LiveSegment) : Bool :=
  if Double.ieeeLt current.score boundaryConfidence || isPunctuationEnd current.surface
      || isPunctuationStart next.surface || recentComma surface
      || (isAsciiWord current.surface && isAsciiWord next.surface) then false
  else
    match bestRule rules .comma current.surface with
    | none => false
    | some rule =>
      if Double.ieeeLt rule.baseScore (Double.round false (1 / 2)) then false
      else
        let pos := asPos current.pos
        let headPos := asPos next.headPos
        let pos := if pos = .unknown then inferPrevPos current else pos
        let headPos := if headPos = .unknown then inferNextHeadPos next else headPos
        -- no evidence of a quote
        let headPos := if rule.match = utf8 "と" && headPos = .unknown then .taigen else headPos
        matchesGuard rule pos (asSem current.sem) headPos (asSem next.headSem) false

/-- Whether a period goes behind the last segment. -/
def periodBehind (rules : PunctuationRules) (converted : List LiveSegment) (last : LiveSegment) :
    Bool :=
  let totalChars := (converted.map (fun segment => codepointLength segment.surface)).sum
  if !(converted.length = 1 && totalChars < 8) && !isPunctuationEnd last.surface
      && !isAsciiWord last.surface then
    match bestRule rules .period last.surface with
    | none => false
    | some rule =>
      Double.ieeeLt (.finite (.zero false)) rule.baseScore
        && matchesGuard rule (asPos last.pos) (asSem last.sem) .unknown .unknown true
  else false

/-- The loop of `Insert`. -/
def insertCommas (rules : PunctuationRules) (comma : Bytes) (boundaryConfidence : Double) :
    PunctuationResult → List LiveSegment → PunctuationResult
  | out, [] => out
  | out, [current] => appendSegment out current
  | out, current :: next :: rest =>
    let out := appendSegment out current
    let out := if commaBetween rules boundaryConfidence out.surface current next then
      appendSegment out (inserted comma) else out
    insertCommas rules comma boundaryConfidence out (next :: rest)

/-- **`PunctuationInserter::Insert`.** -/
def insert (converted : List LiveSegment) (rules : PunctuationRules) (style : Bytes)
    (boundaryConfidence : Double) : PunctuationResult :=
  match converted.getLast? with
  | none => {}
  | some last =>
    let out := insertCommas rules (commaOf style) boundaryConfidence {} converted
    if periodBehind rules converted last then appendSegment out (inserted (periodOf style)) else out

/-! ## Code points of a text -/

/-- The code points of a text that begins with one. -/
theorem storedCodepoints_scalar {scalar : Bytes} (h : isScalar scalar = true) (text : Bytes) :
    storedCodepoints (scalar ++ text) = Core.Dictionary.scalarValue scalar :: storedCodepoints text := by
  have hdecode := Core.decodeNextUtf8_append h text
  rw [storedCodepoints]
  split
  · next hnone =>
    rw [hdecode] at hnone
    cases hnone
  · next d hsome =>
    rw [hdecode] at hsome
    obtain rfl := Option.some.inj hsome
    rfl

/-- Nothing has no code points. -/
theorem storedCodepoints_nil : storedCodepoints [] = [] := by
  rw [storedCodepoints]
  rfl

/-- **The code points of a text and of what follows it**, as many as are counted. -/
theorem storedCodepoints_append {text : Bytes} (h : ValidUtf8 text) (rest : Bytes) :
    storedCodepoints (text ++ rest) = storedCodepoints text ++ storedCodepoints rest
      ∧ (storedCodepoints text).length = codePoints text := by
  induction h with
  | nil =>
    rw [storedCodepoints_nil]
    exact ⟨rfl, rfl⟩
  | cons hscalar _ ih =>
    rw [List.append_assoc, storedCodepoints_scalar hscalar, storedCodepoints_scalar hscalar, ih.1,
      codePoints_append, codePoints_of_isScalar hscalar, List.length_cons, ih.2]
    exact ⟨rfl, Nat.add_comm _ _⟩

/-- **`Utf16Length` counts the units.** -/
theorem utf16Length_eq {text : Bytes} (h : ValidUtf8 text) :
    utf16Length text = UInt32.ofNat (utf16Units text).length := by
  have hfrom : ∀ length : UInt32, (storedCodepoints text).foldl
      (fun length codepoint => length + if 0xffff < codepoint then 2 else 1) length
        = length + UInt32.ofNat (utf16Units text).length := by
    induction h with
    | nil =>
      intro length
      rw [storedCodepoints_nil, utf16Units_nil]
      exact (UInt32.add_zero length).symm
    | @cons scalar rest hscalar _ ih =>
      intro length
      have hunits : (if 0xffff < Core.Dictionary.scalarValue scalar then 2 else 1 : UInt32)
          = UInt32.ofNat (unitsOf (Core.Dictionary.scalarValue scalar)).length := by
        unfold unitsOf
        by_cases hlow : Core.Dictionary.scalarValue scalar ≤ 0xffff
        · rw [if_neg (not_lt.mpr hlow), if_pos hlow]
          rfl
        · rw [if_pos (not_le.mp hlow), if_neg hlow]
          rfl
      rw [storedCodepoints_scalar hscalar, List.foldl_cons, ih, utf16Units_scalar hscalar,
        List.length_append, UInt32.ofNat_add, hunits, UInt32.add_assoc]
  have hzero := hfrom 0
  rw [UInt32.zero_add] at hzero
  exact hzero

/-- The commas that `RecentComma` looks for. -/
def commas : List Bytes := ["、", "，"].map utf8

set_option maxRecDepth 10000 in
/-- **`RecentComma` looks at six code points**: behind any comma of the text there are six. -/
theorem six_le_of_recentComma {text : Bytes} (htext : ValidUtf8 text)
    (h : recentComma text = false) {front comma back : Bytes} (hcomma : comma ∈ commas)
    (heq : text = front ++ (comma ++ back)) : 6 ≤ codePoints back := by
  have hmark : isScalar comma = true ∧ (Core.Dictionary.scalarValue comma = '、'.toNat
      ∨ Core.Dictionary.scalarValue comma = '，'.toNat)
      ∧ ∀ lead ∈ comma.head?, isTrailing lead = false := by
    have hall : ∀ comma ∈ commas, isScalar comma = true
        ∧ (Core.Dictionary.scalarValue comma = '、'.toNat
          ∨ Core.Dictionary.scalarValue comma = '，'.toNat)
        ∧ ∀ lead ∈ comma.head?, isTrailing lead = false := by decide
    exact hall comma hcomma
  obtain ⟨hscalar, hvalue, hlead⟩ := hmark
  subst heq
  obtain ⟨hfront, hrest⟩ := ValidUtf8.cut htext fun lead hmem => hlead lead (by
    obtain ⟨first, tail, rfl⟩ := List.exists_cons_of_ne_nil (ne_nil_of_isScalar hscalar)
    exact hmem)
  have hback := (ValidUtf8.of_isScalar hscalar).of_append_left hrest
  by_contra hfew
  have hcount := (storedCodepoints_append hback []).2
  unfold recentComma at h
  rw [(storedCodepoints_append hfront _).1, storedCodepoints_scalar hscalar] at h
  dsimp only at h
  rw [List.drop_append_of_le_length (by rw [List.length_append, List.length_cons]; omega),
    List.any_append, List.any_cons] at h
  rcases hvalue with hvalue | hvalue <;> rw [hvalue] at h <;> simp at h

/-! ## Placing -/

/-- The text of segments. -/
def textOf (segments : List LiveSegment) : Bytes := segments.flatMap LiveSegment.surface

/-- A segment but for its positions. -/
def unplaced (segment : LiveSegment) : LiveSegment := { segment with startChar := 0, endChar := 0 }

/-- The text does not depend on the positions. -/
theorem textOf_map_unplaced (segments : List LiveSegment) :
    textOf (segments.map unplaced) = textOf segments := 
  List.flatMap_map unplaced LiveSegment.surface segments

/-- The text of segments and of more. -/
theorem textOf_append (segments more : List LiveSegment) :
    textOf (segments ++ more) = textOf segments ++ textOf more := List.flatMap_append

/-- The text of one segment. -/
theorem textOf_singleton (segment : LiveSegment) : textOf [segment] = segment.surface :=
  List.flatMap_singleton _ _

/-- Texts in a row are a text. -/
theorem validUtf8_textOf {segments : List LiveSegment}
    (h : ∀ segment ∈ segments, ValidUtf8 segment.surface) : ValidUtf8 (textOf segments) := by
  induction segments with
  | nil => exact .nil
  | cons segment segments ih =>
    exact (h segment List.mem_cons_self).append
      (ih fun other hother => h other (List.mem_cons_of_mem _ hother))

/-- **A result whose positions are those of its surface.** -/
structure Placed (out : PunctuationResult) : Prop where
  surface : out.surface = textOf out.segments
  valid : ∀ segment ∈ out.segments, ValidUtf8 segment.surface
  positions : ∀ front segment back, out.segments = front ++ segment :: back →
    segment.startChar = UInt32.ofNat (utf16Units (textOf front)).length
      ∧ segment.endChar = UInt32.ofNat (utf16Units (textOf (front ++ [segment]))).length

/-- The end of a result is where the next segment starts. -/
theorem Placed.next {out : PunctuationResult} (h : Placed out) :
    (out.segments.getLast?.map LiveSegment.endChar).getD 0
      = UInt32.ofNat (utf16Units (textOf out.segments)).length := by
  cases hlast : out.segments.getLast? with
  | none =>
    rw [List.getLast?_eq_none_iff.mp hlast]
    show (0 : UInt32) = UInt32.ofNat (utf16Units []).length
    rw [utf16Units_nil]
    rfl
  | some last =>
    obtain ⟨front, hfront⟩ := List.getLast?_eq_some_iff.mp hlast
    rw [hfront]
    exact (h.positions front last [] hfront).2

/-- An element of a list that has one more at the end is that one, or stood there before. -/
theorem split_concat {α : Type} {l front back : List α} {x a : α} (h : l ++ [x] = front ++ a :: back) :
    (back = [] ∧ l = front ∧ x = a) ∨ ∃ back', back = back' ++ [x] ∧ l = front ++ a :: back' := by
  rcases List.eq_nil_or_concat back with rfl | ⟨back', last, rfl⟩
  · obtain ⟨hfront, hlast⟩ := List.append_inj' h rfl
    exact Or.inl ⟨rfl, hfront, List.singleton_inj.mp hlast⟩
  · have hshift : front ++ a :: (back' ++ [last]) = (front ++ a :: back') ++ [last] := by
      rw [List.append_assoc, List.cons_append]
    rw [List.concat_eq_append, hshift] at h
    obtain ⟨hfront, hlast⟩ := List.append_inj' h rfl
    obtain rfl := List.singleton_inj.mp hlast
    exact Or.inr ⟨back', List.concat_eq_append, hfront⟩

/-- **A segment behind the others** has the positions of its surface. -/
theorem Placed.appendSegment {out : PunctuationResult} {segment : LiveSegment} (h : Placed out)
    (hvalid : ValidUtf8 segment.surface) : Placed (appendSegment out segment) := by
  -- the segment as it is put behind the others
  generalize hplaced : ({ segment with
    startChar := (out.segments.getLast?.map LiveSegment.endChar).getD 0
    endChar := (out.segments.getLast?.map LiveSegment.endChar).getD 0
      + utf16Length segment.surface } : LiveSegment) = placed
  have hsegments : (Punctuation.appendSegment out segment).segments = out.segments ++ [placed] := by
    rw [← hplaced]
    rfl
  have hsurface : placed.surface = segment.surface := by rw [← hplaced]
  have hstart : placed.startChar = UInt32.ofNat (utf16Units (textOf out.segments)).length := by
    rw [← hplaced]
    exact h.next
  have htext : textOf (out.segments ++ [placed]) = textOf out.segments ++ segment.surface := by
    rw [textOf_append, textOf_singleton, hsurface]
  have hend : placed.endChar
      = UInt32.ofNat (utf16Units (textOf (out.segments ++ [placed]))).length := by
    have hsum : placed.endChar = placed.startChar + utf16Length segment.surface := by rw [← hplaced]
    rw [hsum, hstart, utf16Length_eq hvalid, htext, utf16Units_append (validUtf8_textOf h.valid),
      List.length_append, UInt32.ofNat_add]
  refine ⟨?_, ?_, ?_⟩
  · rw [hsegments, htext, ← h.surface]
    rfl
  · rw [hsegments]
    intro other hother
    rcases List.mem_append.mp hother with hold | hother
    · exact h.valid other hold
    · rw [List.mem_singleton.mp hother, hsurface]
      exact hvalid
  · rw [hsegments]
    intro front other back heq
    obtain ⟨-, rfl, rfl⟩ | ⟨back', -, hold⟩ := split_concat heq
    · exact ⟨hstart, hend⟩
    · exact h.positions front other back' hold

/-- **Segments behind the others**: what comes out is what goes in, but for the positions. -/
theorem foldl_appendSegment {segments : List LiveSegment}
    (hvalid : ∀ segment ∈ segments, ValidUtf8 segment.surface) {out : PunctuationResult}
    (h : Placed out) : Placed (segments.foldl appendSegment out)
      ∧ (segments.foldl appendSegment out).segments.map unplaced
        = out.segments.map unplaced ++ segments.map unplaced := by
  induction segments generalizing out with
  | nil => exact ⟨h, (List.append_nil _).symm⟩
  | cons segment segments ih =>
    obtain ⟨hplaced, hmap⟩ := ih (fun other hother => hvalid other (List.mem_cons_of_mem _ hother))
      (h.appendSegment (hvalid segment List.mem_cons_self))
    refine ⟨hplaced, ?_⟩
    rw [List.foldl_cons, hmap, List.map_cons, ← List.singleton_append, ← List.append_assoc]
    show (out.segments ++ [_]).map unplaced ++ _ = _
    rw [List.map_append]
    rfl

/-! ## Weaving -/

/-- The segments with the commas between them, behind a text. -/
def weave (rules : PunctuationRules) (comma : Bytes) (boundaryConfidence : Double) :
    Bytes → List LiveSegment → List LiveSegment
  | _, [] => []
  | _, [current] => [current]
  | before, current :: next :: rest =>
    let before := before ++ current.surface
    if commaBetween rules boundaryConfidence before current next then
      current :: inserted comma
        :: weave rules comma boundaryConfidence (before ++ comma) (next :: rest)
    else current :: weave rules comma boundaryConfidence before (next :: rest)

/-- **The loop weaves and places.** -/
theorem insertCommas_eq (rules : PunctuationRules) (comma : Bytes) (boundaryConfidence : Double)
    (out : PunctuationResult) (converted : List LiveSegment) :
    insertCommas rules comma boundaryConfidence out converted
      = (weave rules comma boundaryConfidence out.surface converted).foldl appendSegment out := by
  fun_induction insertCommas rules comma boundaryConfidence out converted with
  | case1 out => rfl
  | case2 out current => rfl
  | case3 out current next rest appended joined ih =>
    rw [weave]
    have hbefore : appended.surface = out.surface ++ current.surface := rfl
    by_cases hcomma : commaBetween rules boundaryConfidence appended.surface current next = true
    · have hjoined : joined = appendSegment appended (inserted comma) := if_pos hcomma
      rw [hbefore] at hcomma
      rw [if_pos hcomma, ih, hjoined]
      rfl
    · have hjoined : joined = appended := if_neg hcomma
      rw [hbefore] at hcomma
      rw [if_neg hcomma, ih, hjoined]
      rfl

/-- A segment of the text that has no punctuation at its end. -/
def OpenEnd (segment : LiveSegment) : Prop :=
  segment.autoPunctuation = false ∧ isPunctuationEnd segment.surface = false

/-- A segment of the text that has no punctuation at its start. -/
def OpenStart (segment : LiveSegment) : Prop :=
  segment.autoPunctuation = false ∧ isPunctuationStart segment.surface = false

/-- **A place for a comma**: between two segments of the text without punctuation, and behind no
recent comma. -/
structure StandsBetween (before : Bytes) (front back : List LiveSegment) : Prop where
  previous : ∃ previous ∈ front.getLast?, OpenEnd previous
  next : ∃ next ∈ back.head?, OpenStart next
  recent : recentComma (before ++ textOf front) = false

/-- What `commaBetween` looks at first. -/
theorem of_commaBetween {rules : PunctuationRules} {boundaryConfidence : Double} {surface : Bytes}
    {current next : LiveSegment} (h : commaBetween rules boundaryConfidence surface current next = true) :
    isPunctuationEnd current.surface = false ∧ isPunctuationStart next.surface = false
      ∧ recentComma surface = false := by
  unfold commaBetween at h
  split at h
  · cases h
  · rename_i hpass
    simp only [Bool.or_eq_true, not_or, Bool.not_eq_true] at hpass
    exact ⟨hpass.1.1.1.2, hpass.1.1.2, hpass.1.2⟩

section Weave

variable {rules : PunctuationRules} {comma : Bytes} {boundaryConfidence : Double} {before : Bytes}
  {converted : List LiveSegment}

/-- What has been woven begins and ends with what it was woven from. -/
theorem ends_weave : (weave rules comma boundaryConfidence before converted).head? = converted.head?
    ∧ (weave rules comma boundaryConfidence before converted).getLast? = converted.getLast? := by
  fun_induction weave rules comma boundaryConfidence before converted with
  | case1 => exact ⟨rfl, rfl⟩
  | case2 => exact ⟨rfl, rfl⟩
  | case3 before current next rest before' _ ih =>
    refine ⟨rfl, ?_⟩
    obtain ⟨last, hlast⟩ := Option.isSome_iff_exists.mp
      (List.getLast?_isSome.mpr (List.cons_ne_nil next rest))
    rw [List.getLast?_cons, List.getLast?_cons, ih.2, List.getLast?_cons_cons, hlast]
    rfl
  | case4 before current next rest before' _ ih =>
    refine ⟨rfl, ?_⟩
    obtain ⟨last, hlast⟩ := Option.isSome_iff_exists.mp
      (List.getLast?_isSome.mpr (List.cons_ne_nil next rest))
    rw [List.getLast?_cons, ih.2, List.getLast?_cons_cons, hlast]
    rfl

/-- What has been woven is of the text, or a comma. -/
theorem mem_weave {segment : LiveSegment}
    (h : segment ∈ weave rules comma boundaryConfidence before converted) :
    segment ∈ converted ∨ segment = inserted comma := by
  fun_induction weave rules comma boundaryConfidence before converted with
  | case1 => exact Or.inl h
  | case2 => exact Or.inl h
  | case3 before current next rest before' _ ih =>
    rcases List.mem_cons.mp h with rfl | h
    · exact Or.inl List.mem_cons_self
    rcases List.mem_cons.mp h with rfl | h
    · exact Or.inr rfl
    · exact (ih h).imp_left (List.mem_cons_of_mem _)
  | case4 before current next rest before' _ ih =>
    rcases List.mem_cons.mp h with rfl | h
    · exact Or.inl List.mem_cons_self
    · exact (ih h).imp_left (List.mem_cons_of_mem _)

/-- **Without the commas what has been woven is the text.** -/
theorem filter_weave (hplain : ∀ segment ∈ converted, segment.autoPunctuation = false) :
    (weave rules comma boundaryConfidence before converted).filter (fun s => !s.autoPunctuation)
      = converted := by
  fun_induction weave rules comma boundaryConfidence before converted with
  | case1 => rfl
  | case2 before current =>
    rw [List.filter_cons_of_pos (by rw [hplain current List.mem_cons_self]; rfl)]
    rfl
  | case3 before current next rest before' _ ih =>
    rw [List.filter_cons_of_pos (by rw [hplain current List.mem_cons_self]; rfl),
      List.filter_cons_of_neg (by exact Bool.false_ne_true),
      ih fun other hother => hplain other (List.mem_cons_of_mem _ hother)]
  | case4 before current next rest before' _ ih =>
    rw [List.filter_cons_of_pos (by rw [hplain current List.mem_cons_self]; rfl),
      ih fun other hother => hplain other (List.mem_cons_of_mem _ hother)]

/-- A place for a comma, seen from one segment before. -/
theorem StandsBetween.cons {segment : LiveSegment} {front back : List LiveSegment}
    (h : StandsBetween (before ++ segment.surface) front back) :
    StandsBetween before (segment :: front) back := by
  obtain ⟨previous, hprevious, hopen⟩ := h.previous
  refine ⟨⟨previous, ?_, hopen⟩, h.next, ?_⟩
  · show (segment :: front).getLast? = some previous
    have hlast : front.getLast? = some previous := hprevious
    rw [List.getLast?_cons, hlast]
    rfl
  · have hrecent := h.recent
    rw [List.append_assoc] at hrecent
    exact hrecent

/-- **Every comma has its place.** -/
theorem weave_spec (hplain : ∀ segment ∈ converted, segment.autoPunctuation = false)
    {front back : List LiveSegment} {mark : LiveSegment}
    (heq : weave rules comma boundaryConfidence before converted = front ++ mark :: back)
    (hmark : mark.autoPunctuation = true) :
    mark = inserted comma ∧ StandsBetween before front back := by
  -- the first segment is no mark
  have hfirst : ∀ segment ∈ converted, segment ≠ mark := by
    rintro segment hmem rfl
    exact absurd hmark (Bool.not_eq_true _ ▸ hplain segment hmem)
  fun_induction weave rules comma boundaryConfidence before converted generalizing front with
  | case1 => exact absurd heq (by simp)
  | case2 before current =>
    cases front with
    | nil => exact absurd (List.cons.inj heq).1 (hfirst current List.mem_cons_self)
    | cons first front => exact absurd (List.cons.inj heq).2 (by simp)
  | case3 before current next rest before' hcomma ih =>
    have ih := fun (front : List LiveSegment) hback => @ih
      (fun other hother => hplain other (List.mem_cons_of_mem _ hother)) front hback
      (fun other hother => hfirst other (List.mem_cons_of_mem _ hother))
    cases front with
    | nil => exact absurd (List.cons.inj heq).1 (hfirst current List.mem_cons_self)
    | cons first front =>
      obtain ⟨rfl, htail⟩ := List.cons.inj heq
      cases front with
      | nil =>
        obtain ⟨rfl, rfl⟩ := List.cons.inj htail
        obtain ⟨hend, hstart, hrecent⟩ := of_commaBetween hcomma
        refine ⟨rfl, ⟨current, rfl, hplain current List.mem_cons_self, hend⟩, ⟨next, ?_, ?_, hstart⟩, ?_⟩
        · exact ends_weave.1
        · exact hplain next (List.mem_cons_of_mem _ List.mem_cons_self)
        · rw [textOf_singleton]
          exact hrecent
      | cons second front =>
        obtain ⟨rfl, hrest⟩ := List.cons.inj htail
        obtain ⟨hinserted, hplace⟩ := ih front hrest
        exact ⟨hinserted, (StandsBetween.cons hplace).cons⟩
  | case4 before current next rest before' hcomma ih =>
    cases front with
    | nil => exact absurd (List.cons.inj heq).1 (hfirst current List.mem_cons_self)
    | cons first front =>
      obtain ⟨rfl, htail⟩ := List.cons.inj heq
      obtain ⟨hinserted, hplace⟩ := ih
        (fun other hother => hplain other (List.mem_cons_of_mem _ hother)) htail
        (fun other hother => hfirst other (List.mem_cons_of_mem _ hother))
      exact ⟨hinserted, hplace.cons⟩

end Weave

/-! ## The result -/

/-- What `periodBehind` looks at first. -/
theorem of_periodBehind {rules : PunctuationRules} {converted : List LiveSegment} {last : LiveSegment}
    (h : periodBehind rules converted last = true) : isPunctuationEnd last.surface = false := by
  by_contra hend
  unfold periodBehind at h
  dsimp only at h
  rw [Bool.eq_true_of_not_eq_false hend, Bool.not_true, Bool.and_false, Bool.false_and,
    if_neg Bool.false_ne_true] at h
  cases h

set_option maxRecDepth 10000 in
/-- The marks are texts. -/
theorem validUtf8_marks (style : Bytes) : ValidUtf8 (commaOf style) ∧ ValidUtf8 (periodOf style) := by
  have hall : ∀ mark ∈ ["、", "，", "。", "．"].map utf8, isScalar mark = true := by decide
  unfold commaOf periodOf
  refine ⟨?_, ?_⟩
  · split_ifs
    · exact .of_isScalar (hall _ (by decide))
    · exact .of_isScalar (hall _ (by decide))
  · split_ifs
    · exact .of_isScalar (hall _ (by decide))
    · exact .of_isScalar (hall _ (by decide))

/-- What stands last does not depend on the positions. -/
theorem exists_last_of_map {front segments : List LiveSegment}
    (h : front.map unplaced = segments.map unplaced) (hlast : ∃ last ∈ segments.getLast?, OpenEnd last) :
    ∃ last ∈ front.getLast?, OpenEnd last := by
  obtain ⟨last, hmem, hopen⟩ := hlast
  have hmap := congrArg List.getLast? h
  rw [List.getLast?_map, List.getLast?_map, hmem] at hmap
  obtain ⟨other, hother, heq⟩ := Option.map_eq_some_iff.mp hmap
  have hunplaced : OpenEnd (unplaced other) := heq ▸ hopen
  exact ⟨other, hother, hunplaced⟩

/-- Nor does what stands first. -/
theorem exists_head_of_map {back segments : List LiveSegment}
    (h : back.map unplaced = segments.map unplaced) (hhead : ∃ head ∈ segments.head?, OpenStart head) :
    ∃ head ∈ back.head?, OpenStart head := by
  obtain ⟨head, hmem, hopen⟩ := hhead
  have hmap := congrArg List.head? h
  rw [List.head?_map, List.head?_map, hmem] at hmap
  obtain ⟨other, hother, heq⟩ := Option.map_eq_some_iff.mp hmap
  have hunplaced : OpenStart (unplaced other) := heq ▸ hopen
  exact ⟨other, hother, hunplaced⟩

/-- **A mark of the result**: a comma between two segments of the text without punctuation, with no
comma among the six code points before; or a period at the very end. -/
structure MarkAt (style : Bytes) (front : List LiveSegment) (mark : LiveSegment)
    (back : List LiveSegment) : Prop where
  previous : ∃ previous ∈ front.getLast?, OpenEnd previous
  kind : (mark.surface = periodOf style ∧ back = [])
    ∨ (mark.surface = commaOf style ∧ (∃ next ∈ back.head?, OpenStart next)
      ∧ ∀ before comma after, comma ∈ commas → textOf front = before ++ (comma ++ after) →
        6 ≤ codePoints after)

/-- The segments that are placed. -/
def woven (converted : List LiveSegment) (rules : PunctuationRules) (style : Bytes)
    (boundaryConfidence : Double) : List LiveSegment :=
  weave rules (commaOf style) boundaryConfidence [] converted
    ++ if converted.getLast?.any (periodBehind rules converted) then [inserted (periodOf style)] else []

section Insert

variable {converted : List LiveSegment} {rules : PunctuationRules} {style : Bytes}
  {boundaryConfidence : Double}

/-- **`Insert` weaves and places.** -/
theorem insert_eq_foldl : insert converted rules style boundaryConfidence
    = (woven converted rules style boundaryConfidence).foldl appendSegment {} := by
  unfold insert woven
  cases hlast : converted.getLast? with
  | none =>
    rw [List.getLast?_eq_none_iff.mp hlast]
    rfl
  | some last =>
    rw [List.foldl_append, insertCommas_eq]
    show (if periodBehind rules converted last then _ else _) = _
    by_cases hperiod : periodBehind rules converted last = true
    · rw [if_pos hperiod, if_pos (show Option.any (periodBehind rules converted) (some last) = true from hperiod)]
      rfl
    · rw [if_neg hperiod, if_neg (show ¬ Option.any (periodBehind rules converted) (some last) = true from hperiod)]
      rfl

/-- **Every mark has its place** before it is placed. -/
theorem markAt_woven (hvalid : ∀ segment ∈ converted, ValidUtf8 segment.surface)
    (hplain : ∀ segment ∈ converted, segment.autoPunctuation = false)
    {front back : List LiveSegment} {mark : LiveSegment}
    (heq : woven converted rules style boundaryConfidence = front ++ mark :: back)
    (hmark : mark.autoPunctuation = true) : MarkAt style front mark back := by
  have hcomma : ∀ rest, weave rules (commaOf style) boundaryConfidence [] converted = front ++ mark :: rest →
      (∀ next ∈ rest.head?, next ∈ back.head?) → MarkAt style front mark back := by
    intro rest hrest hhead
    obtain ⟨rfl, hplace⟩ := weave_spec hplain hrest hmark
    have hfront : ValidUtf8 (textOf front) := validUtf8_textOf fun segment hsegment => by
      have hmem : segment ∈ weave rules (commaOf style) boundaryConfidence [] converted := by
        rw [hrest]
        exact List.mem_append_left _ hsegment
      rcases mem_weave hmem with hconverted | rfl
      · exact hvalid segment hconverted
      · exact (validUtf8_marks style).1
    obtain ⟨next, hnext, hopen⟩ := hplace.next
    refine ⟨hplace.previous, Or.inr ⟨rfl, ⟨next, hhead next hnext, hopen⟩, ?_⟩⟩
    intro before comma after hmem hsplit
    exact six_le_of_recentComma hfront hplace.recent hmem hsplit
  unfold woven at heq
  split at heq
  · rename_i hperiod
    obtain ⟨rfl, hweave, rfl⟩ | ⟨rest, rfl, hweave⟩ := split_concat heq
    · obtain ⟨last, hlast, hbehind⟩ := (Option.any_eq_true _ _).mp hperiod
      refine ⟨⟨last, ?_, ?_, of_periodBehind hbehind⟩, Or.inl ⟨rfl, rfl⟩⟩
      · rw [← hweave, ends_weave.2]
        exact hlast
      · exact hplain last (List.mem_of_getLast? hlast)
    · refine hcomma rest hweave fun next hnext => ?_
      have hnext : rest.head? = some next := hnext
      show (rest ++ _).head? = some next
      rw [List.head?_append, hnext]
      rfl
  · rw [List.append_nil] at heq
    exact hcomma back heq fun _ hnext => hnext

/-- **Automatic punctuation**: the segments but for the marks are those that were converted, the
positions are those of the surface, and every mark has its place. -/
theorem insert_spec (hvalid : ∀ segment ∈ converted, ValidUtf8 segment.surface)
    (hplain : ∀ segment ∈ converted, segment.autoPunctuation = false) :
    Placed (insert converted rules style boundaryConfidence)
      ∧ ((insert converted rules style boundaryConfidence).segments.filter
          (fun segment => !segment.autoPunctuation)).map unplaced = converted.map unplaced
      ∧ ∀ front mark back,
        (insert converted rules style boundaryConfidence).segments = front ++ mark :: back →
          mark.autoPunctuation = true → MarkAt style front mark back := by
  have hwoven : ∀ segment ∈ woven converted rules style boundaryConfidence,
      ValidUtf8 segment.surface := by
    intro segment hmem
    rcases List.mem_append.mp hmem with hweave | hperiod
    · rcases mem_weave hweave with hconverted | rfl
      · exact hvalid segment hconverted
      · exact (validUtf8_marks style).1
    · split at hperiod
      · rw [List.mem_singleton.mp hperiod]
        exact (validUtf8_marks style).2
      · exact absurd hperiod List.not_mem_nil
  have hstart : Placed {} :=
    ⟨rfl, fun _ h => absurd h List.not_mem_nil, fun _ _ _ h => absurd h (by simp)⟩
  obtain ⟨hplaced, hmap⟩ := foldl_appendSegment hwoven hstart
  rw [← insert_eq_foldl] at hplaced hmap
  have hmap : (insert converted rules style boundaryConfidence).segments.map unplaced
      = (woven converted rules style boundaryConfidence).map unplaced := hmap
  refine ⟨hplaced, ?_, ?_⟩
  · have hfilter : ∀ segments : List LiveSegment,
        (segments.filter (fun segment => !segment.autoPunctuation)).map unplaced
          = (segments.map unplaced).filter (fun segment => !segment.autoPunctuation) :=
      fun segments => by rw [List.filter_map]; rfl
    have hwithout : (woven converted rules style boundaryConfidence).filter
        (fun segment => !segment.autoPunctuation) = converted := by
      unfold woven
      rw [List.filter_append, filter_weave hplain]
      split
      · exact List.append_nil _
      · exact List.append_nil _
    rw [hfilter, hmap, ← hfilter, hwithout]
  · intro front mark back heq hmark
    rw [heq, List.map_append, List.map_cons] at hmap
    obtain ⟨front', rest, hsplit, hfront, hrest⟩ := List.map_eq_append_iff.mp hmap.symm
    obtain ⟨mark', back', rfl, hmark', hback⟩ := List.map_eq_cons_iff.mp hrest
    have hauto : mark'.autoPunctuation = true :=
      (congrArg LiveSegment.autoPunctuation hmark').trans hmark
    have hsurface : (unplaced mark').surface = (unplaced mark).surface := by rw [hmark']
    have hsurface : mark'.surface = mark.surface := hsurface
    have htext : textOf front' = textOf front := by
      rw [← textOf_map_unplaced, hfront, textOf_map_unplaced]
    obtain ⟨hprevious, hkind⟩ := markAt_woven hvalid hplain hsplit hauto
    refine ⟨exists_last_of_map hfront.symm hprevious, ?_⟩
    rw [hsurface, htext] at hkind
    rcases hkind with ⟨hperiod, rfl⟩ | ⟨hcomma, hnext, hrecent⟩
    · exact Or.inl ⟨hperiod, List.map_eq_nil_iff.mp hback.symm⟩
    · exact Or.inr ⟨hcomma, exists_head_of_map hback.symm hnext, hrecent⟩

end Insert

/-- A segment that has been converted, of score one. -/
def segmentOf (surface : String) : LiveSegment :=
  { inserted (utf8 surface) with autoPunctuation := false, pos := 0, score := Double.round false 1 }

/-- One rule, for a comma behind ので. -/
def nodeRules : PunctuationRules :=
  ⟨[{ kind := .comma, «match» := utf8 "ので", baseScore := Double.round false 1, guards := [] }]⟩

/-- A comma behind ので. -/
theorem insert_spec_node :
    (insert [segmentOf "雨なので", segmentOf "休む"] nodeRules [] (.finite (.zero false))).surface
        = utf8 "雨なので、休む"
      ∧ Placed (insert [segmentOf "雨なので", segmentOf "休む"] nodeRules [] (.finite (.zero false))) := by
  have htexts : ∀ segment ∈ [segmentOf "雨なので", segmentOf "休む"],
      Core.Dictionary.isValidUtf8 segment.surface = true ∧ segment.autoPunctuation = false := by
    decide +kernel
  refine ⟨by decide +kernel, (insert_spec (fun segment hmem => ?_) fun segment hmem => ?_).1⟩
  · exact (Core.Dictionary.isValidUtf8_iff.mp (htexts segment hmem).1).1
  · exact (htexts segment hmem).2

end Punctuation

end AzooKey.Host

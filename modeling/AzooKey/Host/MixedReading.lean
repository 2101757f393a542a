import AzooKey.Core.MixedRomajiSplitter
import AzooKey.Core.Utf8Readers
import AzooKey.Ipc.Payloads
import AzooKey.Lib.FindText
import Mathlib.Data.List.Chain

/-!
# Mixed readings

`BuildMixedReading` and `SegmentsOf` of `inference-host/src/Dispatcher.cpp`. A split of
the typed letters into Japanese and English segments is joined into a reading to
convert, and the surface that the conversion answers is cut back into one segment for
each part of the reading.

The cut is found by walking along the surface: the first place after the walk's cursor
where the next English word stands ends the Japanese piece before it. `walk_iff` says
that the walk finds a cut exactly when there is one in which every word stands at its
first place, and which segments it then answers.
-/

namespace AzooKey.Host

open AzooKey.Core (MixedRomajiSegment decodeNextUtf8)
open AzooKey.Ipc (LiveSegment)

/-! ## The reading -/

/-- `MixedReading::Part`. -/
structure MixedReading.Part where
  english : Bool
  rawBegin : ℕ
  rawEnd : ℕ
  text : Bytes
deriving DecidableEq, Repr

open MixedReading (Part)

/-- No two Japanese parts stand next to each other. -/
def Separated (parts : List Part) : Prop :=
  parts.IsChain (fun a b => a.english = true ∨ b.english = true)

/-- `MixedReading`. -/
structure MixedReading where
  parts : List Part
  reading : Bytes
  englishRanges : List (ℕ × ℕ)
  separated : Separated parts

/-- A range of the typed letters. -/
def rawRange (rawRomaji : Bytes) (rawBegin rawEnd : ℕ) : Bytes :=
  (rawRomaji.drop rawBegin).take (rawEnd - rawBegin)

/-- The kana of a run of Japanese segments. -/
def runKana (rawRomaji : Bytes) (rawBegin rawEnd : ℕ) : Bytes :=
  let lower := (rawRange rawRomaji rawBegin rawEnd).map
    (fun c => if 0x41 ≤ c ∧ c ≤ 0x5a then c - 0x41 + 0x61 else c)
  Core.RomajiKanaConverter.convertForCommit lower none

/-- One segment joins the parts: a Japanese one joins the run before it. -/
def joinSegment (parts : List Part) (item : MixedRomajiSegment × Bool) : List Part :=
  let segment := item.1
  if item.2 then parts ++ [⟨true, segment.rawBegin, segment.rawEnd, segment.surface⟩]
  else
    match parts.getLast? with
    | none => parts ++ [⟨false, segment.rawBegin, segment.rawEnd, []⟩]
    | some back =>
      if !back.english then parts.dropLast ++ [{ back with rawEnd := segment.rawEnd }]
      else parts ++ [⟨false, segment.rawBegin, segment.rawEnd, []⟩]

/-- The kana of a Japanese part is filled in. -/
def fillText (rawRomaji : Bytes) (part : Part) : Part :=
  if !part.english then { part with text := runKana rawRomaji part.rawBegin part.rawEnd } else part

/-- One part joins the reading, and its range the English ones. -/
def appendPart (r : Bytes × List (ℕ × ℕ)) (part : Part) : Bytes × List (ℕ × ℕ) :=
  (r.1 ++ part.text,
    if !part.english then r.2 else r.2 ++ [(r.1.length, r.1.length + part.text.length)])

/-- The parts of a split. -/
def joinedParts (split : List MixedRomajiSegment) (english : List Bool) : List Part :=
  (split.zip english).foldl joinSegment []

/-- A segment keeps the Japanese parts apart. -/
theorem separated_joinSegment {parts : List Part} (h : Separated parts)
    (item : MixedRomajiSegment × Bool) : Separated (joinSegment parts item) := by
  unfold joinSegment
  dsimp only
  split_ifs with henglish
  · exact h.append (.singleton _) (by simp)
  · cases hback : parts.getLast? with
    | none =>
      rw [List.getLast?_eq_none_iff.mp hback]
      exact .singleton _
    | some back =>
      dsimp only
      split_ifs with hjapanese
      · -- the run keeps its place and its kind
        obtain ⟨front, rfl⟩ := List.getLast?_eq_some_iff.mp hback
        rw [List.dropLast_concat]
        obtain ⟨hfront, -, hlast⟩ := List.isChain_append.mp h
        exact hfront.append (.singleton _) (fun a ha b hb => by
          rw [List.head?_cons, Option.mem_some_iff] at hb
          subst hb
          exact hlast a ha back rfl)
      · refine h.append (.singleton _) (fun a ha b _ => Or.inl ?_)
        rw [hback, Option.mem_some_iff] at ha
        subst ha
        simpa using hjapanese

/-- The parts of a split are separated. -/
theorem separated_joinedParts (split : List MixedRomajiSegment) (english : List Bool) :
    Separated (joinedParts split english) := by
  unfold joinedParts
  generalize split.zip english = items
  suffices h : ∀ parts, Separated parts → Separated (items.foldl joinSegment parts) from
    h [] .nil
  induction items with
  | nil => exact fun parts h => h
  | cons item items ih => exact fun parts h => ih _ (separated_joinSegment h item)

/-- Filling keeps the kinds. -/
@[simp] theorem english_fillText (rawRomaji : Bytes) (part : Part) :
    (fillText rawRomaji part).english = part.english := by
  unfold fillText
  split_ifs <;> rfl

/-- Filling keeps the parts separated. -/
theorem separated_map_fillText {parts : List Part} (h : Separated parts) (rawRomaji : Bytes) :
    Separated (parts.map (fillText rawRomaji)) := by
  unfold Separated at h ⊢
  rw [List.isChain_map]
  simpa using h

/-- **`BuildMixedReading`.** -/
def buildMixedReading (split : List MixedRomajiSegment) (rawRomaji : Bytes)
    (english : List Bool) : MixedReading :=
  let parts := (joinedParts split english).map (fillText rawRomaji)
  let filled := parts.foldl appendPart ([], [])
  { parts
    reading := filled.1
    englishRanges := filled.2
    separated := separated_map_fillText (separated_joinedParts split english) rawRomaji }

/-! ## The segments -/

/-- `Utf16Length`: an invalid byte counts as one unit. -/
def utf16Length (text : Bytes) : UInt32 :=
  match h : decodeNextUtf8 text with
  | none => 0
  | some d =>
    let codepoint := if d.ok then d.codepoint else 0
    (if 0xffff < codepoint then 2 else 1) + utf16Length d.rest
termination_by text.length
decreasing_by exact Core.decodeNextUtf8_rest_lt h

/-- The walk of `SegmentsOf` along the surface. -/
structure Walk where
  offset : UInt32 := 0
  cursor : ℕ := 0
  segments : List LiveSegment := []

/-- One segment; `CandidateTag::English` is four. -/
def segmentAt (score : Double) (offset : UInt32) (text reading : Bytes) (english : Bool) :
    LiveSegment where
  startChar := offset
  endChar := offset + utf16Length text
  score := score
  autoPunctuation := false
  surface := text
  reading := reading
  pos := 0
  headPos := 0
  sem := 0
  headSem := 0
  tag := if english then 4 else 0

/-- `push`. -/
def Walk.push (score : Double) (w : Walk) (text reading : Bytes) (english : Bool) : Walk :=
  { w with
    offset := w.offset + utf16Length text
    segments := w.segments ++ [segmentAt score w.offset text reading english] }

/-- The loop over the parts, with the part before. -/
def walk (surface rawRomaji : Bytes) (score : Double) : Option Part → List Part → Walk → Option Walk
  | _, [], w => some w
  | previous, part :: rest, w =>
    if !part.english then
      -- closed by the next English part
      if rest ≠ [] then walk surface rawRomaji score (some part) rest w
      else if surface.length ≤ w.cursor then none
      else some { w.push score (surface.drop w.cursor) part.text false with
        cursor := surface.length }
    else
      match findText surface part.text w.cursor with
      | none => none
      | some found =>
        let japaneseBefore := previous.any (fun p => !p.english)
        if japaneseBefore ≠ decide (w.cursor < found) then none
        else
          let closed := if japaneseBefore then
            w.push score ((surface.drop w.cursor).take (found - w.cursor))
              ((previous.map Part.text).getD []) false
            else w
          walk surface rawRomaji score (some part) rest
            { closed.push score part.text (rawRange rawRomaji part.rawBegin part.rawEnd) true with
              cursor := found + part.text.length }

/-- **`SegmentsOf`.** -/
def segmentsOf (surface : Bytes) (mixed : MixedReading) (rawRomaji : Bytes) (score : Double) :
    Option (List LiveSegment) :=
  match walk surface rawRomaji score none mixed.parts {} with
  | none => none
  | some w => if w.cursor ≠ surface.length then none else some w.segments

/-! ## Cuts of a surface -/

/-- A piece that a part can have. -/
def PieceFits (part : Part) (piece : Bytes) : Prop :=
  if part.english then piece = part.text else piece ≠ []

/-- **A cut of a surface**: one piece for each part. -/
structure IsCut (parts : List Part) (surface : Bytes) (pieces : List Bytes) : Prop where
  fits : List.Forall₂ PieceFits parts pieces
  flatten : pieces.flatten = surface

/-- Every English word stands at its first place after a Japanese piece. -/
def FirstPlaced : List Part → List Bytes → Prop
  | part :: next :: parts, piece :: word :: pieces =>
    (part.english = false → findText (piece ++ word) word 0 = some piece.length)
      ∧ FirstPlaced (next :: parts) (word :: pieces)
  | _, _ => True

/-- The segments of a cut. -/
def describe (rawRomaji : Bytes) (score : Double) :
    UInt32 → List Part → List Bytes → List LiveSegment
  | offset, part :: parts, piece :: pieces =>
    segmentAt score offset piece
        (if part.english then rawRange rawRomaji part.rawBegin part.rawEnd else part.text)
        part.english
      :: describe rawRomaji score (offset + utf16Length piece) parts pieces
  | _, _, _ => []

/-- An English part has its text. -/
theorem fits_english {part : Part} (h : part.english = true) {piece : Bytes} :
    PieceFits part piece ↔ piece = part.text := by
  simp [PieceFits, h]

/-- The text of an English part fits it. -/
theorem fits_text {part : Part} (h : part.english = true) : PieceFits part part.text :=
  (fits_english h).mpr rfl

/-- A Japanese part has any text that is not empty. -/
theorem fits_japanese {part : Part} (h : part.english = false) {piece : Bytes} :
    PieceFits part piece ↔ piece ≠ [] := by
  simp [PieceFits, h]

/-- A cut is a piece for the first part and a cut for the others. -/
theorem isCut_cons {part : Part} {parts : List Part} {rest : Bytes} {pieces : List Bytes} :
    IsCut (part :: parts) rest pieces ↔ ∃ piece pieces' rest', pieces = piece :: pieces'
      ∧ PieceFits part piece ∧ rest = piece ++ rest' ∧ IsCut parts rest' pieces' := by
  constructor
  · rintro ⟨hfits, rfl⟩
    obtain ⟨piece, pieces', hpiece, hpieces, rfl⟩ := List.forall₂_cons_left_iff.mp hfits
    exact ⟨piece, pieces', pieces'.flatten, rfl, hpiece, rfl, hpieces, rfl⟩
  · rintro ⟨piece, pieces', rest', rfl, hpiece, rfl, hpieces, rfl⟩
    exact ⟨.cons hpiece hpieces, rfl⟩

/-- An English word begins the rest of a cut. -/
theorem firstPlaced_cons_english {part : Part} (h : part.english = true) (parts : List Part)
    (piece : Bytes) (pieces : List Bytes) :
    FirstPlaced (part :: parts) (piece :: pieces) ↔ FirstPlaced parts pieces := by
  cases parts with
  | nil => simp [FirstPlaced]
  | cons next parts =>
    cases pieces with
    | nil => simp [FirstPlaced]
    | cons word pieces => simp [FirstPlaced, h]

/-- The Japanese part that is not closed yet. -/
def openPart (previous : Option Part) : List Part := previous.toList.filter (fun p => !p.english)

/-- No part is open at the start and after an English one. -/
theorem openPart_of_english {part : Part} (h : part.english = true) :
    openPart (some part) = [] := by
  simp [openPart, h]

/-- A Japanese part is open. -/
theorem openPart_of_japanese {part : Part} (h : part.english = false) :
    openPart (some part) = [part] := by
  simp [openPart, h]

/-- A Japanese part that more parts follow is closed later. -/
theorem walk_japanese {surface rawRomaji : Bytes} {score : Double} {part : Part}
    {parts : List Part} {previous : Option Part} {w : Walk} (hjapanese : part.english = false)
    (hne : parts ≠ []) :
    walk surface rawRomaji score previous (part :: parts) w
      = walk surface rawRomaji score (some part) parts w := by
  rw [walk, if_pos (by simp [hjapanese]), if_pos hne]

/-- A Japanese part at the end takes the rest. -/
theorem walk_last {surface rawRomaji : Bytes} {score : Double} {part : Part}
    {previous : Option Part} {w : Walk} {front rest : Bytes} (hjapanese : part.english = false)
    (hsurface : surface = front ++ rest) (hcursor : w.cursor = front.length) :
    walk surface rawRomaji score previous [part] w
      = if rest = [] then none
        else some { w.push score rest part.text false with cursor := surface.length } := by
  have hdrop : surface.drop w.cursor = rest := by rw [hcursor, hsurface, List.drop_left]
  have hend : surface.length ≤ w.cursor ↔ rest = [] := by
    rw [hcursor, hsurface, List.length_append, ← List.length_eq_zero_iff]
    omega
  rw [walk, if_pos (by simp [hjapanese]), if_neg (by simp), hdrop]
  exact if_congr hend rfl rfl

/-- The walk after an English word, with the gap before it. -/
def Walk.close (score : Double) (rawRomaji : Bytes) (w : Walk) (previous : Option Part)
    (gap : Bytes) (part : Part) : Walk :=
  let closed := if previous.any (fun p => !p.english) then
    w.push score gap ((previous.map Part.text).getD []) false else w
  { closed.push score part.text (rawRange rawRomaji part.rawBegin part.rawEnd) true with
    cursor := w.cursor + gap.length + part.text.length }

/-- A word stands after the cursor when there is a gap before it. -/
theorem decide_lt_add_length (cursor : ℕ) (gap : Bytes) :
    decide (cursor < cursor + gap.length) = decide (gap ≠ []) := by
  refine decide_eq_decide.mpr ?_
  rw [← List.length_pos_iff]
  omega

/-- An English part is looked for: there is a gap before it exactly when a Japanese part
is open. -/
theorem walk_english {surface rawRomaji : Bytes} {score : Double} {part : Part}
    {parts : List Part} {previous : Option Part} {w w' : Walk} {front rest : Bytes}
    (henglish : part.english = true) (hsurface : surface = front ++ rest)
    (hcursor : w.cursor = front.length) :
    walk surface rawRomaji score previous (part :: parts) w = some w'
      ↔ ∃ gap rest', rest = gap ++ (part.text ++ rest')
        ∧ findText (gap ++ part.text) part.text 0 = some gap.length
        ∧ previous.any (fun p => !p.english) = decide (gap ≠ [])
        ∧ walk surface rawRomaji score (some part) parts
          (w.close score rawRomaji previous gap part) = some w' := by
  have hdrop : surface.drop w.cursor = rest := by rw [hcursor, hsurface, List.drop_left]
  have hfound : ∀ i, findText surface part.text w.cursor = some (w.cursor + i)
      ↔ findText rest part.text 0 = some i := by
    intro i
    rw [hcursor, hsurface]
    exact findText_append_length front rest part.text
  rw [walk, if_neg (by simp [henglish])]
  constructor
  · intro h
    cases hfind : findText surface part.text w.cursor with
    | none =>
      rw [hfind] at h
      cases h
    | some found =>
      obtain ⟨i, rfl⟩ := Nat.exists_eq_add_of_le (findText_eq_some_iff.mp hfind).1
      obtain ⟨gap, rest', hrest, hlength, hplaced⟩ := exists_of_findText ((hfound i).mp hfind)
      have hgap := decide_lt_add_length w.cursor gap
      rw [hlength] at hgap
      have htake : (surface.drop w.cursor).take (w.cursor + i - w.cursor) = gap := by
        rw [hdrop, hrest, Nat.add_sub_cancel_left, ← hlength, List.take_left]
      rw [hfind] at h
      dsimp only at h
      rw [hgap, htake] at h
      by_cases hbefore : previous.any (fun p => !p.english) = decide (gap ≠ [])
      · rw [if_neg (not_not.mpr hbefore)] at h
        refine ⟨gap, rest', hrest, hplaced, hbefore, ?_⟩
        rw [← h, Walk.close, hlength]
      · rw [if_pos hbefore] at h
        cases h
  · rintro ⟨gap, rest', hrest, hplaced, hbefore, hwalk⟩
    have hfind : findText surface part.text w.cursor = some (w.cursor + gap.length) := by
      rw [hfound, hrest, findText_append_word]
      exact hplaced
    have hgap := decide_lt_add_length w.cursor gap
    have htake : (surface.drop w.cursor).take (w.cursor + gap.length - w.cursor) = gap := by
      rw [hdrop, hrest, Nat.add_sub_cancel_left, List.take_left]
    rw [hfind]
    dsimp only
    rw [hgap, htake, if_neg (not_not.mpr hbefore), ← hwalk, Walk.close]

/-- Where no part is open, the one before is not Japanese. -/
theorem any_of_openPart_nil {previous : Option Part} (h : openPart previous = []) :
    previous.any (fun p => !p.english) = false := by
  cases previous with
  | none => rfl
  | some part => simpa [openPart] using h

/-- An open part is the one before, and Japanese. -/
theorem exists_of_openPart {previous : Option Part} (h : openPart previous ≠ []) :
    ∃ part, openPart previous = [part] ∧ part.english = false ∧ previous = some part := by
  cases previous with
  | none => exact absurd rfl h
  | some part =>
    by_cases henglish : part.english = true
    · exact absurd (openPart_of_english henglish) h
    · have hjapanese : part.english = false := by simpa using henglish
      exact ⟨part, openPart_of_japanese hjapanese, hjapanese, rfl⟩

/-- **An English part of a cut**: a gap in which its word does not begin, and only where
a Japanese part is open, then the word. -/
theorem isCut_english_iff {part : Part} {parts : List Part} {previous : Option Part}
    {rest : Bytes} {pieces : List Bytes} (henglish : part.english = true) :
    IsCut (openPart previous ++ part :: parts) rest pieces
        ∧ FirstPlaced (openPart previous ++ part :: parts) pieces
      ↔ ∃ gap rest' pieces', rest = gap ++ (part.text ++ rest')
        ∧ findText (gap ++ part.text) part.text 0 = some gap.length
        ∧ previous.any (fun p => !p.english) = decide (gap ≠ [])
        ∧ IsCut parts rest' pieces' ∧ FirstPlaced parts pieces'
        ∧ pieces = (openPart previous).map (fun _ => gap) ++ part.text :: pieces' := by
  by_cases hnone : openPart previous = []
  · -- no gap before the word
    have hany : previous.any (fun p => !p.english) = false := any_of_openPart_nil hnone
    rw [hnone, hany]
    constructor
    · rintro ⟨hcut, hplaced⟩
      obtain ⟨piece, pieces', rest', rfl, hfits, hrest, hcut'⟩ := isCut_cons.mp hcut
      obtain rfl := (fits_english henglish).mp hfits
      refine ⟨[], rest', pieces', hrest, ?_, rfl, hcut',
        (firstPlaced_cons_english henglish _ _ _).mp hplaced, rfl⟩
      exact findText_eq_some_iff.mpr ⟨le_rfl, Nat.zero_le _, List.prefix_rfl, by simp⟩
    · rintro ⟨gap, rest', pieces', hrest, -, hgap, hcut, hplaced, rfl⟩
      rw [eq_comm, decide_eq_false_iff_not, not_not] at hgap
      subst hgap
      exact ⟨isCut_cons.mpr ⟨_, _, rest', rfl, fits_text henglish, hrest, hcut⟩,
        (firstPlaced_cons_english henglish _ _ _).mpr hplaced⟩
  · -- a Japanese piece before the word
    obtain ⟨p, hp, hpart, rfl⟩ := exists_of_openPart hnone
    have hany : (some p).any (fun p => !p.english) = true := by simp [hpart]
    rw [hp, hany]
    constructor
    · rintro ⟨hcut, hplaced⟩
      obtain ⟨gap, pieces', tail, rfl, hfits, hrest, hcut'⟩ := isCut_cons.mp hcut
      obtain ⟨word, pieces'', rest', rfl, hword, rfl, hcut''⟩ := isCut_cons.mp hcut'
      obtain rfl := (fits_english henglish).mp hword
      exact ⟨gap, rest', pieces'', hrest, hplaced.1 hpart,
        (decide_eq_true ((fits_japanese hpart).mp hfits)).symm, hcut'',
        (firstPlaced_cons_english henglish _ _ _).mp hplaced.2, rfl⟩
    · rintro ⟨gap, rest', pieces', hrest, hfirst, hgap, hcut, hplaced, rfl⟩
      have hne := of_decide_eq_true hgap.symm
      have hword := isCut_cons.mpr ⟨part.text, pieces', rest', rfl, fits_text henglish, rfl, hcut⟩
      exact ⟨isCut_cons.mpr ⟨gap, _, _, rfl, (fits_japanese hpart).mpr hne, hrest, hword⟩,
        fun _ => hfirst, (firstPlaced_cons_english henglish _ _ _).mpr hplaced⟩

/-- What the walk has pushed after an English word. -/
theorem describe_close {rawRomaji : Bytes} {score : Double} {w : Walk} {previous : Option Part}
    {part : Part} (henglish : part.english = true) (gap : Bytes) (parts : List Part)
    (pieces : List Bytes) :
    (w.close score rawRomaji previous gap part).segments
        ++ describe rawRomaji score (w.close score rawRomaji previous gap part).offset parts pieces
      = w.segments ++ describe rawRomaji score w.offset (openPart previous ++ part :: parts)
        ((openPart previous).map (fun _ => gap) ++ part.text :: pieces) := by
  by_cases hnone : openPart previous = []
  · have hany : previous.any (fun p => !p.english) = false := any_of_openPart_nil hnone
    simp [hnone, Walk.close, hany, Walk.push, describe, henglish]
  · obtain ⟨p, hp, hpart, rfl⟩ := exists_of_openPart hnone
    simp [hp, Walk.close, hpart, Walk.push, describe, henglish]

/-- The walk reaches the end of the surface, with the given segments. -/
def Finds (surface rawRomaji : Bytes) (score : Double) (previous : Option Part)
    (parts : List Part) (w : Walk) (segments : List LiveSegment) : Prop :=
  ∃ w', walk surface rawRomaji score previous parts w = some w'
    ∧ w'.cursor = surface.length ∧ w'.segments = segments

/-- **The walk finds what a cut finds**: from a cursor on, with the Japanese part that is
not closed yet. -/
theorem walk_iff {surface rawRomaji : Bytes} {score : Double} {parts : List Part}
    {previous : Option Part} {w : Walk} {front rest : Bytes} {segments : List LiveSegment}
    (hseparated : Separated (openPart previous ++ parts))
    (hopen : openPart previous ≠ [] → parts ≠ [])
    (hsurface : surface = front ++ rest) (hcursor : w.cursor = front.length) :
    Finds surface rawRomaji score previous parts w segments
      ↔ ∃ pieces, (IsCut (openPart previous ++ parts) rest pieces
          ∧ FirstPlaced (openPart previous ++ parts) pieces)
        ∧ segments = w.segments
          ++ describe rawRomaji score w.offset (openPart previous ++ parts) pieces := by
  induction parts generalizing previous w front rest with
  | nil =>
    have hnone : openPart previous = [] := by
      by_contra hne
      exact hopen hne rfl
    rw [hnone, List.append_nil]
    constructor
    · rintro ⟨w', hw, hend, rfl⟩
      cases hw
      have hrest : rest = [] := by
        rw [hcursor, hsurface, List.length_append] at hend
        exact List.length_eq_zero_iff.mp (by omega)
      exact ⟨[], ⟨⟨.nil, hrest.symm⟩, trivial⟩, by simp [describe]⟩
    · rintro ⟨pieces, ⟨hcut, -⟩, rfl⟩
      have hpieces : pieces = [] := List.forall₂_nil_left_iff.mp hcut.fits
      have hrest : rest = [] := by
        rw [← hcut.flatten, hpieces]
        rfl
      refine ⟨w, rfl, ?_, by simp [describe]⟩
      rw [hcursor, hsurface, hrest, List.append_nil]
  | cons part parts ih =>
    by_cases henglish : part.english = true
    · have hstep : ∀ gap rest', rest = gap ++ (part.text ++ rest') →
          (Finds surface rawRomaji score (some part) parts
              (w.close score rawRomaji previous gap part) segments
            ↔ ∃ pieces, (IsCut parts rest' pieces ∧ FirstPlaced parts pieces)
              ∧ segments = w.segments
                ++ describe rawRomaji score w.offset (openPart previous ++ part :: parts)
                  ((openPart previous).map (fun _ => gap) ++ part.text :: pieces)) := by
        intro gap rest' hrest
        have hback := @ih (some part) (w.close score rawRomaji previous gap part)
          (front ++ (gap ++ part.text)) rest'
        rw [openPart_of_english henglish] at hback
        simp only [List.nil_append, describe_close henglish] at hback
        refine hback (List.isChain_append.mp hseparated).2.1.tail (fun h => absurd rfl h) ?_ ?_
        · rw [hsurface, hrest]
          simp
        · show w.cursor + gap.length + part.text.length = _
          rw [hcursor]
          simp [Nat.add_assoc]
      constructor
      · rintro ⟨w', hw, hend, hsegments⟩
        obtain ⟨gap, rest', hrest, hfirst, hgap, hwalk⟩ :=
          (walk_english henglish hsurface hcursor).mp hw
        obtain ⟨pieces, ⟨hcut, hplaced⟩, hdescribe⟩ :=
          (hstep gap rest' hrest).mp ⟨w', hwalk, hend, hsegments⟩
        exact ⟨_, (isCut_english_iff henglish).mpr
          ⟨gap, rest', pieces, hrest, hfirst, hgap, hcut, hplaced, rfl⟩, hdescribe⟩
      · rintro ⟨pieces, hcut, hdescribe⟩
        obtain ⟨gap, rest', pieces', hrest, hfirst, hgap, hcut', hplaced, rfl⟩ :=
          (isCut_english_iff henglish).mp hcut
        obtain ⟨w', hwalk, hend, hsegments⟩ :=
          (hstep gap rest' hrest).mpr ⟨pieces', ⟨hcut', hplaced⟩, hdescribe⟩
        exact ⟨w', (walk_english henglish hsurface hcursor).mpr
          ⟨gap, rest', hrest, hfirst, hgap, hwalk⟩, hend, hsegments⟩
    · have hjapanese : part.english = false := by simpa using henglish
      have hnone : openPart previous = [] := by
        by_contra hne
        obtain ⟨p, hp, hpart, -⟩ := exists_of_openPart hne
        rw [hp, List.singleton_append] at hseparated
        obtain h | h := (List.isChain_cons_cons.mp hseparated).1
        · exact absurd (hpart.symm.trans h) (by simp)
        · exact absurd (hjapanese.symm.trans h) (by simp)
      rw [hnone, List.nil_append] at hseparated ⊢
      by_cases hparts : parts = []
      · subst hparts
        unfold Finds
        rw [walk_last hjapanese hsurface hcursor]
        constructor
        · rintro ⟨w', hw, -, rfl⟩
          split_ifs at hw with hrest
          cases hw
          refine ⟨[rest], ⟨⟨.cons ((fits_japanese hjapanese).mpr hrest) .nil, by simp⟩, trivial⟩, ?_⟩
          simp [Walk.push, describe, hjapanese]
        · rintro ⟨pieces, ⟨hcut, -⟩, rfl⟩
          obtain ⟨piece, pieces', rest', rfl, hfits, rfl, hcut'⟩ := isCut_cons.mp hcut
          obtain rfl : pieces' = [] := List.forall₂_nil_left_iff.mp hcut'.fits
          obtain rfl : rest' = [] := hcut'.flatten.symm
          rw [List.append_nil, if_neg ((fits_japanese hjapanese).mp hfits)]
          refine ⟨_, rfl, rfl, ?_⟩
          simp [Walk.push, describe, hjapanese]
      · -- the next English part closes it
        have hnext := @ih (some part) w front rest
        rw [openPart_of_japanese hjapanese] at hnext
        unfold Finds at hnext ⊢
        rw [walk_japanese hjapanese hparts]
        exact hnext hseparated (fun _ => hparts) hsurface hcursor

end AzooKey.Host

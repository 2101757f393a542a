import AzooKey.Host.MixedReading
import AzooKey.Ipc.PayloadWriters
import AzooKey.Lib.CodePoints

/-!
# The segments of a mixed conversion

What `BuildMixedReading` builds and what `SegmentsOf` answers. The parts cover the
typed letters and the English ranges are where the English texts stand in the reading;
the segments are those of a cut of the surface, and their places count its UTF-16 units
(`mixedConversion_spec`). A place inside a code point is one that an English text can
only have that is no text itself.

`SegmentsOf` takes the first place of an English word. `segmentsOf_complete_iff` says
for which surfaces that finds a cut where there is one.
-/

namespace AzooKey.Host

open AzooKey.Core (MixedRomajiSegment decodeNextUtf8)
open AzooKey.Ipc (LiveSegment QueryLiveConversionResponse)
open MixedReading (Part)

/-! ## Ranges that follow each other -/

/-- Ranges that lead from one place to another. -/
def Tiles : ℕ → List (ℕ × ℕ) → ℕ → Prop
  | start, [], stop => start = stop
  | start, range :: ranges, stop => range.1 = start ∧ range.1 ≤ range.2 ∧ Tiles range.2 ranges stop

/-- Two tilings that meet. -/
theorem tiles_append {start stop : ℕ} (l₁ l₂ : List (ℕ × ℕ)) :
    Tiles start (l₁ ++ l₂) stop ↔ ∃ middle, Tiles start l₁ middle ∧ Tiles middle l₂ stop := by
  induction l₁ generalizing start with
  | nil => simp [Tiles]
  | cons range ranges ih => simp [Tiles, ih, and_assoc]

/-- The typed letters of a segment. -/
def segmentRange (segment : MixedRomajiSegment) : ℕ × ℕ := (segment.rawBegin, segment.rawEnd)

/-- The typed letters of a part. -/
def partRange (part : Part) : ℕ × ℕ := (part.rawBegin, part.rawEnd)

/-- One segment lengthens the tiling. -/
theorem tiles_joinSegment {parts : List Part} {item : MixedRomajiSegment × Bool}
    {start middle stop : ℕ} (h : Tiles start (parts.map partRange) middle)
    (hitem : Tiles middle [segmentRange item.1] stop) :
    Tiles start ((joinSegment parts item).map partRange) stop := by
  have hpush : ∀ part : Part, partRange part = segmentRange item.1 →
      Tiles start ((parts ++ [part]).map partRange) stop := by
    intro part hpart
    rw [List.map_append, List.map_singleton, hpart]
    exact (tiles_append _ _).mpr ⟨middle, h, hitem⟩
  unfold joinSegment
  dsimp only
  split_ifs with henglish
  · exact hpush _ rfl
  · cases hback : parts.getLast? with
    | none => exact hpush _ rfl
    | some back =>
      dsimp only
      split_ifs with hjapanese
      · obtain ⟨front, rfl⟩ := List.getLast?_eq_some_iff.mp hback
        rw [List.dropLast_concat]
        rw [List.map_append, List.map_singleton] at h ⊢
        obtain ⟨place, hfront, hbegin, hle, hend⟩ := (tiles_append _ _).mp h
        obtain ⟨hmiddle, hle', hstop⟩ := hitem
        refine (tiles_append _ _).mpr ⟨place, hfront, hbegin, ?_, hstop⟩
        exact le_trans hle (le_trans (le_of_eq (hend.trans hmiddle.symm)) hle')
      · exact hpush _ rfl

/-- **The parts cover what the segments cover.** -/
theorem tiles_joinedParts {split : List MixedRomajiSegment} {english : List Bool} {stop : ℕ}
    (hlength : english.length = split.length) (h : Tiles 0 (split.map segmentRange) stop) :
    Tiles 0 ((joinedParts split english).map partRange) stop := by
  have hzip : split.map segmentRange = (split.zip english).map (segmentRange ∘ Prod.fst) := by
    rw [← List.map_map, List.map_fst_zip hlength.ge]
  rw [hzip] at h
  unfold joinedParts
  generalize split.zip english = items at h
  suffices hrun : ∀ (parts : List Part) (middle : ℕ), Tiles 0 (parts.map partRange) middle →
      Tiles middle (items.map (segmentRange ∘ Prod.fst)) stop →
      Tiles 0 ((items.foldl joinSegment parts).map partRange) stop from hrun [] 0 rfl h
  clear h
  induction items with
  | nil =>
    rintro parts middle hparts rfl
    exact hparts
  | cons item items ih =>
    intro parts middle hparts hitems
    rw [List.map_cons] at hitems
    exact ih _ _ (tiles_joinSegment hparts ⟨hitems.1, hitems.2.1, rfl⟩) hitems.2.2

/-- Filling keeps the ranges. -/
theorem partRange_fillText (rawRomaji : Bytes) (part : Part) :
    partRange (fillText rawRomaji part) = partRange part := by
  unfold fillText
  split_ifs <;> rfl

/-! ## The reading and its English ranges -/

/-- Where the text of a part begins in the reading. -/
def textPlace (parts : List Part) (i : ℕ) : ℕ := ((parts.take i).flatMap Part.text).length

/-- The ranges of the English texts in the reading. -/
def englishPlaces (parts : List Part) : List (ℕ × ℕ) :=
  ((List.range parts.length).filter (fun i => parts[i]?.any Part.english)).map
    (fun i => (textPlace parts i, textPlace parts (i + 1)))

/-- One part more. -/
theorem englishPlaces_concat (parts : List Part) (part : Part) :
    englishPlaces (parts ++ [part]) = englishPlaces parts
      ++ (if part.english then [((parts.flatMap Part.text).length,
        (parts.flatMap Part.text).length + part.text.length)] else []) := by
  have hplace : ∀ i ≤ parts.length, textPlace (parts ++ [part]) i = textPlace parts i :=
    fun i hi => by
      unfold textPlace
      rw [List.take_append_of_le_length hi]
  have hend : textPlace (parts ++ [part]) (parts.length + 1)
      = (parts.flatMap Part.text).length + part.text.length := by
    unfold textPlace
    rw [List.take_of_length_le (by simp), List.flatMap_append, List.length_append]
    simp
  have hstart : textPlace parts parts.length = (parts.flatMap Part.text).length := by
    unfold textPlace
    rw [List.take_length]
  unfold englishPlaces
  rw [List.length_append, List.length_singleton, List.range_succ, List.filter_append,
    List.map_append]
  congr 1
  · have hfilter : (List.range parts.length).filter
        (fun i => (parts ++ [part])[i]?.any Part.english)
        = (List.range parts.length).filter (fun i => parts[i]?.any Part.english) :=
      List.filter_congr (fun i hi => by
        rw [List.getElem?_append_left (List.mem_range.mp hi)])
    rw [hfilter]
    refine List.map_congr_left (fun i hi => ?_)
    have hlt := List.mem_range.mp (List.mem_of_mem_filter hi)
    rw [hplace i hlt.le, hplace (i + 1) hlt]
  · cases henglish : part.english with
    | true => simp [henglish, hplace, hend, hstart]
    | false => simp [henglish]

/-- **The reading is the texts, and the ranges are where the English ones stand.** -/
theorem foldl_appendPart (parts : List Part) :
    parts.foldl appendPart ([], []) = (parts.flatMap Part.text, englishPlaces parts) := by
  induction parts using List.reverseRecOn with
  | nil => rfl
  | append_singleton parts part ih =>
    rw [List.foldl_append, ih, List.foldl_cons, List.foldl_nil, englishPlaces_concat, appendPart]
    cases part.english with
    | true => simp
    | false => simp

/-! ## UTF-16 units -/

/-- Nothing has no units. -/
@[simp] theorem utf16Length_nil : utf16Length [] = 0 := by
  rw [utf16Length]
  rfl

/-- One step of the count. -/
theorem utf16Length_of_decode {text : Bytes} {d : Core.Decoded} (h : decodeNextUtf8 text = some d) :
    utf16Length text
      = (if 0xffff < (if d.ok then d.codepoint else 0) then 2 else 1) + utf16Length d.rest := by
  rw [utf16Length]
  split
  · rename_i hnone
    rw [h] at hnone
    cases hnone
  · rename_i hsome
    rw [h] at hsome
    cases hsome
    rfl

/-- A code point has its own units. -/
theorem utf16Length_scalar {scalar : Bytes} (h : isScalar scalar = true) (text : Bytes) :
    utf16Length (scalar ++ text) = utf16Length scalar + utf16Length text := by
  have hunits : ∀ rest, utf16Length (scalar ++ rest)
      = (if 0xffff < Core.Dictionary.scalarValue scalar then 2 else 1) + utf16Length rest := by
    intro rest
    rw [utf16Length_of_decode (Core.decodeNextUtf8_append h rest)]
    rfl
  have halone := hunits []
  rw [List.append_nil, utf16Length_nil, UInt32.add_zero] at halone
  rw [hunits, halone]

/-- **The units of a text and of what follows it.** -/
theorem utf16Length_append {text : Bytes} (h : ValidUtf8 text) (rest : Bytes) :
    utf16Length (text ++ rest) = utf16Length text + utf16Length rest := by
  induction h with
  | nil => simp
  | @cons scalar text hscalar _ ih =>
    rw [List.append_assoc, utf16Length_scalar hscalar, utf16Length_scalar hscalar, ih,
      UInt32.add_assoc]

/-- The pieces of a cut are texts, where the surface and the English words are: a word
stands at its first place, so that it is not empty behind a Japanese piece. -/
theorem validUtf8_of_isCut {parts : List Part} {surface : Bytes} {pieces : List Bytes}
    (hseparated : Separated parts) (hcut : IsCut parts surface pieces)
    (hplaced : FirstPlaced parts pieces) (hvalid : ValidUtf8 surface)
    (henglish : ∀ part ∈ parts, part.english = true → ValidUtf8 part.text) :
    ∀ piece ∈ pieces, ValidUtf8 piece := by
  induction parts generalizing surface pieces with
  | nil =>
    rw [List.forall₂_nil_left_iff.mp hcut.fits]
    exact fun piece hpiece => absurd hpiece List.not_mem_nil
  | cons part parts ih =>
    obtain ⟨piece, pieces', rest, rfl, hfits, rfl, hcut'⟩ := isCut_cons.mp hcut
    have hplaced' : FirstPlaced parts pieces' := by
      cases parts with
      | nil => simp [FirstPlaced]
      | cons next parts =>
        cases pieces' with
        | nil => simp [FirstPlaced]
        | cons word pieces' => exact hplaced.2
    have htail : ∀ next ∈ parts, next.english = true → ValidUtf8 next.text :=
      fun next hnext => henglish next (List.mem_cons_of_mem part hnext)
    -- the rest of the surface begins a code point
    have hboth : ValidUtf8 piece ∧ ValidUtf8 rest := by
      by_cases hpart : part.english = true
      · have hpiece : ValidUtf8 piece := by
          rw [(fits_english hpart).mp hfits]
          exact henglish part List.mem_cons_self hpart
        exact ⟨hpiece, hpiece.of_append_left hvalid⟩
      · have hjapanese : part.english = false := by simpa using hpart
        refine hvalid.cut ?_
        cases parts with
        | nil =>
          obtain rfl : pieces' = [] := List.forall₂_nil_left_iff.mp hcut'.fits
          obtain rfl : rest = [] := hcut'.flatten.symm
          simp
        | cons next parts =>
          -- the word that follows is not empty, and a text
          obtain ⟨word, pieces'', rest', rfl, hword, rfl, -⟩ := isCut_cons.mp hcut'
          have hnext : next.english = true :=
            ((List.isChain_cons_cons.mp hseparated).1).resolve_left (by simp [hjapanese])
          obtain rfl := (fits_english hnext).mp hword
          have htext := htail next List.mem_cons_self hnext
          have hne : next.text ≠ [] := by
            intro hnil
            have hfirst := hplaced.1 hjapanese
            rw [hnil, findText_eq_some_iff] at hfirst
            exact hfirst.2.2.2 0 le_rfl
              (List.length_pos_iff.mpr ((fits_japanese hjapanese).mp hfits)) List.nil_prefix
          obtain ⟨c, t, hcons⟩ := List.exists_cons_of_ne_nil hne
          rw [hcons] at htext ⊢
          rintro c' hc'
          obtain rfl : c = c' := by simpa using hc'
          exact htext.not_isTrailing_head
    intro p hp
    obtain rfl | hp := List.mem_cons.mp hp
    · exact hboth.1
    · exact ih hseparated.tail hcut' hplaced' hboth.2 htail p hp

/-- Segments whose places follow each other. -/
def Contiguous : UInt32 → List LiveSegment → UInt32 → Prop
  | start, [], stop => start = stop
  | start, segment :: segments, stop =>
    segment.startChar = start ∧ segment.endChar = start + utf16Length segment.surface
      ∧ Contiguous segment.endChar segments stop

/-- The segments of a cut into texts follow each other. -/
theorem contiguous_describe (rawRomaji : Bytes) (score : Double) {parts : List Part}
    {pieces : List Bytes} (hfits : List.Forall₂ PieceFits parts pieces)
    (hvalid : ∀ piece ∈ pieces, ValidUtf8 piece) (offset : UInt32) :
    Contiguous offset (describe rawRomaji score offset parts pieces)
      (offset + utf16Length pieces.flatten) := by
  induction hfits generalizing offset with
  | nil => simp [describe, Contiguous]
  | @cons part piece parts pieces _ _ ih =>
    have hpiece := hvalid piece List.mem_cons_self
    refine ⟨rfl, rfl, ?_⟩
    rw [List.flatten_cons, utf16Length_append hpiece, ← UInt32.add_assoc]
    exact ih (fun p hp => hvalid p (List.mem_cons_of_mem piece hp)) _

/-! ## What the segments are -/

/-- **A segment of a part**: an English one shows the word and the letters typed for it,
a Japanese one some text and its kana. -/
def SegmentFor (rawRomaji : Bytes) (part : Part) (segment : LiveSegment) : Prop :=
  if part.english then
    segment.surface = part.text ∧ segment.reading = rawRange rawRomaji part.rawBegin part.rawEnd
  else segment.surface ≠ [] ∧ segment.reading = part.text

/-- The segments of a cut are segments of its parts, and show the surface. -/
theorem describe_spec (rawRomaji : Bytes) (score : Double) {parts : List Part}
    {pieces : List Bytes} (hfits : List.Forall₂ PieceFits parts pieces) (offset : UInt32) :
    List.Forall₂ (SegmentFor rawRomaji) parts (describe rawRomaji score offset parts pieces)
      ∧ (describe rawRomaji score offset parts pieces).flatMap LiveSegment.surface
        = pieces.flatten := by
  induction hfits generalizing offset with
  | nil => exact ⟨.nil, rfl⟩
  | @cons part piece parts pieces hfits _ ih =>
    obtain ⟨hsegments, hsurfaces⟩ := ih (offset + utf16Length piece)
    constructor
    · refine .cons ?_ hsegments
      unfold SegmentFor segmentAt
      cases henglish : part.english with
      | true => exact ⟨(fits_english henglish).mp hfits, rfl⟩
      | false => exact ⟨(fits_japanese henglish).mp hfits, rfl⟩
    · rw [describe, List.flatMap_cons, List.flatten_cons, hsurfaces]
      rfl

/-- **`SegmentsOf` answers the segments of a cut** in which every English word stands at
its first place. -/
theorem segmentsOf_eq_some_iff {surface : Bytes} {mixed : MixedReading} {rawRomaji : Bytes}
    {score : Double} {segments : List LiveSegment} :
    segmentsOf surface mixed rawRomaji score = some segments
      ↔ ∃ pieces, IsCut mixed.parts surface pieces ∧ FirstPlaced mixed.parts pieces
        ∧ segments = describe rawRomaji score 0 mixed.parts pieces := by
  have hrun := @walk_iff surface rawRomaji score mixed.parts none {} [] surface segments
    mixed.separated (fun h => absurd rfl h) rfl rfl
  simp only [and_assoc] at hrun
  refine Iff.trans ?_ hrun
  unfold segmentsOf Finds
  cases walk surface rawRomaji score none mixed.parts {} with
  | none => simp
  | some w =>
    by_cases hend : w.cursor = surface.length
    · simp [hend]
    · simp [hend]

/-- **What a mixed conversion is built from and answers.** The parts cover the typed
letters, no two Japanese ones stand next to each other, and the ranges are where the
English texts stand in the reading; the segments are one for each part, show the surface,
and follow each other in its UTF-16 units where the English texts are texts. -/
theorem mixedConversion_spec (split : List MixedRomajiSegment) (rawRomaji : Bytes)
    (english : List Bool) (surface : Bytes) (score : Double)
    (hlength : english.length = split.length)
    (htiles : Tiles 0 (split.map segmentRange) rawRomaji.length) :
    let mixed := buildMixedReading split rawRomaji english
    Tiles 0 (mixed.parts.map partRange) rawRomaji.length
      ∧ Separated mixed.parts
      ∧ (∀ part ∈ mixed.parts, part.english = false →
          part.text = runKana rawRomaji part.rawBegin part.rawEnd)
      ∧ mixed.reading = mixed.parts.flatMap Part.text
      ∧ mixed.englishRanges = englishPlaces mixed.parts
      ∧ ∀ segments, segmentsOf surface mixed rawRomaji score = some segments →
          segments.flatMap LiveSegment.surface = surface
            ∧ List.Forall₂ (SegmentFor rawRomaji) mixed.parts segments
            ∧ (ValidUtf8 surface →
                (∀ part ∈ mixed.parts, part.english = true → ValidUtf8 part.text) →
                Contiguous 0 segments (utf16Length surface)) := by
  intro mixed
  have hfilled : mixed.parts = (joinedParts split english).map (fillText rawRomaji) := rfl
  have hfold := foldl_appendPart mixed.parts
  refine ⟨?_, mixed.separated, ?_, congrArg Prod.fst hfold, congrArg Prod.snd hfold, ?_⟩
  · have hranges : mixed.parts.map partRange = (joinedParts split english).map partRange := by
      rw [hfilled, List.map_map]
      exact List.map_congr_left (fun part _ => partRange_fillText rawRomaji part)
    rw [hranges]
    exact tiles_joinedParts hlength htiles
  · intro part hpart hjapanese
    rw [hfilled] at hpart
    obtain ⟨joined, -, rfl⟩ := List.mem_map.mp hpart
    rw [english_fillText] at hjapanese
    simp [fillText, hjapanese]
  · intro segments hsegments
    obtain ⟨pieces, hcut, hplaced, rfl⟩ := segmentsOf_eq_some_iff.mp hsegments
    obtain ⟨hspec, hsurfaces⟩ := describe_spec rawRomaji score hcut.fits 0
    refine ⟨hsurfaces.trans hcut.flatten, hspec, fun hvalid henglish => ?_⟩
    have hpieces := validUtf8_of_isCut mixed.separated hcut hplaced hvalid henglish
    have hcontiguous := contiguous_describe rawRomaji score hcut.fits hpieces 0
    rw [hcut.flatten, UInt32.zero_add] at hcontiguous
    exact hcontiguous

/-- A split of `kaok`: the letters of か, and a word. -/
def splitOk : List MixedRomajiSegment :=
  [⟨.japanese, 0, 2, utf8 "か", [], .low⟩, ⟨.english, 2, 4, [], utf8 "ok", .high⟩]

/-- The segments of か and the word count three units. -/
theorem mixedConversion_spec_ok :
    ∃ segments, segmentsOf (utf8 "かok") (buildMixedReading splitOk (utf8 "kaok") [false, true])
        (utf8 "kaok") (.finite (.zero false)) = some segments
      ∧ Contiguous 0 segments (utf16Length (utf8 "かok")) := by
  set mixed := buildMixedReading splitOk (utf8 "kaok") [false, true] with hmixed
  have hparts : mixed.parts
      = [⟨false, 0, 2, runKana (utf8 "kaok") 0 2⟩, ⟨true, 2, 4, utf8 "ok"⟩] := rfl
  have hsegments := segmentsOf_eq_some_iff.mpr
    (show ∃ pieces, IsCut mixed.parts (utf8 "かok") pieces ∧ FirstPlaced mixed.parts pieces
        ∧ _ = describe (utf8 "kaok") (.finite (.zero false)) 0 mixed.parts pieces from
      ⟨[utf8 "か", utf8 "ok"], by
        rw [hparts]
        exact ⟨.cons ((fits_japanese rfl).mpr (by decide)) (.cons rfl .nil), by decide⟩, by
        rw [hparts]
        exact ⟨fun _ => by decide, trivial⟩, rfl⟩)
  refine ⟨_, hsegments, ?_⟩
  refine (mixedConversion_spec splitOk (utf8 "kaok") [false, true] (utf8 "かok")
    (.finite (.zero false)) rfl ⟨rfl, by decide, rfl, by decide, rfl⟩).2.2.2.2.2 _ hsegments |>.2.2
      ?_ ?_
  · have hletters : utf8 "かok" = utf8 "か" ++ utf8 "ok" := by decide
    have hword : ValidUtf8 (utf8 "ok") := .of_all_ascii (by decide)
    rw [hletters]
    exact .cons (by decide) hword
  · rw [← hmixed, hparts]
    intro part hpart henglish
    simp only [List.mem_cons, List.not_mem_nil, or_false] at hpart
    obtain rfl | rfl := hpart
    · cases henglish
    · exact .of_all_ascii (by decide)

/-- A split whose English surface is the last octet of あ. -/
def splitOctet : List MixedRomajiSegment :=
  [⟨.japanese, 0, 2, utf8 "か", [], .low⟩, ⟨.english, 2, 3, [], [0x82], .high⟩]

/-- A word that is no text is found inside a code point, and the units of the pieces are
not those of the surface. -/
theorem mixedConversion_octet :
    Tiles 0 (splitOctet.map segmentRange) (utf8 "kaa").length
    ∧ ∃ segments, segmentsOf (utf8 "あ") (buildMixedReading splitOctet (utf8 "kaa") [false, true])
        (utf8 "kaa") (.finite (.zero false)) = some segments
      ∧ ValidUtf8 (utf8 "あ") ∧ ¬ Contiguous 0 segments (utf16Length (utf8 "あ")) := by
  set mixed := buildMixedReading splitOctet (utf8 "kaa") [false, true] with hmixed
  have hparts : mixed.parts
      = [⟨false, 0, 2, runKana (utf8 "kaa") 0 2⟩, ⟨true, 2, 3, [0x82]⟩] := rfl
  refine ⟨⟨rfl, by decide, rfl, by decide, rfl⟩, _, segmentsOf_eq_some_iff.mpr
    ⟨[[0xe3, 0x81], [0x82]], ?_, ?_, rfl⟩, .of_isScalar (by decide), ?_⟩
  · rw [hparts]
    exact ⟨.cons ((fits_japanese rfl).mpr (by decide)) (.cons rfl .nil), by decide⟩
  · rw [hparts]
    exact ⟨fun _ => by decide, trivial⟩
  · rw [hparts]
    rintro ⟨-, -, -, -, hend⟩
    have hfront : utf16Length [0xe3, 0x81] = 2 := by
      rw [utf16Length_of_decode (d := ⟨false, 0xe3, [0x81]⟩) (by decide),
        utf16Length_of_decode (d := ⟨false, 0x81, []⟩) (by decide), utf16Length_nil]
      rfl
    have hback : utf16Length [0x82] = 1 := by
      rw [utf16Length_of_decode (d := ⟨false, 0x82, []⟩) (by decide), utf16Length_nil]
      rfl
    have hwhole : utf16Length (utf8 "あ") = 1 := by
      rw [utf16Length_of_decode (d := ⟨true, 0x3042, []⟩) (by decide), utf16Length_nil]
      rfl
    have hsum : (0 : UInt32) + utf16Length [0xe3, 0x81] + utf16Length [0x82]
        = utf16Length (utf8 "あ") := hend
    rw [hfront, hback, hwhole] at hsum
    exact absurd hsum (by decide)

/-! ## The live conversion -/

/-- The English segments that are sure. -/
def sureEnglish (split : List MixedRomajiSegment) : List Bool :=
  split.map (fun segment => decide (segment.kind = .english ∧ segment.confidence = .high))

/-- `MixedLiveConversion`, with the engine's conversion of a reading and the confidence
of a score. -/
def mixedLiveConversion (convert : Bytes → List (ℕ × ℕ) → Option (Bytes × Double))
    (liveConfidence : Double → Double) (rawRomaji : Bytes)
    (split : Option (List MixedRomajiSegment)) : Option QueryLiveConversionResponse :=
  match split.filter (fun segments => decide (1 < segments.length)) with
  | none => none
  | some segments =>
    let english := sureEnglish segments
    if !english.any id then none
    else
      let mixed := buildMixedReading segments rawRomaji english
      match convert mixed.reading mixed.englishRanges with
      | none => none
      | some (surface, score) =>
        let confidence := if score.isFinite then liveConfidence score else .finite (.zero false)
        match segmentsOf surface mixed rawRomaji confidence with
        | none => none
        | some segments => some { surface, confidence, segments }

/-- **The segments of a live answer** are those of a cut of its surface along the sure
English words. -/
theorem exists_cut_of_mixedLiveConversion
    {convert : Bytes → List (ℕ × ℕ) → Option (Bytes × Double)} {liveConfidence : Double → Double}
    {rawRomaji : Bytes} {split : Option (List MixedRomajiSegment)}
    {response : QueryLiveConversionResponse}
    (h : mixedLiveConversion convert liveConfidence rawRomaji split = some response) :
    ∃ segments ∈ split, ∃ pieces,
      IsCut (buildMixedReading segments rawRomaji (sureEnglish segments)).parts response.surface
          pieces
        ∧ response.segments = describe rawRomaji response.confidence 0
          (buildMixedReading segments rawRomaji (sureEnglish segments)).parts pieces := by
  unfold mixedLiveConversion at h
  split at h
  · cases h
  · rename_i segments hsplit
    obtain ⟨hmem, -⟩ := Option.filter_eq_some_iff.mp hsplit
    dsimp only at h
    split_ifs at h
    split at h
    · cases h
    · split at h
      · cases h
      · rename_i found hfound
        cases h
        obtain ⟨pieces, hcut, -, hdescribe⟩ := segmentsOf_eq_some_iff.mp hfound
        exact ⟨segments, hmem, pieces, hcut, hdescribe⟩

/-! ## The cuts that are found -/

/-- **`SegmentsOf` finds a cut where there is one** exactly when, where there is one, there
is one in which every Japanese piece and the English word after it hold the word at their
end only. -/
theorem segmentsOf_complete_iff (surface : Bytes) (mixed : MixedReading) (rawRomaji : Bytes)
    (score : Double) :
    ((∃ pieces, IsCut mixed.parts surface pieces) →
        (segmentsOf surface mixed rawRomaji score).isSome = true)
      ↔ ((∃ pieces, IsCut mixed.parts surface pieces) →
        ∃ pieces, IsCut mixed.parts surface pieces ∧ FirstPlaced mixed.parts pieces) := by
  refine imp_congr_right (fun _ => ?_)
  rw [Option.isSome_iff_exists]
  constructor
  · rintro ⟨segments, hsegments⟩
    obtain ⟨pieces, hcut, hplaced, -⟩ := segmentsOf_eq_some_iff.mp hsegments
    exact ⟨pieces, hcut, hplaced⟩
  · rintro ⟨pieces, hcut, hplaced⟩
    exact ⟨_, segmentsOf_eq_some_iff.mpr ⟨pieces, hcut, hplaced, rfl⟩⟩

/-- A split of `kaa`: the letters of か, and `a`. -/
def splitA : List MixedRomajiSegment :=
  [⟨.japanese, 0, 2, utf8 "か", [], .low⟩, ⟨.english, 2, 3, [], utf8 "a", .high⟩]

/-- A Japanese piece that is the word itself: the word is found too early. -/
theorem segmentsOf_early :
    (∃ pieces, IsCut (buildMixedReading splitA (utf8 "kaa") [false, true]).parts (utf8 "aa") pieces)
      ∧ segmentsOf (utf8 "aa") (buildMixedReading splitA (utf8 "kaa") [false, true]) (utf8 "kaa")
        (.finite (.zero false)) = none := by
  have hparts : (buildMixedReading splitA (utf8 "kaa") [false, true]).parts
      = [⟨false, 0, 2, runKana (utf8 "kaa") 0 2⟩, ⟨true, 2, 3, utf8 "a"⟩] := rfl
  constructor
  · rw [hparts]
    exact ⟨[utf8 "a", utf8 "a"], .cons ((fits_japanese rfl).mpr (by decide)) (.cons rfl .nil),
      by decide⟩
  · rw [segmentsOf, hparts]
    rfl

end AzooKey.Host

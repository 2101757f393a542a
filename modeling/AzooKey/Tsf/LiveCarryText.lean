import AzooKey.Tsf.LiveCarry
import Mathlib.Data.List.DropRight

/-!
# What is carried of a live answer

`CarryLiveText` of `tsf-tip/src/LiveCarry.cpp` over the pieces that
`BuildLivePieces` gives. An automatic mark has no reading and is never a place to
cut; every other piece has a reading, and the last of them is a place to cut
(`Carriable`). The loop then keeps the longest start of the pieces that what is
typed begins with and that ends at such a place (`Kept`), with the marks inside it
and none after.
-/

namespace AzooKey.Tsf

/-- The reading of pieces. -/
def readings (pieces : List LivePiece) : Bytes := pieces.flatMap LivePiece.reading

/-- The surface of pieces. -/
def surfaces (pieces : List LivePiece) : Bytes := pieces.flatMap LivePiece.surface

@[simp] theorem readings_append (front rest : List LivePiece) :
    readings (front ++ rest) = readings front ++ readings rest := List.flatMap_append

@[simp] theorem surfaces_append (front rest : List LivePiece) :
    surfaces (front ++ rest) = surfaces front ++ surfaces rest := List.flatMap_append

@[simp] theorem readings_singleton (piece : LivePiece) : readings [piece] = piece.reading :=
  List.flatMap_singleton _ _

@[simp] theorem surfaces_singleton (piece : LivePiece) : surfaces [piece] = piece.surface :=
  List.flatMap_singleton _ _

/-- A start of the pieces has a start of their reading. -/
theorem readings_mono {front pieces : List LivePiece} (h : front <+: pieces) :
    readings front <+: readings pieces := by
  obtain ⟨rest, rfl⟩ := h
  rw [readings_append]
  exact List.prefix_append _ _

/-! ## The pieces of an answer -/

/-- **Pieces that can be carried.** -/
structure Carriable (pieces : List LivePiece) : Prop where
  mark : ∀ piece ∈ pieces, piece.autoPunctuation = true → piece.reading = [] ∧ piece.cutAfter = false
  word : ∀ piece ∈ pieces, piece.autoPunctuation = false → piece.reading ≠ []
  last : ∀ piece ∈ (pieces.filter (fun piece => !piece.autoPunctuation)).getLast?,
    piece.cutAfter = true

namespace Carriable

/-- The pieces of one answer after those of another. -/
theorem append {pieces more : List LivePiece} (h : Carriable pieces) (hmore : Carriable more) :
    Carriable (pieces ++ more) := by
  refine ⟨fun piece hp => ?_, fun piece hp => ?_, fun piece hp => ?_⟩
  · exact (List.mem_append.mp hp).elim (h.mark piece) (hmore.mark piece)
  · exact (List.mem_append.mp hp).elim (h.word piece) (hmore.word piece)
  · rw [List.filter_append, List.getLast?_append, Option.mem_def] at hp
    obtain hp | ⟨-, hp⟩ := Option.or_eq_some_iff.mp hp
    · exact hmore.last piece hp
    · exact h.last piece hp

/-- No pieces. -/
theorem nil : Carriable [] :=
  ⟨fun _ hp => absurd hp List.not_mem_nil, fun _ hp => absurd hp List.not_mem_nil,
    fun _ hp => absurd hp (by simp)⟩

/-- A mark. -/
theorem ofMark (surface : Bytes) :
    Carriable [{ surface := surface, autoPunctuation := true }] := by
  refine ⟨fun piece hp _ => ?_, fun piece hp hword => ?_, fun piece hp => absurd hp (by simp)⟩
  · rw [List.mem_singleton.mp hp]
    exact ⟨rfl, rfl⟩
  · rw [List.mem_singleton.mp hp] at hword
    cases hword

/-- Pieces of which none is a mark. -/
theorem ofWords {pieces : List LivePiece}
    (hword : ∀ piece ∈ pieces, piece.autoPunctuation = false ∧ piece.reading ≠ [])
    (hlast : ∀ piece ∈ pieces.getLast?, piece.cutAfter = true) : Carriable pieces := by
  refine ⟨fun piece hp hmark => ?_, fun piece hp _ => (hword piece hp).2, ?_⟩
  · rw [(hword piece hp).1] at hmark
    cases hmark
  · rw [List.filter_eq_self.mpr (fun piece hp => by rw [(hword piece hp).1]; rfl)]
    exact hlast

/-- **The pieces without the marks that end them** end where they may be cut. -/
theorem cutAfter_of_rdropWhile {pieces : List LivePiece} (h : Carriable pieces) :
    ∀ piece ∈ (pieces.rdropWhile LivePiece.autoPunctuation).getLast?, piece.cutAfter = true := by
  intro piece hp
  obtain ⟨front, hfront⟩ := List.getLast?_eq_some_iff.mp (Option.mem_def.mp hp)
  have hword : piece.autoPunctuation = false := by
    have hne : pieces.rdropWhile LivePiece.autoPunctuation ≠ [] := by rw [hfront]; simp
    have hnot := List.rdropWhile_last_not LivePiece.autoPunctuation pieces hne
    simp only [hfront, List.getLast_append_singleton] at hnot
    simpa using hnot
  have hmarks : (pieces.rtakeWhile LivePiece.autoPunctuation).filter
      (fun piece => !piece.autoPunctuation) = [] := by
    refine List.filter_eq_nil_iff.mpr (fun mark hmark => ?_)
    rw [List.mem_rtakeWhile_imp hmark]
    simp
  refine h.last piece ?_
  rw [← List.rdropWhile_append_rtakeWhile (l := pieces) (p := LivePiece.autoPunctuation),
    List.filter_append, hmarks, List.append_nil, hfront, List.filter_append,
    List.filter_cons_of_pos (by simp [hword])]
  simp

/-- The reading is that of the pieces without the marks that end them. -/
theorem readings_rdropWhile {pieces : List LivePiece} (h : Carriable pieces) :
    readings (pieces.rdropWhile LivePiece.autoPunctuation) = readings pieces := by
  have hmarks : readings (pieces.rtakeWhile LivePiece.autoPunctuation) = [] := by
    refine List.flatMap_eq_nil_iff.mpr (fun mark hmark => ?_)
    exact (h.mark mark ((List.rtakeWhile_suffix _ _).subset hmark) (List.mem_rtakeWhile_imp hmark)).1
  conv_rhs => rw [← List.rdropWhile_append_rtakeWhile (l := pieces) (p := LivePiece.autoPunctuation)]
  rw [readings_append, hmarks, List.append_nil]

end Carriable

/-- A code point has a text. -/
theorem text_ne_nil {text : Bytes} : ∀ c ∈ splitCodepoints text, c.text ≠ [] := by
  induction text using splitCodepoints.induct with
  | case1 text hnone =>
    rw [splitCodepoints]
    split
    · exact fun c hc => absurd hc List.not_mem_nil
    · rename_i hsome
      rw [hnone] at hsome
      cases hsome
  | case2 text d hsome ih =>
    rw [splitCodepoints]
    split
    · exact fun c hc => absurd hc List.not_mem_nil
    · rename_i d' hsome'
      obtain rfl := Option.some.inj (hsome.symm.trans hsome')
      intro c hc
      obtain rfl | hc := List.mem_cons.mp hc
      · intro hnil
        have hlt := Core.decodeNextUtf8_rest_lt hsome
        have hlen := congrArg List.length hnil
        simp only [List.length_take, List.length_nil] at hlen
        omega
      · exact ih c hc

/-- The last piece is cut after. -/
theorem cutAfter_cutAtEnd (pieces : List LivePiece) :
    ∀ piece ∈ (cutAtEnd pieces).getLast?, piece.cutAfter = true := by
  induction pieces using cutAtEnd.induct with
  | case1 => exact fun piece hp => absurd hp (by simp [cutAtEnd])
  | case2 piece =>
    intro last hlast
    rw [cutAtEnd, List.getLast?_singleton, Option.mem_some_iff] at hlast
    rw [← hlast]
  | case3 piece next pieces ih =>
    have hne : cutAtEnd (next :: pieces) ≠ [] := by cases pieces <;> simp [cutAtEnd]
    obtain ⟨first, rest, hrest⟩ := List.exists_cons_of_ne_nil hne
    rw [cutAtEnd, hrest, List.getLast?_cons_cons, ← hrest]
    exact ih

/-- The pieces of a split. -/
theorem carriable_of_isCut {us : List SurfaceUnit} {cs : List Codepoint}
    {parts : List (List Codepoint)} (hcut : Cuts.IsCut takes us cs parts)
    (hcs : ∀ c ∈ cs, c.text ≠ []) : Carriable (cutAtEnd (List.zipWith pieceOf us parts)) := by
  have hwords : ∀ piece ∈ List.zipWith pieceOf us parts,
      piece.autoPunctuation = false ∧ piece.reading ≠ [] := by
    have hparts : ∀ part ∈ parts, ∀ c ∈ part, c.text ≠ [] := fun part hpart c hc =>
      hcs c (by rw [← hcut.flatten]; exact List.mem_flatten.mpr ⟨part, hpart, hc⟩)
    have hpairs := hcut.takes
    clear hcut
    induction hpairs with
    | nil => exact fun piece hp => absurd hp List.not_mem_nil
    | @cons unit part us parts hpart _ ih =>
      intro piece hp
      obtain rfl | hp := List.mem_cons.mp hp
      · obtain ⟨c, part, rfl⟩ := List.exists_cons_of_ne_nil hpart.1
        refine ⟨rfl, fun hnil => hparts _ List.mem_cons_self c List.mem_cons_self ?_⟩
        exact List.flatMap_eq_nil_iff.mp hnil c List.mem_cons_self
      · exact ih (fun part hpart => hparts part (List.mem_cons_of_mem _ hpart)) piece hp
  refine Carriable.ofWords (fun piece hp => ?_) (cutAfter_cutAtEnd _)
  have hmem := List.mem_map_of_mem (f := fun piece => (piece.autoPunctuation, piece.reading)) hp
  rw [map_cutAtEnd _ (fun _ => rfl)] at hmem
  obtain ⟨piece', hp', heq⟩ := List.mem_map.mp hmem
  obtain ⟨hauto, hreading⟩ := Prod.mk.inj heq
  rw [← hauto, ← hreading]
  exact hwords piece' hp'

/-- The pieces of one segment. -/
theorem carriable_segmentPieces {segment : Ipc.LiveSegment} {pieces : List LivePiece}
    (hreading : segment.autoPunctuation = false → segment.reading ≠ [])
    (h : segmentPieces segment = some pieces) : Carriable pieces := by
  unfold segmentPieces at h
  by_cases hmark : segment.autoPunctuation = true
  · rw [if_pos hmark] at h
    rw [← Option.some.inj h]
    exact .ofMark segment.surface
  · have hne := hreading (by simpa using hmark)
    have hwhole : Carriable
        [{ reading := segment.reading, surface := segment.surface, cutAfter := true }] := by
      refine .ofWords (fun piece hp => ?_) (fun piece hp => ?_)
      · rw [List.mem_singleton.mp hp]
        exact ⟨rfl, hne⟩
      · rw [List.getLast?_singleton, Option.mem_some_iff] at hp
        rw [← hp]
    rw [if_neg hmark] at h
    obtain ⟨parts, aligned, hrun, -, -, hcut, rfl⟩ | ⟨hrun, -⟩ :=
      alignSegment_cases segment.reading segment.surface
    · rw [hrun, Option.bind_eq_bind, Option.bind_some] at h
      split_ifs at h
      · rw [← Option.some.inj h]
        exact hwhole
      · rw [← Option.some.inj h]
        exact carriable_of_isCut hcut text_ne_nil
    · rw [hrun] at h
      rw [← Option.some.inj h]
      exact hwhole

/-- **The pieces of an answer can be carried.** -/
theorem carriable_buildLivePieces {reading surface : Bytes} {segments : List Ipc.LiveSegment}
    {autoPunctuation : Bool} {pieces : List LivePiece}
    (h : buildLivePieces reading surface segments autoPunctuation = some pieces) :
    Carriable pieces := by
  have hall : ∀ segments : List Ipc.LiveSegment,
      (∀ segment ∈ segments, segment.autoPunctuation = false → segment.reading ≠ []) →
      ∀ pieces, (segments.mapM segmentPieces).map List.flatten = some pieces → Carriable pieces := by
    intro segments
    induction segments with
    | nil =>
      intro _ pieces hrun
      rw [← Option.some.inj hrun]
      exact .nil
    | cons segment segments ih =>
      intro hreading pieces hrun
      rw [List.mapM_cons] at hrun
      obtain ⟨lists, hlists, rfl⟩ := Option.map_eq_some_iff.mp hrun
      obtain ⟨first, hfirst, hrest⟩ := Option.bind_eq_some_iff.mp hlists
      obtain ⟨rest, hrest, heq⟩ := Option.bind_eq_some_iff.mp hrest
      rw [← Option.some.inj heq, List.flatten_cons]
      refine (carriable_segmentPieces (hreading segment List.mem_cons_self) hfirst).append
        (ih (fun other hother => hreading other (List.mem_cons_of_mem _ hother)) _ ?_)
      rw [hrest]
      rfl
  unfold buildLivePieces at h
  dsimp only at h
  split_ifs at h with hempty hnone husable
  · rw [← Option.some.inj h]
    exact .nil
  · rw [← Option.some.inj h]
    exact .nil
  · refine hall segments (fun segment hsegment hword => ?_) pieces h
    simp only [segmentsUsable, Bool.and_eq_true, List.all_eq_true] at husable
    simpa [hword] using husable.1.1.2 segment hsegment
  · refine hall _ (fun segment hsegment _ => ?_) pieces h
    rw [List.mem_singleton.mp hsegment]
    show reading ≠ []
    simp only [Bool.or_eq_true, List.isEmpty_iff, not_or] at hempty
    exact hempty.1

/-! ## What is kept -/

/-- A start of the pieces that is empty or ends where it may be cut. -/
def EndsAtCut (front : List LivePiece) : Prop := ∀ piece ∈ front.getLast?, piece.cutAfter = true

/-- **What is kept of the pieces** for what is typed: the longest start of them
that ends at a cut and whose reading what is typed begins with. -/
structure Kept (pieces : List LivePiece) (typed : Bytes) (front : List LivePiece) : Prop where
  start : front <+: pieces
  cut : EndsAtCut front
  reading : readings front <+: typed
  longest : ∀ other, other <+: pieces → EndsAtCut other → readings other <+: typed →
    other <+: front

/-- The text of a start. -/
def textOf (front : List LivePiece) : CarriedLiveText := ⟨surfaces front, (readings front).length⟩

/-- **What holds in the loop** after some of the pieces. -/
structure Carry.Sound (typed : Bytes) (done : List LivePiece) (carry : Carry) : Prop where
  consumed : carry.consumed = (readings done).length
  reading : readings done <+: typed
  shown : carry.kept ++ carry.marks = surfaces done
  best : ∃ front, Kept done typed front ∧ carry.best = textOf front

/-- The longest start, with one more piece. -/
theorem Kept.concat {done : List LivePiece} {typed : Bytes} {front : List LivePiece}
    (h : Kept done typed front) (piece : LivePiece) (hcut : piece.cutAfter = false) :
    Kept (done ++ [piece]) typed front := by
  refine ⟨h.start.trans (List.prefix_append _ _), h.cut, h.reading, fun other hother hends hread => ?_⟩
  obtain rfl | hother := List.prefix_concat_iff.mp hother
  · have hlast := hends piece (by simp)
    rw [hcut] at hlast
    cases hlast
  · exact h.longest other hother hends hread

/-- **The loop keeps the longest start.** -/
theorem Carry.best_run {typed : Bytes} {done rest : List LivePiece} {carry : Carry}
    (hpieces : Carriable (done ++ rest)) (h : carry.Sound typed done) :
    ∃ front, Kept (done ++ rest) typed front ∧ (carry.run typed rest).best = textOf front := by
  induction rest generalizing done carry with
  | nil =>
    rw [List.append_nil]
    exact h.best
  | cons piece rest ih =>
    have hassoc : done ++ piece :: rest = (done ++ [piece]) ++ rest := by simp
    have hmem : piece ∈ done ++ piece :: rest := by simp
    obtain ⟨front, hkept, hbest⟩ := h.best
    rw [run]
    by_cases hmark : piece.autoPunctuation = true
    · obtain ⟨hempty, hcut⟩ := hpieces.mark piece hmem hmark
      rw [if_pos hmark, hassoc]
      refine ih (hassoc ▸ hpieces) ⟨?_, ?_, ?_, front, hkept.concat piece hcut, hbest⟩
      · rw [readings_append, readings_singleton, hempty, List.append_nil]
        exact h.consumed
      · rw [readings_append, readings_singleton, hempty, List.append_nil]
        exact h.reading
      · rw [surfaces_append, surfaces_singleton, ← h.shown, List.append_assoc]
    · have hword : piece.reading ≠ [] := hpieces.word piece hmem (by simpa using hmark)
      rw [if_neg hmark]
      by_cases hmatch : (typed.drop carry.consumed).take piece.reading.length = piece.reading
      · have hreading : readings (done ++ [piece]) <+: typed := by
          obtain ⟨after, rfl⟩ := h.reading
          rw [h.consumed, List.drop_left] at hmatch
          rw [readings_append, readings_singleton, List.prefix_append_right_inj]
          exact List.prefix_iff_eq_take.mpr hmatch.symm
        rw [if_neg (by simp [hword, hmatch]), hassoc]
        have hshown : carry.kept ++ carry.marks ++ piece.surface = surfaces (done ++ [piece]) := by
          rw [surfaces_append, surfaces_singleton, h.shown]
        have hconsumed : carry.consumed + piece.reading.length = (readings (done ++ [piece])).length := by
          rw [readings_append, readings_singleton, List.length_append, h.consumed]
        refine ih (hassoc ▸ hpieces) ⟨hconsumed, hreading, ?_, ?_⟩
        · rw [List.append_nil]
          exact hshown
        · by_cases hcut : piece.cutAfter = true
          · refine ⟨done ++ [piece], ⟨List.prefix_rfl, ?_, hreading, fun _ hother _ _ => hother⟩, ?_⟩
            · intro last hlast
              rw [List.getLast?_concat, Option.mem_some_iff] at hlast
              rw [← hlast, hcut]
            · show (if piece.cutAfter then _ else _) = _
              rw [if_pos hcut, hshown, hconsumed]
              rfl
          · refine ⟨front, hkept.concat piece (by simpa using hcut), ?_⟩
            show (if piece.cutAfter then _ else _) = _
            rw [if_neg hcut, hbest]
      · rw [if_pos (by simp [hmatch])]
        refine ⟨front, ⟨hkept.start.trans (List.prefix_append _ _), hkept.cut, hkept.reading, ?_⟩, hbest⟩
        intro other hother hends hread
        refine hkept.longest other ?_ hends hread
        -- A longer start has the reading of this piece, which is not typed.
        have hpast : ¬ done ++ [piece] <+: other := by
          intro hlonger
          have hstart := (readings_mono hlonger).trans hread
          obtain ⟨after, rfl⟩ := h.reading
          rw [readings_append, readings_singleton, List.prefix_append_right_inj] at hstart
          rw [h.consumed, List.drop_left] at hmatch
          exact hmatch (List.prefix_iff_eq_take.mp hstart).symm
        obtain hshort | hlonger := List.prefix_or_prefix_of_prefix hother
          (hassoc ▸ List.prefix_append (done ++ [piece]) rest)
        · obtain rfl | hshort := List.prefix_concat_iff.mp hshort
          · exact absurd List.prefix_rfl hpast
          · exact hshort
        · exact absurd hlonger hpast

/-- **`CarryLiveText` keeps the longest start.** -/
theorem exists_kept {pieces : List LivePiece} (h : Carriable pieces) (typed : Bytes) :
    ∃ front, Kept pieces typed front ∧ carryLiveText pieces typed = textOf front := by
  have hnone : Kept [] typed [] :=
    ⟨List.prefix_rfl, fun piece hp => absurd hp (by simp), List.nil_prefix, fun _ hother _ _ => hother⟩
  have hstart : Carry.Sound typed [] {} := ⟨rfl, List.nil_prefix, rfl, [], hnone, rfl⟩
  have hall : Carriable ([] ++ pieces) := h
  exact Carry.best_run hall hstart

/-- More is kept of what is typed further. -/
theorem Kept.mono {pieces : List LivePiece} {typed more : Bytes} {front front' : List LivePiece}
    (h : Kept pieces typed front) (h' : Kept pieces (typed ++ more) front') : front <+: front' :=
  h'.longest front h.start h.cut (h.reading.trans (List.prefix_append _ _))

/-- **All of an answer is kept**, but for the marks that end it. -/
theorem Kept.eq_rdropWhile {pieces : List LivePiece} (hpieces : Carriable pieces) {typed : Bytes}
    (htyped : readings pieces <+: typed) {front : List LivePiece} (h : Kept pieces typed front) :
    front = pieces.rdropWhile LivePiece.autoPunctuation := by
  have hlong : pieces.rdropWhile LivePiece.autoPunctuation <+: front := by
    refine h.longest _ (List.rdropWhile_prefix _ _) hpieces.cutAfter_of_rdropWhile ?_
    rw [hpieces.readings_rdropWhile]
    exact htyped
  obtain ⟨more, rfl⟩ := hlong
  have hmore : more <+: pieces.rtakeWhile LivePiece.autoPunctuation := by
    have hstart := h.start
    conv_rhs at hstart =>
      rw [← List.rdropWhile_append_rtakeWhile (l := pieces) (p := LivePiece.autoPunctuation)]
    exact (List.prefix_append_right_inj _).mp hstart
  -- One piece more would be a mark, after which nothing is cut.
  induction more using List.reverseRecOn with
  | nil => exact List.append_nil _
  | append_singleton more mark =>
    have hmark : mark ∈ pieces.rtakeWhile LivePiece.autoPunctuation := hmore.subset (by simp)
    have hcut := h.cut mark (by rw [← List.append_assoc, List.getLast?_concat]; rfl)
    rw [(hpieces.mark mark ((List.rtakeWhile_suffix _ _).subset hmark)
      (List.mem_rtakeWhile_imp hmark)).2] at hcut
    cases hcut

/-- **What is carried of an answer.** The longest start of its pieces that what is
typed begins with and that ends at a cut, with the marks inside it and none after;
no less when more is typed; and when all of its reading is typed, all of it but the
marks that end it. -/
theorem carryLiveText_spec (reading surface : Bytes) (segments : List Ipc.LiveSegment)
    (autoPunctuation : Bool) (pieces : List LivePiece)
    (h : buildLivePieces reading surface segments autoPunctuation = some pieces)
    (hne : pieces ≠ []) :
    (∀ typed, ∃ front, Kept pieces typed front
      ∧ carryLiveText pieces typed = ⟨surfaces front, (readings front).length⟩
      ∧ ∀ piece ∈ front.getLast?, piece.autoPunctuation = false)
    ∧ (∀ typed more, (carryLiveText pieces typed).readingBytes
      ≤ (carryLiveText pieces (typed ++ more)).readingBytes)
    ∧ ∀ suffix, ∃ shown marks, pieces = shown ++ marks
      ∧ (∀ piece ∈ marks, piece.autoPunctuation = true)
      ∧ surface = surfaces shown ++ surfaces marks
      ∧ carryLiveText pieces (reading ++ suffix) = ⟨surfaces shown, reading.length⟩
      ∧ ∀ piece ∈ shown.getLast?, piece.autoPunctuation = false := by
  have hpieces := carriable_buildLivePieces h
  have hend : ∀ {front}, front <+: pieces → EndsAtCut front →
      ∀ piece ∈ front.getLast?, piece.autoPunctuation = false := by
    intro front hstart hcut piece hp
    by_contra hmark
    have hmem := hstart.subset (List.mem_of_getLast? hp)
    have hnot := (hpieces.mark piece hmem (by simpa using hmark)).2
    rw [hcut piece hp] at hnot
    cases hnot
  refine ⟨fun typed => ?_, fun typed more => ?_, fun suffix => ?_⟩
  · obtain ⟨front, hkept, hrun⟩ := exists_kept hpieces typed
    exact ⟨front, hkept, hrun, hend hkept.start hkept.cut⟩
  · obtain ⟨front, hkept, hrun⟩ := exists_kept hpieces typed
    obtain ⟨front', hkept', hrun'⟩ := exists_kept hpieces (typed ++ more)
    rw [hrun, hrun']
    exact (readings_mono (hkept.mono hkept')).length_le
  · obtain ⟨all, hall, hwhole⟩ := buildLivePieces_eq reading surface segments autoPunctuation
    obtain rfl := Option.some.inj (h.symm.trans hall)
    obtain ⟨hreading, hsurface⟩ := hwhole hne
    rw [← List.flatMap_def] at hreading hsurface
    obtain ⟨front, hkept, hrun⟩ := exists_kept hpieces (reading ++ suffix)
    have hfront : front = pieces.rdropWhile LivePiece.autoPunctuation := by
      refine hkept.eq_rdropWhile hpieces ?_
      rw [readings, hreading]
      exact List.prefix_append _ _
    refine ⟨front, pieces.rtakeWhile LivePiece.autoPunctuation, ?_,
      fun piece hp => List.mem_rtakeWhile_imp hp, ?_, ?_, hend hkept.start hkept.cut⟩
    · rw [hfront, List.rdropWhile_append_rtakeWhile]
    · rw [← surfaces_append, hfront, List.rdropWhile_append_rtakeWhile]
      exact hsurface.symm
    · rw [hrun, textOf, hfront, hpieces.readings_rdropWhile, readings, hreading]

/-- The segments of an answer with two marks. -/
def markedSegments : List Ipc.LiveSegment :=
  [wholeSegment (utf8 "か") (utf8 "蚊"),
    { wholeSegment [] (utf8 "、") with autoPunctuation := true },
    wholeSegment (utf8 "き") (utf8 "木"),
    { wholeSegment [] (utf8 "。") with autoPunctuation := true }]

/-- An answer with two marks, and a word after its reading. -/
theorem carryLiveText_spec_marks : ∃ pieces,
    buildLivePieces (utf8 "かき") (utf8 "蚊、木。") markedSegments true = some pieces
      ∧ (carryLiveText pieces (utf8 "かき" ++ utf8 "の")).readingBytes = (utf8 "かき").length := by
  have hrun : buildLivePieces (utf8 "かき") (utf8 "蚊、木。") markedSegments true
      = some [⟨utf8 "か", utf8 "蚊", false, true⟩, ⟨[], utf8 "、", true, false⟩,
        ⟨utf8 "き", utf8 "木", false, true⟩, ⟨[], utf8 "。", true, false⟩] := by
    decide +kernel
  obtain ⟨shown, marks, -, -, -, hcarry, -⟩ :=
    (carryLiveText_spec _ _ _ _ _ hrun (by simp)).2.2 (utf8 "の")
  exact ⟨_, hrun, by rw [hcarry]⟩

end AzooKey.Tsf

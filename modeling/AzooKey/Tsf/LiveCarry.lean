import AzooKey.Core.Utf8Readers
import AzooKey.Ipc.Payloads
import AzooKey.Lib.Cuts

/-!
# The pieces of a live answer

`tsf-tip/src/LiveCarry.cpp`: while the answer for a changed reading is on its way
the preedit carries the start of the last one. `BuildLivePieces` splits that answer
into pieces. `AlignSegment` splits one segment at the kana that its surface shares
with its reading, when there is only one way to (`alignSegment_spec`): a table of
saturated counts says whether there is, and a second pass reads the way off the
table. `CarryLiveText` keeps the pieces that what is now typed begins with
(`carryLiveText_spec`).
-/

namespace AzooKey.Tsf

open AzooKey.Core

/-! ## Code points and units -/

/-- `Codepoint`. -/
structure Codepoint where
  value : ℕ
  text : Bytes
deriving DecidableEq, Repr

/-- `SplitCodepoints`. A byte that opens no code point is one of its own. -/
def splitCodepoints (text : Bytes) : List Codepoint :=
  match _h : decodeNextUtf8 text with
  | none => []
  | some d => ⟨d.codepoint, text.take (text.length - d.rest.length)⟩ :: splitCodepoints d.rest
termination_by text.length
decreasing_by exact decodeNextUtf8_rest_lt _h

/-- **`KanaKey`**: the kana that a reading spells the same way. -/
def kanaKey (c : ℕ) : Option ℕ :=
  if 0x3041 ≤ c ∧ c ≤ 0x3094 then some c
  else if 0x30A1 ≤ c ∧ c ≤ 0x30F4 then some (c - 0x60)
  else if c = 0x30FC then some c
  else none

/-- `kMaxAlignedCodepoints`. -/
def maxAlignedCodepoints : ℕ := 64

/-- `Unit` of `AlignSegment`: one kana, or a run of other characters. -/
structure SurfaceUnit where
  text : Bytes
  kana : Option ℕ
deriving DecidableEq, Repr

/-- One code point of the surface: it is a unit, or the last one's. -/
def joinUnit (units : List SurfaceUnit) (c : Codepoint) : List SurfaceUnit :=
  let key := kanaKey c.value
  match units.getLast? with
  | none => units ++ [⟨c.text, key⟩]
  | some last =>
    if key.isSome || last.kana.isSome then units ++ [⟨c.text, key⟩]
    else units.dropLast ++ [{ last with text := last.text ++ c.text }]

/-- The units of the surface. -/
def unitsOf (shown : List Codepoint) : List SurfaceUnit := shown.foldl joinUnit []

/-- `LivePiece`. -/
structure LivePiece where
  reading : Bytes := []
  surface : Bytes := []
  autoPunctuation : Bool := false
  cutAfter : Bool := false
deriving DecidableEq, Repr

/-! ## The table -/

/-- The loop over the ends of a run, which stops at two. -/
def sumWays : ℕ → List ℕ → ℕ
  | total, [] => total
  | total, w :: ws => if total < 2 then sumWays (total + w) ws else total

/-- One entry, from the row below. -/
def waysAt (typed : List Codepoint) (unit : SurfaceUnit) (next : List ℕ) (j : ℕ) : ℕ :=
  let total :=
    if unit.kana.isSome then
      match typed[j]? with
      | some c => if kanaKey c.value = unit.kana then next.getD (j + 1) 0 else 0
      | none => 0
    else sumWays 0 (next.drop (j + 1))
  min total 2

/-- The rows of the table, from that of the first unit to the one past the
last. -/
def waysRows (typed : List Codepoint) : List SurfaceUnit → List (List ℕ)
  | [] => [List.replicate typed.length 0 ++ [1]]
  | unit :: units =>
    let rows := waysRows typed units
    (List.range (typed.length + 1)).map (waysAt typed unit (rows.headD [])) :: rows

/-- `ways`: the rows, one after another. -/
def ways (typed : List Codepoint) (units : List SurfaceUnit) : List ℕ := (waysRows typed units).flatten

/-! ## The split -/

/-- The loop that looks for the end of a run; none when it reads past the table. -/
def seekEnd (table : List ℕ) (row e : ℕ) : Option ℕ :=
  if h : row + e < table.length then
    if table[row + e] = 0 then seekEnd table row (e + 1) else some e
  else none
termination_by table.length - (row + e)

/-- The end of what a unit takes. -/
def unitEnd (table : List ℕ) (width i j : ℕ) (unit : SurfaceUnit) : Option ℕ :=
  if unit.kana.isSome then some (j + 1) else seekEnd table ((i + 1) * width) (j + 1)

/-- The second pass, from unit `i` and character `j` on; none when it reads past
the table or the characters. -/
def splitAt (table : List ℕ) (typed : List Codepoint) : ℕ → ℕ → List SurfaceUnit → Option (List LivePiece)
  | _, _, [] => some []
  | i, j, unit :: units => do
    let e ← unitEnd table (typed.length + 1) i j unit
    if e ≤ typed.length then
      let rest ← splitAt table typed (i + 1) e units
      some ({
        reading := ((typed.drop j).take (e - j)).flatMap Codepoint.text
        surface := unit.text
        cutAfter := unit.kana.isSome } :: rest)
    else none

/-- `pieces.back().cut_after = true`. -/
def cutAtEnd : List LivePiece → List LivePiece
  | [] => []
  | [piece] => [{ piece with cutAfter := true }]
  | piece :: next :: pieces => piece :: cutAtEnd (next :: pieces)

/-- **`AlignSegment`**; none when it reads past the table. -/
def alignSegment (reading surface : Bytes) : Option (List LivePiece) :=
  let typed := splitCodepoints reading
  let units := unitsOf (splitCodepoints surface)
  if units.length = 0 ∨ typed.length = 0 ∨ maxAlignedCodepoints < units.length
      ∨ maxAlignedCodepoints < typed.length then
    some []
  else do
    let first ← (ways typed units)[0]?
    if first ≠ 1 then some [] else (splitAt (ways typed units) typed 0 0 units).map cutAtEnd

/-- The pieces of one segment. -/
def segmentPieces (segment : Ipc.LiveSegment) : Option (List LivePiece) :=
  if segment.autoPunctuation then some [{ surface := segment.surface, autoPunctuation := true }]
  else do
    let aligned ← alignSegment segment.reading segment.surface
    if aligned.isEmpty then
      some [{ reading := segment.reading, surface := segment.surface, cutAfter := true }]
    else some aligned

/-- Whether the segments are those of the answer. -/
def segmentsUsable (reading surface : Bytes) (segments : List Ipc.LiveSegment) : Bool :=
  !segments.isEmpty
    && segments.all (fun segment => segment.autoPunctuation || !segment.reading.isEmpty)
    && segments.flatMap (fun segment => if segment.autoPunctuation then [] else segment.reading) == reading
    && segments.flatMap (fun segment => segment.surface) == surface

/-- The segment of a whole answer. -/
def wholeSegment (reading surface : Bytes) : Ipc.LiveSegment where
  startChar := 0
  endChar := 0
  score := .finite (.zero false)
  autoPunctuation := false
  surface := surface
  reading := reading
  pos := 0
  headPos := 0
  sem := 0
  headSem := 0
  tag := 0

/-- **`BuildLivePieces`**; none when a segment reads past its table. -/
def buildLivePieces (reading surface : Bytes) (segments : List Ipc.LiveSegment)
    (autoPunctuation : Bool) : Option (List LivePiece) :=
  if reading.isEmpty || surface.isEmpty then some []
  else
    let usable := segmentsUsable reading surface segments
    if !usable && autoPunctuation then some []
    else
      ((if usable then segments else [wholeSegment reading surface]).mapM segmentPieces).map
        List.flatten

/-- `CarriedLiveText`. -/
structure CarriedLiveText where
  surface : Bytes := []
  readingBytes : ℕ := 0
deriving DecidableEq, Repr

/-- The variables of the loop of `CarryLiveText`. -/
structure Carry where
  best : CarriedLiveText := {}
  kept : Bytes := []
  marks : Bytes := []
  consumed : ℕ := 0
deriving DecidableEq, Repr

/-- The loop of `CarryLiveText`. -/
def Carry.run (typed : Bytes) (carry : Carry) : List LivePiece → Carry
  | [] => carry
  | piece :: pieces =>
    if piece.autoPunctuation then
      ({ carry with marks := carry.marks ++ piece.surface } : Carry).run typed pieces
    else if piece.reading.isEmpty
        || (typed.drop carry.consumed).take piece.reading.length ≠ piece.reading then carry
    else
      let kept := carry.kept ++ carry.marks ++ piece.surface
      let consumed := carry.consumed + piece.reading.length
      ({ best := if piece.cutAfter then ⟨kept, consumed⟩ else carry.best
         kept := kept
         marks := []
         consumed := consumed } : Carry).run typed pieces

/-- **`CarryLiveText`.** -/
def carryLiveText (pieces : List LivePiece) (typed : Bytes) : CarriedLiveText :=
  (Carry.run typed {} pieces).best

/-! ## Texts of code points and units -/

/-- **The code points of a text make it up.** -/
theorem flatMap_splitCodepoints (text : Bytes) :
    (splitCodepoints text).flatMap Codepoint.text = text := by
  induction text using splitCodepoints.induct with
  | case1 text hnone =>
    rw [splitCodepoints]
    split
    · cases text with
      | nil => rfl
      | cons c text =>
        rw [decodeNextUtf8_eq] at hnone
        cases hnone
    · rename_i hsome
      rw [hnone] at hsome
      cases hsome
  | case2 text d hsome ih =>
    rw [splitCodepoints]
    split
    · rename_i hnone
      rw [hsome] at hnone
      cases hnone
    · rename_i d' hsome'
      obtain rfl := Option.some.inj (hsome.symm.trans hsome')
      obtain ⟨front, hfront, -⟩ := exists_front_of_decodeNextUtf8 hsome
      have hlen : text.length - d.rest.length = front.length := by
        rw [hfront, List.length_append]
        omega
      have htake : text.take front.length = front := by
        rw [hfront]
        exact List.take_left
      rw [List.flatMap_cons, ih, hlen, htake]
      exact hfront.symm

/-- **What a unit is**: one kana, or characters that are none. -/
def IsUnit (unit : SurfaceUnit) (group : List Codepoint) : Prop :=
  unit.text = group.flatMap Codepoint.text ∧ group ≠ []
    ∧ (unit.kana.isSome → group.map (fun c => kanaKey c.value) = [unit.kana])
    ∧ (unit.kana = none → ∀ c ∈ group, kanaKey c.value = none)

/-- **The units of a surface**: its code points in groups, where no two runs
follow one another. -/
structure AreUnits (units : List SurfaceUnit) (shown : List Codepoint) : Prop where
  groups : ∃ groups, groups.flatten = shown ∧ List.Forall₂ IsUnit units groups
  maximal : units.IsChain (fun a b => a.kana.isSome ∨ b.kana.isSome)

/-- One more code point. -/
theorem AreUnits.join {units : List SurfaceUnit} {shown : List Codepoint} (h : AreUnits units shown)
    (c : Codepoint) : AreUnits (joinUnit units c) (shown ++ [c]) := by
  obtain ⟨groups, hflat, hunits⟩ := h.groups
  have hsingle : IsUnit ⟨c.text, kanaKey c.value⟩ [c] :=
    ⟨by simp, by simp, fun _ => rfl, fun hnone d hd => by rw [List.mem_singleton.mp hd]; exact hnone⟩
  have hnew : ∃ groups', groups'.flatten = shown ++ [c]
      ∧ List.Forall₂ IsUnit (units ++ [⟨c.text, kanaKey c.value⟩]) groups' :=
    ⟨groups ++ [[c]], by rw [List.flatten_append, hflat]; rfl,
      List.rel_append hunits (.cons hsingle .nil)⟩
  unfold joinUnit
  dsimp only
  by_cases hnil : units = []
  · subst hnil
    exact ⟨hnew, List.isChain_singleton _⟩
  · obtain ⟨front, last, rfl⟩ : ∃ front last, units = front ++ [last] :=
      ⟨units.dropLast, units.getLast hnil, (List.dropLast_append_getLast hnil).symm⟩
    rw [List.getLast?_concat, List.dropLast_concat]
    show AreUnits (if _ then _ else _) _
    by_cases hkana : ((kanaKey c.value).isSome || last.kana.isSome) = true
    · rw [if_pos hkana]
      refine ⟨hnew, List.isChain_append.mpr ⟨h.maximal, List.isChain_singleton _, ?_⟩⟩
      intro a ha b hb
      rw [List.getLast?_concat, Option.mem_some_iff] at ha
      rw [List.head?_cons, Option.mem_some_iff] at hb
      rw [← ha, ← hb]
      exact ((Bool.or_eq_true _ _).mp hkana).symm
    · rw [if_neg hkana]
      simp only [Bool.or_eq_true, not_or, Option.not_isSome_iff_eq_none] at hkana
      have hfront := List.forall₂_take_append groups front [last] hunits.flip
      have hlast := List.forall₂_drop_append groups front [last] hunits.flip
      obtain ⟨group, rest, ⟨htext, hne, -, hall⟩, hrest, hdrop⟩ :=
        List.forall₂_cons_right_iff.mp hlast
      rw [List.forall₂_nil_right_iff.mp hrest] at hdrop
      -- The last group takes the code point.
      have hjoined : IsUnit { last with text := last.text ++ c.text } (group ++ [c]) := by
        refine ⟨?_, by simp, fun hsome => absurd hsome (by simp [hkana.2]), fun _ d hd => ?_⟩
        · show last.text ++ c.text = _
          rw [List.flatMap_append, htext, List.flatMap_singleton]
        · obtain hd | hd := List.mem_append.mp hd
          · exact hall hkana.2 d hd
          · rw [List.mem_singleton.mp hd]
            exact hkana.1
      refine ⟨⟨groups.take front.length ++ [group ++ [c]], ?_,
        List.rel_append hfront.flip (.cons hjoined .nil)⟩, ?_⟩
      · have hgroups : groups.take front.length ++ [group] = groups := by
          rw [← hdrop, List.take_append_drop]
        have hshown := congrArg List.flatten hgroups
        rw [hflat, List.flatten_append, List.flatten_singleton] at hshown
        rw [← hshown, List.flatten_append, List.flatten_singleton, List.append_assoc]
      · obtain ⟨hchain, -, hjoint⟩ := List.isChain_append.mp h.maximal
        refine List.isChain_append.mpr ⟨hchain, List.isChain_singleton _, fun a ha b hb => ?_⟩
        have hpair := hjoint a ha last rfl
        rw [List.head?_cons, Option.mem_some_iff] at hb
        rw [← hb]
        exact hpair

/-- **The units of a text.** -/
theorem areUnits_unitsOf (shown : List Codepoint) : AreUnits (unitsOf shown) shown := by
  have hstep : ∀ rest units done, AreUnits units done →
      AreUnits (rest.foldl joinUnit units) (done ++ rest) := by
    intro rest
    induction rest with
    | nil =>
      intro units done h
      rw [List.append_nil]
      exact h
    | cons c rest ih =>
      intro units done h
      have hall := ih _ _ (h.join c)
      rw [List.append_assoc] at hall
      exact hall
  exact hstep shown [] [] ⟨⟨[], rfl, .nil⟩, List.isChain_nil⟩

/-- The units of a text make it up. -/
theorem AreUnits.flatMap_text {units : List SurfaceUnit} {shown : List Codepoint}
    (h : AreUnits units shown) : units.flatMap SurfaceUnit.text = shown.flatMap Codepoint.text := by
  obtain ⟨groups, rfl, hunits⟩ := h.groups
  clear h
  induction hunits with
  | nil => rfl
  | cons hunit _ ih =>
    rw [List.flatMap_cons, ih, List.flatten_cons, List.flatMap_append, hunit.1]

/-! ## What the table holds -/

/-- The characters that a unit takes. -/
def takes (unit : SurfaceUnit) (part : List Codepoint) : Bool :=
  unit.kana.isNone || part.map (fun c => kanaKey c.value) = [unit.kana]

/-- A kana takes one character. -/
theorem length_of_takes {unit : SurfaceUnit} (hkana : unit.kana.isSome = true)
    (part : List Codepoint) (h : takes unit part = true) : part.length = 1 := by
  have hmap : part.map (fun c => kanaKey c.value) = [unit.kana] := by
    simpa [takes, Option.isSome_iff_ne_none.mp hkana] using h
  simpa using congrArg List.length hmap

/-- A run takes anything. -/
theorem takes_of_run {unit : SurfaceUnit} (hkana : ¬ unit.kana.isSome = true)
    (part : List Codepoint) : takes unit part = true := by
  simp [takes, Option.not_isSome_iff_eq_none.mp hkana]

/-- How many ways there are from a character on. -/
abbrev waysFrom (typed : List Codepoint) (units : List SurfaceUnit) (j : ℕ) : ℕ :=
  Cuts.count takes units (typed.drop j)

/-- The loop over the ends stops at two. -/
theorem min_sumWays (total : ℕ) (ws : List ℕ) : min (sumWays total ws) 2 = min (total + ws.sum) 2 := by
  induction ws generalizing total with
  | nil => rfl
  | cons w ws ih =>
    rw [sumWays, List.sum_cons]
    split_ifs with hlt
    · rw [ih, Nat.add_assoc]
    · omega

/-- A row of saturated counts. -/
def countRow (typed : List Codepoint) (units : List SurfaceUnit) : List ℕ :=
  (List.range (typed.length + 1)).map (fun j => min 2 (waysFrom typed units j))

/-- An entry of such a row. -/
theorem getElem?_countRow {typed : List Codepoint} {units : List SurfaceUnit} {j : ℕ}
    (h : j ≤ typed.length) : (countRow typed units)[j]? = some (min 2 (waysFrom typed units j)) := by
  unfold countRow
  rw [List.getElem?_map, List.getElem?_range (Nat.lt_succ_of_le h)]
  rfl

/-- **One entry counts**, when the row below does. -/
theorem waysAt_eq (typed : List Codepoint) (unit : SurfaceUnit) (units : List SurfaceUnit) {j : ℕ}
    (hj : j ≤ typed.length) :
    waysAt typed unit (countRow typed units) j = min 2 (waysFrom typed (unit :: units) j) := by
  unfold waysAt
  dsimp only
  by_cases hkana : unit.kana.isSome = true
  · rw [if_pos hkana]
    by_cases hlt : j < typed.length
    · have htake : takes unit [typed[j]] = decide (kanaKey typed[j].value = unit.kana) := by
        simp [takes, Option.isSome_iff_ne_none.mp hkana]
      rw [List.getElem?_eq_getElem hlt]
      show min (if kanaKey typed[j].value = unit.kana then _ else 0) 2 = _
      rw [waysFrom, List.drop_eq_getElem_cons hlt, Cuts.count_cons_of_single (length_of_takes hkana), htake,
        List.getD_eq_getElem?_getD, getElem?_countRow hlt]
      by_cases heq : kanaKey typed[j].value = unit.kana
      · simp [heq, waysFrom]
      · simp [heq]
    · rw [List.getElem?_eq_none (by omega), waysFrom, List.drop_eq_nil_of_le (by omega),
        Cuts.count_cons_nil]
      rfl
  · rw [if_neg hkana, min_sumWays, Nat.zero_add]
    have hdrop : (countRow typed units).drop (j + 1)
        = (List.range (typed.drop j).length).map (fun i =>
          min 2 (Cuts.count takes units ((typed.drop j).drop (i + 1)))) := by
      refine List.ext_getElem? (fun i => ?_)
      rw [List.getElem?_drop, List.getElem?_map, countRow, List.getElem?_map, List.length_drop]
      by_cases hi : i < typed.length - j
      · rw [List.getElem?_range (by omega), List.getElem?_range hi]
        simp [waysFrom, List.drop_drop, Nat.add_assoc, Nat.add_comm 1]
      · rw [List.getElem?_eq_none (by simp; omega), List.getElem?_eq_none (by simp; omega)]
        rfl
    rw [hdrop, waysFrom, Cuts.count_cons_of_any (takes_of_run hkana), Nat.min_comm, Cuts.min_sum_map_min]

/-- **The rows count.** -/
theorem waysRows_eq (typed : List Codepoint) (units : List SurfaceUnit) :
    waysRows typed units = units.tails.map (countRow typed) := by
  induction units with
  | nil =>
    have hlast : countRow typed [] = List.replicate typed.length 0 ++ [1] := by
      unfold countRow waysFrom
      rw [List.range_succ, List.map_append, List.map_singleton, List.drop_length]
      refine congrArg₂ (· ++ ·) ?_ rfl
      refine List.eq_replicate_iff.mpr ⟨by simp, fun n hn => ?_⟩
      obtain ⟨j, hj, rfl⟩ := List.mem_map.mp hn
      rw [Cuts.count_nil, if_neg (by simpa using List.mem_range.mp hj)]
      rfl
    rw [waysRows, ← hlast]
    rfl
  | cons unit units ih =>
    have hhead : (waysRows typed units).headD [] = countRow typed units := by
      rw [ih]
      cases units <;> rfl
    rw [waysRows, hhead, ih, List.tails_cons, List.map_cons]
    refine congrArg (· :: _) ?_
    refine List.map_congr_left (fun j hj => ?_)
    exact waysAt_eq typed unit units (Nat.lt_succ_iff.mp (List.mem_range.mp hj))

/-- A position in rows of one length. -/
theorem getElem?_flatten_of_length {α : Type} {rows : List (List α)} {width : ℕ}
    (h : ∀ row ∈ rows, row.length = width) (i : ℕ) {j : ℕ} (hj : j < width) :
    rows.flatten[i * width + j]? = rows[i]?.bind (fun row => row[j]?) := by
  induction rows generalizing i with
  | nil => rfl
  | cons row rows ih =>
    have hrow : row.length = width := h row List.mem_cons_self
    rw [List.flatten_cons]
    cases i with
    | zero =>
      rw [Nat.zero_mul, Nat.zero_add, List.getElem?_append_left (by omega)]
      rfl
    | succ i =>
      have hle : row.length ≤ (i + 1) * width + j := by
        rw [hrow, Nat.succ_mul]
        omega
      have hsub : (i + 1) * width + j - row.length = i * width + j := by
        rw [hrow, Nat.succ_mul]
        omega
      rw [List.getElem?_append_right hle, hsub,
        ih (fun row hmem => h row (List.mem_cons_of_mem _ hmem))]
      rfl

/-- **An entry of the table** is the saturated count of the ways from there. -/
theorem getElem?_ways {typed : List Codepoint} {units : List SurfaceUnit} {i j : ℕ}
    (hi : i ≤ units.length) (hj : j ≤ typed.length) :
    (ways typed units)[i * (typed.length + 1) + j]?
      = some (min 2 (waysFrom typed (units.drop i) j)) := by
  have hwidth : ∀ row ∈ waysRows typed units, row.length = typed.length + 1 := by
    rw [waysRows_eq]
    intro row hrow
    obtain ⟨us, -, rfl⟩ := List.mem_map.mp hrow
    rw [countRow, List.length_map, List.length_range]
  have htail : units.tails[i]? = some (units.drop i) := by
    rw [List.getElem?_eq_getElem (by rw [List.length_tails]; omega), List.getElem_tails]
  rw [ways, getElem?_flatten_of_length hwidth i (Nat.lt_succ_of_le hj), waysRows_eq,
    List.getElem?_map, htail]
  exact getElem?_countRow hj

/-! ## Reading the split off the table -/

/-- **The search for the end of a run** stops at the first way, and there is
one. -/
theorem seekEnd_eq {typed : List Codepoint} {units : List SurfaceUnit} {i e : ℕ}
    (hi : i ≤ units.length) (hways : ∃ e', e ≤ e' ∧ e' ≤ typed.length
      ∧ waysFrom typed (units.drop i) e' ≠ 0) :
    ∃ e', seekEnd (ways typed units) (i * (typed.length + 1)) e = some e' ∧ e ≤ e'
      ∧ e' ≤ typed.length ∧ waysFrom typed (units.drop i) e' ≠ 0 := by
  obtain ⟨last, hle, hlast, hne⟩ := hways
  induction hgap : last - e generalizing e with
  | zero =>
    obtain rfl : e = last := by omega
    obtain ⟨hlt, hval⟩ := List.getElem?_eq_some_iff.mp (getElem?_ways hi hlast)
    rw [seekEnd, dif_pos hlt, if_neg (by rw [hval]; omega)]
    exact ⟨e, rfl, le_rfl, hlast, hne⟩
  | succ gap ih =>
    obtain ⟨hlt, hval⟩ := List.getElem?_eq_some_iff.mp (getElem?_ways hi (hle.trans hlast))
    rw [seekEnd, dif_pos hlt, hval]
    by_cases hzero : waysFrom typed (units.drop i) e = 0
    · rw [if_pos (by omega)]
      obtain ⟨e', hrun, hle', hrest⟩ := ih (e := e + 1) (by omega) (by omega)
      exact ⟨e', hrun, by omega, hrest⟩
    · rw [if_neg (by omega)]
      exact ⟨e, rfl, le_rfl, hle.trans hlast, hzero⟩

/-- The piece of a unit and what it takes. -/
def pieceOf (unit : SurfaceUnit) (part : List Codepoint) : LivePiece where
  reading := part.flatMap Codepoint.text
  surface := unit.text
  cutAfter := unit.kana.isSome

/-- **The second pass finds the only split**, and reads nothing past the table. -/
theorem splitAt_eq {typed : List Codepoint} {units us : List SurfaceUnit} {i j : ℕ}
    (hus : units.drop i = us) (hj : j ≤ typed.length) (hone : waysFrom typed us j = 1) :
    ∃ parts, Cuts.IsCut takes us (typed.drop j) parts
      ∧ splitAt (ways typed units) typed i j us = some (List.zipWith pieceOf us parts) := by
  induction us generalizing i j with
  | nil =>
    refine ⟨[], ⟨?_, .nil⟩, rfl⟩
    rw [waysFrom, Cuts.count_nil] at hone
    by_contra hne
    rw [if_neg (fun hnil => hne hnil.symm)] at hone
    exact absurd hone (by simp)
  | cons unit us ih =>
    have hi : i < units.length := by
      by_contra hlarge
      rw [List.drop_eq_nil_of_le (not_lt.mp hlarge)] at hus
      cases hus
    have hnext : units.drop (i + 1) = us := by
      rw [List.drop_eq_getElem_cons hi] at hus
      exact (List.cons.inj hus).2
    -- Whatever the unit takes, one way is left for the others.
    have hrest : ∀ e, j < e → e ≤ typed.length → waysFrom typed us e = 1 →
        takes unit ((typed.drop j).take (e - j)) = true →
        unitEnd (ways typed units) (typed.length + 1) i j unit = some e →
        ∃ parts, Cuts.IsCut takes (unit :: us) (typed.drop j) parts
          ∧ splitAt (ways typed units) typed i j (unit :: us)
            = some (List.zipWith pieceOf (unit :: us) parts) := by
      intro e hlt hle hone' htake hend
      obtain ⟨parts, hcut, hrun⟩ := ih hnext hle hone'
      refine ⟨(typed.drop j).take (e - j) :: parts, Cuts.isCut_cons.mpr
        ⟨((typed.drop j).take (e - j), typed.drop e), Cuts.mem_splits.mpr ⟨?_, ?_⟩, htake, parts,
          hcut, rfl⟩, ?_⟩
      · intro hnil
        have hlen := congrArg List.length hnil
        rw [List.length_take, List.length_drop, List.length_nil] at hlen
        omega
      · have hdrop : typed.drop e = (typed.drop j).drop (e - j) := by
          rw [List.drop_drop, Nat.add_sub_cancel' hlt.le]
        rw [hdrop, List.take_append_drop]
      · rw [splitAt, hend, Option.bind_eq_bind, Option.bind_some, if_pos hle, hrun]
        rfl
    by_cases hkana : unit.kana.isSome = true
    · by_cases hlt : j < typed.length
      · rw [waysFrom, List.drop_eq_getElem_cons hlt, Cuts.count_cons_of_single (length_of_takes hkana)] at hone
        by_cases htake : takes unit [typed[j]] = true
        · rw [if_pos htake] at hone
          refine hrest (j + 1) (Nat.lt_succ_self j) hlt hone ?_ (if_pos hkana)
          rw [Nat.add_sub_cancel_left, List.drop_eq_getElem_cons hlt]
          exact htake
        · rw [if_neg htake] at hone
          exact absurd hone (by simp)
      · rw [waysFrom, List.drop_eq_nil_of_le (by omega), Cuts.count_cons_nil] at hone
        exact absurd hone (by simp)
    · have hsum := hone
      rw [waysFrom, Cuts.count_cons_of_any (takes_of_run hkana), List.length_drop] at hsum
      simp only [List.drop_drop] at hsum
      have hexists : ∃ e, j + 1 ≤ e ∧ e ≤ typed.length ∧ waysFrom typed (units.drop (i + 1)) e ≠ 0 := by
        by_contra hnone
        push Not at hnone
        rw [List.sum_eq_zero] at hsum
        · exact absurd hsum (by simp)
        · intro n hn
          obtain ⟨k, hk, rfl⟩ := List.mem_map.mp hn
          have hlt := List.mem_range.mp hk
          rw [← hnext]
          exact hnone (j + (k + 1)) (by omega) (by omega)
      obtain ⟨e, hend, hle, hlast, hne⟩ := seekEnd_eq (Nat.succ_le_of_lt hi) hexists
      rw [hnext] at hne
      refine hrest e hle hlast ?_ (takes_of_run hkana _) ((if_neg hkana).trans hend)
      have hmem : waysFrom typed us e ∈ (List.range (typed.length - j)).map (fun k =>
          Cuts.count takes us (typed.drop (j + (k + 1)))) := by
        refine List.mem_map.mpr ⟨e - (j + 1), List.mem_range.mpr (by omega), ?_⟩
        rw [show j + (e - (j + 1) + 1) = e by omega]
      have hbound := List.single_le_sum (fun n _ => Nat.zero_le n) _ hmem
      omega

/-! ## One segment -/

/-- Marking the last piece leaves the texts. -/
theorem map_cutAtEnd {α : Type} (f : LivePiece → α)
    (hf : ∀ piece, f { piece with cutAfter := true } = f piece) (pieces : List LivePiece) :
    (cutAtEnd pieces).map f = pieces.map f := by
  induction pieces using cutAtEnd.induct with
  | case1 => rfl
  | case2 piece => rw [cutAtEnd, List.map_singleton, List.map_singleton, hf]
  | case3 piece next pieces ih =>
    rw [cutAtEnd, List.map_cons, ih]
    rfl

/-- The texts of pieces. -/
theorem map_zipWith_pieceOf {us : List SurfaceUnit} {cs : List Codepoint}
    {parts : List (List Codepoint)} (h : Cuts.IsCut takes us cs parts) :
    (List.zipWith pieceOf us parts).map LivePiece.reading
        = parts.map (fun part => part.flatMap Codepoint.text)
      ∧ (List.zipWith pieceOf us parts).map LivePiece.surface = us.map SurfaceUnit.text := by
  have hpairs := h.takes
  clear h
  induction hpairs with
  | nil => exact ⟨rfl, rfl⟩
  | cons _ _ ih => exact ⟨congrArg (_ :: ·) ih.1, congrArg (_ :: ·) ih.2⟩

/-- The texts of the parts of a cut. -/
theorem flatten_readings {us : List SurfaceUnit} {cs : List Codepoint}
    {parts : List (List Codepoint)} (h : Cuts.IsCut takes us cs parts) :
    (parts.map (fun part => part.flatMap Codepoint.text)).flatten = cs.flatMap Codepoint.text := by
  rw [← h.flatten, ← List.flatMap_def, ← List.flatMap_assoc]
  simp

/-- **The two outcomes of `AlignSegment`.** -/
theorem alignSegment_cases (reading surface : Bytes) :
    (∃ parts pieces, alignSegment reading surface = some pieces
      ∧ ((1 ≤ (unitsOf (splitCodepoints surface)).length
          ∧ (unitsOf (splitCodepoints surface)).length ≤ maxAlignedCodepoints)
        ∧ 1 ≤ (splitCodepoints reading).length
        ∧ (splitCodepoints reading).length ≤ maxAlignedCodepoints)
      ∧ (∃! parts, Cuts.IsCut takes (unitsOf (splitCodepoints surface)) (splitCodepoints reading) parts)
      ∧ Cuts.IsCut takes (unitsOf (splitCodepoints surface)) (splitCodepoints reading) parts
      ∧ pieces = cutAtEnd (List.zipWith pieceOf (unitsOf (splitCodepoints surface)) parts))
    ∨ alignSegment reading surface = some []
      ∧ ¬ (((1 ≤ (unitsOf (splitCodepoints surface)).length
          ∧ (unitsOf (splitCodepoints surface)).length ≤ maxAlignedCodepoints)
        ∧ 1 ≤ (splitCodepoints reading).length
        ∧ (splitCodepoints reading).length ≤ maxAlignedCodepoints)
      ∧ ∃! parts, Cuts.IsCut takes (unitsOf (splitCodepoints surface)) (splitCodepoints reading) parts) := by
  unfold alignSegment
  dsimp only
  generalize unitsOf (splitCodepoints surface) = units
  generalize splitCodepoints reading = typed
  by_cases hsize : units.length = 0 ∨ typed.length = 0 ∨ maxAlignedCodepoints < units.length
      ∨ maxAlignedCodepoints < typed.length
  · rw [if_pos hsize]
    refine Or.inr ⟨rfl, fun h => ?_⟩
    obtain ⟨⟨⟨h₁, h₂⟩, h₃, h₄⟩, -⟩ := h
    omega
  · have hbounds : (1 ≤ units.length ∧ units.length ≤ maxAlignedCodepoints)
        ∧ 1 ≤ typed.length ∧ typed.length ≤ maxAlignedCodepoints := by
      omega
    have hfirst : (ways typed units)[0 * (typed.length + 1) + 0]? = _ :=
      getElem?_ways (Nat.zero_le _) (Nat.zero_le _)
    rw [Nat.zero_mul, Nat.zero_add, List.drop_zero, waysFrom, List.drop_zero] at hfirst
    rw [if_neg hsize, hfirst, Option.bind_eq_bind, Option.bind_some]
    by_cases hone : Cuts.count takes units typed = 1
    · have hone' : waysFrom typed units 0 = 1 := hone
      obtain ⟨parts, hcut, hrun⟩ := splitAt_eq (i := 0) (List.drop_zero (l := units))
        (Nat.zero_le _) hone'
      rw [List.drop_zero] at hcut
      refine Or.inl ⟨parts, _, ?_, hbounds, Cuts.count_eq_one_iff.mp hone, hcut, rfl⟩
      rw [hone, if_neg (by decide), hrun]
      rfl
    · rw [if_pos (by omega)]
      exact Or.inr ⟨rfl, fun h => hone (Cuts.count_eq_one_iff.mpr h.2)⟩

/-- The pieces of one segment make it up. -/
theorem segmentPieces_eq (segment : Ipc.LiveSegment) :
    ∃ pieces, segmentPieces segment = some pieces
      ∧ (pieces.map LivePiece.reading).flatten
        = (if segment.autoPunctuation then [] else segment.reading)
      ∧ (pieces.map LivePiece.surface).flatten = segment.surface := by
  unfold segmentPieces
  by_cases hmark : segment.autoPunctuation = true
  · rw [if_pos hmark, if_pos hmark]
    exact ⟨_, rfl, rfl, by simp⟩
  · rw [if_neg hmark, if_neg hmark]
    obtain ⟨parts, pieces, hrun, hbounds, -, hcut, rfl⟩ | ⟨hrun, -⟩ :=
      alignSegment_cases segment.reading segment.surface
    · rw [hrun, Option.bind_eq_bind, Option.bind_some]
      generalize hpieces : cutAtEnd _ = pieces
      have hreadings : (pieces.map LivePiece.reading).flatten = segment.reading := by
        rw [← hpieces, map_cutAtEnd _ (fun _ => rfl), (map_zipWith_pieceOf hcut).1,
          flatten_readings hcut, flatMap_splitCodepoints]
      have hsurfaces : (pieces.map LivePiece.surface).flatten = segment.surface := by
        rw [← hpieces, map_cutAtEnd _ (fun _ => rfl), (map_zipWith_pieceOf hcut).2,
          ← List.flatMap_def, (areUnits_unitsOf _).flatMap_text, flatMap_splitCodepoints]
      split_ifs
      · exact ⟨_, rfl, by simp, by simp⟩
      · exact ⟨pieces, rfl, hreadings, hsurfaces⟩
    · rw [hrun]
      exact ⟨_, rfl, by simp, by simp⟩

/-- The pieces of several segments make them up. -/
theorem mapM_segmentPieces (segments : List Ipc.LiveSegment) :
    ∃ pieces, (segments.mapM segmentPieces).map List.flatten = some pieces
      ∧ (pieces.map LivePiece.reading).flatten
        = segments.flatMap (fun segment => if segment.autoPunctuation then [] else segment.reading)
      ∧ (pieces.map LivePiece.surface).flatten
        = segments.flatMap (fun segment => segment.surface) := by
  induction segments with
  | nil => exact ⟨[], rfl, rfl, rfl⟩
  | cons segment segments ih =>
    obtain ⟨first, hfirst, hreading, hsurface⟩ := segmentPieces_eq segment
    obtain ⟨rest, hrest, hreadings, hsurfaces⟩ := ih
    obtain ⟨lists, hlists, rfl⟩ := Option.map_eq_some_iff.mp hrest
    refine ⟨first ++ lists.flatten, ?_, ?_, ?_⟩
    · rw [List.mapM_cons, hfirst, hlists]
      rfl
    · rw [List.map_append, List.flatten_append, hreading, hreadings, List.flatMap_cons]
    · rw [List.map_append, List.flatten_append, hsurface, hsurfaces, List.flatMap_cons]

/-- **The pieces of an answer make it up.** -/
theorem buildLivePieces_eq (reading surface : Bytes) (segments : List Ipc.LiveSegment)
    (autoPunctuation : Bool) : ∃ pieces,
      buildLivePieces reading surface segments autoPunctuation = some pieces
        ∧ (pieces ≠ [] → (pieces.map LivePiece.reading).flatten = reading
          ∧ (pieces.map LivePiece.surface).flatten = surface) := by
  unfold buildLivePieces
  dsimp only
  split_ifs with hempty hnone husable
  · exact ⟨[], rfl, fun hne => absurd rfl hne⟩
  · exact ⟨[], rfl, fun hne => absurd rfl hne⟩
  · obtain ⟨pieces, hrun, hreading, hsurface⟩ := mapM_segmentPieces segments
    simp only [segmentsUsable, Bool.and_eq_true, beq_iff_eq] at husable
    exact ⟨pieces, hrun, fun _ => ⟨hreading.trans husable.1.2, hsurface.trans husable.2⟩⟩
  · obtain ⟨pieces, hrun, hreading, hsurface⟩ := mapM_segmentPieces [wholeSegment reading surface]
    refine ⟨pieces, hrun, fun _ => ⟨hreading.trans ?_, hsurface.trans ?_⟩⟩
    · simp [wholeSegment]
    · simp [wholeSegment]

/-- **Splits at kana.** A segment has pieces when each side has a bounded number
of parts and there is one way to read the units of its surface; the pieces are
that way. The second pass never reads past the table, and the pieces of an answer
are the answer. -/
theorem alignSegment_spec (reading surface : Bytes) :
    ∃ pieces, alignSegment reading surface = some pieces
      ∧ AreUnits (unitsOf (splitCodepoints surface)) (splitCodepoints surface)
      ∧ (pieces ≠ [] ↔
        ((1 ≤ (unitsOf (splitCodepoints surface)).length
            ∧ (unitsOf (splitCodepoints surface)).length ≤ maxAlignedCodepoints)
          ∧ 1 ≤ (splitCodepoints reading).length
          ∧ (splitCodepoints reading).length ≤ maxAlignedCodepoints)
        ∧ ∃! parts, Cuts.IsCut takes (unitsOf (splitCodepoints surface)) (splitCodepoints reading) parts)
      ∧ (pieces ≠ [] → ∀ parts,
        Cuts.IsCut takes (unitsOf (splitCodepoints surface)) (splitCodepoints reading) parts →
          pieces.map LivePiece.reading = parts.map (fun part => part.flatMap Codepoint.text)
          ∧ pieces.map LivePiece.surface
            = (unitsOf (splitCodepoints surface)).map SurfaceUnit.text
          ∧ (pieces.map LivePiece.reading).flatten = reading
          ∧ (pieces.map LivePiece.surface).flatten = surface)
      ∧ ∀ segments autoPunctuation, ∃ all,
        buildLivePieces reading surface segments autoPunctuation = some all
          ∧ (all ≠ [] → (all.map LivePiece.reading).flatten = reading
            ∧ (all.map LivePiece.surface).flatten = surface) := by
  have hbuild := buildLivePieces_eq reading surface
  have hunits := areUnits_unitsOf (splitCodepoints surface)
  obtain ⟨parts, pieces, hrun, hbounds, hunique, hcut, hpieces⟩ | ⟨hrun, hnot⟩ :=
    alignSegment_cases reading surface
  · have hreadings : pieces.map LivePiece.reading
        = parts.map (fun part => part.flatMap Codepoint.text) := by
      rw [hpieces, map_cutAtEnd _ (fun _ => rfl), (map_zipWith_pieceOf hcut).1]
    have hsurfaces : pieces.map LivePiece.surface
        = (unitsOf (splitCodepoints surface)).map SurfaceUnit.text := by
      rw [hpieces, map_cutAtEnd _ (fun _ => rfl), (map_zipWith_pieceOf hcut).2]
    have hne : pieces ≠ [] := by
      rintro rfl
      have hlen := congrArg List.length hsurfaces
      rw [List.length_map, List.length_map, List.length_nil] at hlen
      omega
    refine ⟨pieces, hrun, hunits, ⟨fun _ => ⟨hbounds, hunique⟩, fun _ => hne⟩, ?_, hbuild⟩
    intro _ parts' hcut'
    obtain rfl := hunique.unique hcut hcut'
    refine ⟨hreadings, hsurfaces, ?_, ?_⟩
    · rw [hreadings, flatten_readings hcut, flatMap_splitCodepoints]
    · rw [hsurfaces, ← List.flatMap_def, hunits.flatMap_text, flatMap_splitCodepoints]
  · exact ⟨[], hrun, hunits, ⟨fun hne => absurd rfl hne, fun h => absurd h hnot⟩,
      fun hne => absurd rfl hne, hbuild⟩

end AzooKey.Tsf

import AzooKey.Core.InputStateDisplay
import AzooKey.Core.Utf8Readers
import AzooKey.Lib.CodePoints

/-!
# Backspace takes one code point

The reading is the confirmed kana and a preview of pending romaji, and the two
are edited in different ways (`EraseLastUnit`): of the kana the last code point
is erased, of the romaji as many letters as it takes to change the preview. The
preview is the romaji itself, except that `n` and `nn` show as `ん`.

`Steady` is what a converter keeps that has been fed ASCII: its pending romaji
is ASCII, and with the built-in table never `nn` and a letter, the one text whose
preview would lose two code points (`Steady.popPendingPreview`). `Spelled` adds
that the kana is well formed, and every operation keeps it (`Spelled.apply`).
-/

namespace AzooKey.Core

/-! ## What is printed -/

/-- The octets of characters are a text. -/
theorem validUtf8_flatMap (chars : List Char) : ValidUtf8 (chars.flatMap String.utf8EncodeChar) := by
  induction chars with
  | nil => exact .nil
  | cons c chars ih => exact .cons (Ipc.Json.isScalar_utf8EncodeChar c) ih

/-- The octets of a string are a text. -/
theorem validUtf8_utf8 (text : String) : ValidUtf8 (utf8 text) := by
  obtain ⟨chars, hchars⟩ := text.isValidUTF8
  have hoctets : utf8 text = chars.flatMap String.utf8EncodeChar := by
    unfold utf8
    rw [hchars]
    simp [List.utf8Encode]
  rw [hoctets]
  exact validUtf8_flatMap chars

/-- The octets of a scalar value are a text. -/
theorem validUtf8_encodeUtf8 {codepoint : ℕ} (h : codepoint.isValidChar) :
    ValidUtf8 (encodeUtf8 codepoint) := by
  obtain ⟨c, -, hc⟩ := exists_char_of_isValidChar h
  rw [encodeUtf8_eq h, ← hc]
  exact .of_isScalar (Ipc.Json.isScalar_utf8EncodeChar c)

/-- What a rule may print is a text. -/
theorem validUtf8_of_validOutput {units : ℕ} {output : Bytes}
    (h : validOutputFrom units output = true) : ValidUtf8 output := by
  induction units, output using validOutputFrom.induct with
  | case1 units output hnone =>
    cases output with
    | nil => exact .nil
    | cons first text =>
      rw [decodeNextUtf8_eq] at hnone
      exact absurd hnone (by simp)
  | case2 units output d hdecode hbad =>
    rw [validOutputFrom] at h
    split at h
    · rename_i hnone
      exact absurd (hdecode.symm.trans hnone) (by simp)
    · rename_i d' hdecode'
      obtain rfl := Option.some.inj (hdecode.symm.trans hdecode')
      rw [if_pos hbad] at h
      exact absurd h (by simp)
  | case3 units output d hdecode hok hmany =>
    rw [validOutputFrom] at h
    split at h
    · rename_i hnone
      exact absurd (hdecode.symm.trans hnone) (by simp)
    · rename_i d' hdecode'
      obtain rfl := Option.some.inj (hdecode.symm.trans hdecode')
      rw [dite_eq_ite] at hmany
      rw [if_neg hok, if_pos hmany] at h
      exact absurd h (by simp)
  | case4 units output d hdecode hok hmany ih =>
    rw [validOutputFrom] at h
    split at h
    · rename_i hnone
      exact absurd (hdecode.symm.trans hnone) (by simp)
    · rename_i d' hdecode'
      obtain rfl := Option.some.inj (hdecode.symm.trans hdecode')
      rw [dite_eq_ite] at hmany ih
      rw [if_neg hok, if_neg hmany] at h
      cases output with
      | nil => exact .nil
      | cons first text =>
        rw [decodeNextUtf8_eq] at hdecode
        cases hnext : nextCodePoint (first :: text) with
        | none =>
          rw [hnext] at hdecode
          obtain rfl := Option.some.inj hdecode
          exact absurd rfl hok
        | some r =>
          rw [hnext] at hdecode
          obtain rfl := Option.some.inj hdecode
          obtain ⟨scalar, hscalar, htext⟩ := isScalar_of_nextCodePoint hnext
          rw [htext]
          exact .cons hscalar (ih h)

/-- Every key of the built-in table prints a text. -/
theorem validUtf8_romajiFind {chunk kana : Bytes} (h : romajiFind chunk = some kana) :
    ValidUtf8 kana := by
  obtain ⟨e, -, he⟩ := List.mem_map.mp (AssocList.mem_of_find?_eq_some h)
  have hkana : utf8 e.2 = kana := congrArg Prod.snd he
  rw [← hkana]
  exact validUtf8_utf8 e.2

/-- A text of octets below `0x80`. -/
def Ascii (text : Bytes) : Prop := ∀ c ∈ text, c < 0x80

theorem Ascii.append {s t : Bytes} (hs : Ascii s) (ht : Ascii t) : Ascii (s ++ t) :=
  fun c hc => (List.mem_append.mp hc).elim (hs c) (ht c)

theorem Ascii.sublist {s t : Bytes} (ht : Ascii t) (h : s.Sublist t) : Ascii s :=
  fun c hc => ht c (h.subset hc)

/-- **A conversion with the built-in table** prints a text, and what stays
pending is ASCII, and short or the beginning of a longer key. -/
theorem convertBuiltinPending_ascii (force : Bool) {pending : Bytes} (h : Ascii pending) :
    ValidUtf8 (convertBuiltinPending force pending).1
      ∧ Ascii (convertBuiltinPending force pending).2
      ∧ ((convertBuiltinPending force pending).2.length < 3
        ∨ isBuiltinRomajiPrefix (convertBuiltinPending force pending).2 = true) := by
  induction pending using convertBuiltinPending.induct force with
  | case1 =>
    rw [convertBuiltinPending]
    exact ⟨.nil, h, Or.inl (by simp)⟩
  | case2 front tail kana length hmatch ih =>
    rw [convertBuiltinPending]
    split
    · rename_i kana' length' hmatch'
      obtain ⟨rfl, rfl⟩ := Prod.mk.inj (Option.some.inj (hmatch.symm.trans hmatch'))
      obtain ⟨hout, hrest⟩ := ih (h.sublist (List.drop_sublist _ _))
      have hkana := validUtf8_romajiFind (longestMatch_eq_some hmatch).2.2
      exact ⟨hkana.append hout, hrest⟩
    · rename_i hmatch'
      exact absurd (hmatch.symm.trans hmatch') (by simp)
  | case3 front tail hmatch hnn =>
    rw [convertBuiltinPending]
    split
    · rename_i hmatch'
      exact absurd (hmatch.symm.trans hmatch') (by simp)
    · rw [if_pos hnn]
      exact ⟨validUtf8_utf8 _, fun c hc => absurd hc (by simp), Or.inl (by simp)⟩
  | case4 front tail hmatch hnn hn =>
    rw [convertBuiltinPending]
    split
    · rename_i hmatch'
      exact absurd (hmatch.symm.trans hmatch') (by simp)
    · rw [if_neg hnn, if_pos hn]
      exact ⟨validUtf8_utf8 _, fun c hc => absurd hc (by simp), Or.inl (by simp)⟩
  | case5 front tail hmatch hnn hn hdrop ih =>
    rw [convertBuiltinPending]
    split
    · rename_i hmatch'
      exact absurd (hmatch.symm.trans hmatch') (by simp)
    · rw [if_neg hnn, if_neg hn, if_pos hdrop]
      obtain ⟨hout, hrest⟩ := ih (h.sublist (List.sublist_cons_self _ _))
      exact ⟨(ValidUtf8.of_ascii (h front List.mem_cons_self)).append hout, hrest⟩
  | case6 front tail hmatch hnn hn hwait =>
    rw [convertBuiltinPending]
    split
    · rename_i hmatch'
      exact absurd (hmatch.symm.trans hmatch') (by simp)
    · rw [if_neg hnn, if_neg hn, if_neg hwait]
      refine ⟨.nil, h, ?_⟩
      by_cases hshort : (front :: tail).length < 3
      · exact Or.inl hshort
      · refine Or.inr ?_
        by_contra hbegin
        refine hwait ?_
        rw [Bool.eq_false_of_not_eq_true hbegin, decide_eq_true (Nat.not_lt.mp hshort)]
        simp

/-- **A conversion with a custom table** prints a text, and what stays pending
is ASCII. -/
theorem convertCustomPending_ascii (table : CustomRomajiTable) (force : Bool) {pending : Bytes}
    (h : Ascii pending) :
    ValidUtf8 (convertCustomPending table force pending).1
      ∧ Ascii (convertCustomPending table force pending).2 := by
  induction pending using convertCustomPending.induct table force with
  | case1 =>
    rw [convertCustomPending]
    exact ⟨.nil, h⟩
  | case2 front tail hwait =>
    rw [convertCustomPending, if_pos hwait]
    exact ⟨.nil, h⟩
  | case3 front tail rule hgo hbest ih =>
    rw [convertCustomPending, if_neg hgo]
    split
    · rename_i rule' hbest'
      obtain rfl := Option.some.inj (hbest.symm.trans hbest')
      obtain ⟨hout, hrest⟩ := ih (h.sublist (List.drop_sublist _ _))
      obtain ⟨⟨value, length⟩, hmatch, rfl⟩ := Option.map_eq_some_iff.mp hbest
      have hrule := CustomRomajiTable.ruleOk_of_find? (longestMatch_eq_some hmatch).2.2
      exact ⟨(validUtf8_of_validOutput hrule.2.2.2).append hout, hrest⟩
    · rename_i hbest'
      exact absurd (hbest.symm.trans hbest') (by simp)
  | case4 front tail hgo hbest ih =>
    rw [convertCustomPending, if_neg hgo]
    split
    · rename_i rule' hbest'
      exact absurd (hbest.symm.trans hbest') (by simp)
    · obtain ⟨hout, hrest⟩ := ih (h.sublist (List.sublist_cons_self _ _))
      exact ⟨(ValidUtf8.of_ascii (h front List.mem_cons_self)).append hout, hrest⟩

namespace RomajiKanaConverter

/-! ## The converter -/

/-- **What a converter keeps that is fed ASCII.** -/
structure Steady (c : RomajiKanaConverter) : Prop where
  /-- The pending romaji is ASCII. -/
  ascii : Ascii c.pending
  /-- With the built-in table it is short, or begins a longer key. -/
  short : c.customTable = none → c.pending.length < 3 ∨ isBuiltinRomajiPrefix c.pending = true

/-- With nothing pending a converter is steady. -/
theorem steady_of_nil {c : RomajiKanaConverter} (h : c.pending = []) : c.Steady where
  ascii := by
    rw [h]
    exact fun b hb => absurd hb (by simp)
  short _ := by
    rw [h]
    exact Or.inl (by simp)

/-- A conversion leaves a steady converter and prints a text. -/
theorem steady_convertPending {c : RomajiKanaConverter} (h : Ascii c.pending) (force : Bool) :
    (c.convertPending force).1.Steady ∧ ValidUtf8 (c.convertPending force).2 := by
  unfold convertPending
  cases htable : c.customTable with
  | none =>
    obtain ⟨hout, hascii, hshort⟩ := convertBuiltinPending_ascii force h
    exact ⟨⟨hascii, fun _ => hshort⟩, hout⟩
  | some table =>
    obtain ⟨hout, hascii⟩ := convertCustomPending_ascii table force h
    refine ⟨⟨hascii, fun hnone => ?_⟩, hout⟩
    have hsome : some table = none := hnone
    exact absurd hsome (by simp)

/-- A conversion, with a text printed before it. -/
theorem steady_print {c : RomajiKanaConverter} (h : Ascii c.pending) (force : Bool) (text : String) :
    (c.convertPending force).1.Steady ∧ ValidUtf8 (utf8 text ++ (c.convertPending force).2) :=
  ⟨(steady_convertPending h force).1,
    (validUtf8_utf8 text).append (steady_convertPending h force).2⟩

set_option maxRecDepth 10000 in
/-- **Feeding ASCII keeps a converter steady**, and prints a text. -/
theorem Steady.feed {c : RomajiKanaConverter} (hc : c.Steady) {ascii : UInt8} (h : ascii < 0x80) :
    (c.feed ascii).1.Steady ∧ ValidUtf8 (c.feed ascii).2 := by
  have hkeys : ∀ b : UInt8, b < 0x80 → toLower b < 0x80 := by decide
  have hlower : Ascii [toLower ascii] := fun b hb => by
    rw [List.mem_singleton.mp hb]
    exact hkeys ascii h
  have hpending : Ascii (c.pending ++ [toLower ascii]) := hc.ascii.append hlower
  have hn : Ascii [0x6e] := fun b hb => by
    rw [List.mem_singleton.mp hb]
    decide
  unfold RomajiKanaConverter.feed
  cases htable : c.customTable with
  | some table => exact steady_convertPending hpending false
  | none =>
    show (c.feedBuiltin ascii).1.Steady ∧ ValidUtf8 (c.feedBuiltin ascii).2
    unfold feedBuiltin
    dsimp only
    split_ifs with hdash hquote halpha hnn hkey hconsume hsingle hdouble
    · exact ⟨(steady_convertPending hc.ascii true).1,
        (steady_convertPending hc.ascii true).2.append (validUtf8_utf8 _)⟩
    · exact ⟨steady_of_nil rfl, validUtf8_utf8 _⟩
    · exact ⟨(steady_convertPending hc.ascii true).1,
        (steady_convertPending hc.ascii true).2.append (.of_ascii h)⟩
    · exact steady_print hlower false "ん"
    · exact steady_print (hn.append hlower) false "ん"
    · exact steady_print hlower false "ん"
    · exact steady_print hlower false "ん"
    · exact ⟨hc, validUtf8_utf8 _⟩
    · exact steady_convertPending hpending false

/-- Flushing leaves a steady converter and prints a text. -/
theorem Steady.flush {c : RomajiKanaConverter} (hc : c.Steady) :
    c.flush.1.Steady ∧ ValidUtf8 c.flush.2 :=
  steady_convertPending hc.ascii true

/-- The preview of steady romaji is a text. -/
theorem Steady.validUtf8_previewPending {c : RomajiKanaConverter} (hc : c.Steady) :
    ValidUtf8 c.previewPending := by
  unfold previewPending previewOf
  split_ifs
  · exact validUtf8_utf8 _
  · exact .of_all_ascii (List.all_eq_true.mpr (fun b hb => decide_eq_true (hc.ascii b hb)))

set_option maxRecDepth 10000 in
/-- No key begins with `nn`. -/
theorem not_isBuiltinRomajiPrefix_nn (letter : UInt8) :
    isBuiltinRomajiPrefix [0x6e, 0x6e, letter] = false := by
  have hkeys : ∀ e ∈ romajiMap, e.1.take 2 ≠ [0x6e, 0x6e] := by decide
  by_contra hbegin
  obtain ⟨e, he, hboth⟩ := List.any_eq_true.mp (Bool.eq_true_of_not_eq_false hbegin)
  rw [Bool.and_eq_true, List.isPrefixOf_iff_prefix] at hboth
  obtain ⟨t, ht⟩ := hboth.2
  refine hkeys e he ?_
  rw [← ht]
  rfl

/-- The beginning of the beginning of a key is one. -/
theorem isBuiltinRomajiPrefix_dropLast {pending : Bytes} (h : isBuiltinRomajiPrefix pending = true) :
    isBuiltinRomajiPrefix pending.dropLast = true := by
  obtain ⟨e, he, hboth⟩ := List.any_eq_true.mp h
  rw [Bool.and_eq_true, decide_eq_true_eq, List.isPrefixOf_iff_prefix] at hboth
  obtain ⟨hlength, hbegin⟩ := hboth
  refine List.any_eq_true.mpr ⟨e, he, ?_⟩
  rw [Bool.and_eq_true, decide_eq_true_eq, List.isPrefixOf_iff_prefix, List.length_dropLast]
  exact ⟨by omega, (List.dropLast_prefix pending).trans hbegin⟩

/-- Where a letter less shows something else, one letter is taken. -/
theorem popWhilePreview_dropLast {table : Option CustomRomajiTable} {previous pending : Bytes}
    (h : previewOf table pending.dropLast ≠ previous) :
    popWhilePreview table previous pending = pending.dropLast := by
  rw [popWhilePreview, dif_neg (fun hboth => h hboth.2)]

/-- Taking a letter keeps a converter steady. -/
theorem Steady.dropLast {c : RomajiKanaConverter} (hc : c.Steady) :
    ({ c with pending := c.pending.dropLast } : RomajiKanaConverter).Steady where
  ascii := hc.ascii.sublist (List.dropLast_sublist _)
  short hnone := by
    obtain hshort | hbegin := hc.short hnone
    · refine Or.inl ?_
      rw [List.length_dropLast]
      omega
    · exact Or.inr (isBuiltinRomajiPrefix_dropLast hbegin)

/-- **Popping takes one code point of the preview.** -/
theorem Steady.popPendingPreview {c : RomajiKanaConverter} (hc : c.Steady) (hne : c.pending ≠ []) :
    c.popPendingPreview.Steady
      ∧ codePoints c.popPendingPreview.previewPending + 1 = codePoints c.previewPending := by
  have hone : codePoints (utf8 "ん") = 1 := by decide
  have hlength : c.pending.dropLast.length + 1 = c.pending.length := by
    have hpos := List.length_pos_iff.mpr hne
    rw [List.length_dropLast]
    omega
  have hascii : codePoints c.pending = c.pending.length := codePoints_of_ascii hc.ascii
  have hasciiLast : codePoints c.pending.dropLast = c.pending.dropLast.length :=
    codePoints_of_ascii hc.dropLast.ascii
  unfold RomajiKanaConverter.popPendingPreview
  rw [if_neg hne]
  by_cases hkana : (c.customTable.isNone && (c.pending = utf8 "n" || c.pending = utf8 "nn")) = true
  · -- Both `n` and `nn` are taken at once.
    have hpop : popWhilePreview c.customTable c.previewPending c.pending = [] := by
      have hpreview : c.previewPending = utf8 "ん" := if_pos hkana
      rw [Bool.and_eq_true, Option.isNone_iff_eq_none] at hkana
      obtain ⟨htable, hn⟩ := hkana
      have hsingle : popWhilePreview none (utf8 "ん") (utf8 "n") = [] :=
        popWhilePreview_dropLast (by decide)
      rw [hpreview, htable]
      rcases Bool.or_eq_true_iff.mp hn with hn | hn
      · rw [of_decide_eq_true hn, hsingle]
      · rw [of_decide_eq_true hn, popWhilePreview, dif_pos (by decide)]
        exact hsingle
    rw [hpop]
    refine ⟨steady_of_nil rfl, ?_⟩
    have hnone : ({ c with pending := [] } : RomajiKanaConverter).previewPending = [] :=
      InputState.previewPending_nil rfl
    show codePoints _ + 1 = codePoints (previewOf c.customTable c.pending)
    rw [hnone, codePoints_nil, previewOf, if_pos hkana, hone]
  · have hpreview : c.previewPending = c.pending := if_neg hkana
    -- A letter less never shows what was shown: it is one code point shorter.
    suffices hcount : codePoints (previewOf c.customTable c.pending.dropLast) + 1
        = codePoints c.pending by
      have hpop : popWhilePreview c.customTable c.previewPending c.pending = c.pending.dropLast := by
        refine popWhilePreview_dropLast (fun heq => ?_)
        rw [heq, hpreview] at hcount
        omega
      rw [hpop, hpreview]
      exact ⟨hc.dropLast, hcount⟩
    unfold previewOf
    by_cases hlast : (c.customTable.isNone
        && (c.pending.dropLast = utf8 "n" || c.pending.dropLast = utf8 "nn")) = true
    · rw [if_pos hlast, hone, hascii]
      rw [Bool.and_eq_true, Option.isNone_iff_eq_none] at hlast
      obtain ⟨htable, hn⟩ := hlast
      rcases Bool.or_eq_true_iff.mp hn with hn | hn
      · rw [of_decide_eq_true hn] at hlength
        rw [← hlength]
        rfl
      · -- `nn` and a letter is never pending.
        have hpending : c.pending = [0x6e, 0x6e, c.pending.getLast hne] := by
          have happend := List.dropLast_append_getLast hne
          rw [of_decide_eq_true hn] at happend
          exact happend.symm
        have hlong : c.pending.length = 3 := by
          rw [hpending]
          rfl
        obtain hshort | hbegin := hc.short htable
        · omega
        · rw [hpending, not_isBuiltinRomajiPrefix_nn] at hbegin
          exact absurd hbegin (by simp)
    · rw [if_neg hlast, hasciiLast, hascii]
      exact hlength


/-- **A converter that is used as it is meant to be**: made for a table, and fed
ASCII. Its table changes only while nothing is pending. -/
inductive Fed : RomajiKanaConverter → Prop
  | fresh : Fed {}
  | feed {c : RomajiKanaConverter} {ascii : UInt8} : Fed c → ascii < 0x80 → Fed (c.feed ascii).1
  | flush {c : RomajiKanaConverter} : Fed c → Fed c.flush.1
  | reset {c : RomajiKanaConverter} : Fed c → Fed c.reset
  | popPendingPreview {c : RomajiKanaConverter} : Fed c → Fed c.popPendingPreview
  | setCustomTable {c : RomajiKanaConverter} (table : Option CustomRomajiTable) : Fed c →
      c.pending = [] → Fed { c with customTable := table }

/-- Such a converter is steady. -/
theorem Fed.steady {c : RomajiKanaConverter} (h : c.Fed) : c.Steady := by
  induction h with
  | fresh => exact steady_of_nil rfl
  | feed _ hascii ih => exact (ih.feed hascii).1
  | flush _ ih => exact ih.flush.1
  | reset => exact steady_of_nil rfl
  | @popPendingPreview c _ ih =>
    by_cases hne : c.pending = []
    · rw [RomajiKanaConverter.popPendingPreview, if_pos hne]
      exact ih
    · exact (ih.popPendingPreview hne).1
  | setCustomTable _ _ hnil => exact steady_of_nil hnil

end RomajiKanaConverter

/-- An operation on texts: what is typed is a scalar value, and what is taken
over is well formed. -/
def Op.WellFormed : Op → Prop
  | .call (.event event) => event.codepoint.isValidChar
  | .withComposition kana romaji => ValidUtf8 kana ∧ romaji.Fed
  | .withCorrectedReading kana => ValidUtf8 kana
  | _ => True

namespace InputState

/-! ## The state -/

/-- **The invariant of the reading.** -/
structure Spelled (s : InputState) : Prop where
  /-- The confirmed kana is a text. -/
  kana : ValidUtf8 s.kana
  /-- The converter is steady. -/
  romaji : s.romaji.Steady

namespace Spelled

variable {s : InputState}

theorem resetComposition : s.resetComposition.Spelled := ⟨.nil, RomajiKanaConverter.steady_of_nil rfl⟩

/-- The reading is a text. -/
theorem validUtf8_reading (hs : s.Spelled) : ValidUtf8 s.reading :=
  hs.kana.append hs.romaji.validUtf8_previewPending

/-- Typing a scalar value keeps the invariant. -/
theorem appendInput (hs : s.Spelled) {event : UserActionEvent} (h : event.codepoint.isValidChar) :
    (s.appendInput event).Spelled := by
  unfold InputState.appendInput
  dsimp only
  split_ifs with hzero hfeed
  · exact hs
  · have hlow : event.codepoint ≤ 0x7f := by
      rw [Bool.and_eq_true, Bool.and_eq_true] at hfeed
      exact of_decide_eq_true hfeed.1.2
    have hascii : UInt8.ofNat event.codepoint < 0x80 := by
      rw [UInt8.lt_iff_toNat_lt, UInt8.toNat_ofNat', Nat.mod_eq_of_lt (by omega)]
      exact Nat.lt_succ_of_le hlow
    obtain ⟨hromaji, hout⟩ := hs.romaji.feed hascii
    exact ⟨hs.kana.append hout, hromaji⟩
  · obtain ⟨hromaji, hout⟩ := hs.romaji.flush
    exact ⟨(hs.kana.append hout).append (validUtf8_encodeUtf8 h), hromaji⟩

/-- **Erasing takes one code point of the reading.** -/
theorem eraseLastUnit (hs : s.Spelled) (hne : s.reading ≠ []) :
    s.eraseLastUnit.Spelled
      ∧ codePoints s.eraseLastUnit.reading + 1 = codePoints s.reading := by
  unfold InputState.eraseLastUnit
  by_cases hpending : s.romaji.hasPending = true
  · have hne' : s.romaji.pending ≠ [] := by
      simpa [RomajiKanaConverter.hasPending] using hpending
    obtain ⟨hromaji, hcount⟩ := hs.romaji.popPendingPreview hne'
    rw [if_pos hpending]
    refine ⟨⟨hs.kana, hromaji⟩, ?_⟩
    show codePoints (s.kana ++ _) + 1 = codePoints (s.kana ++ _)
    rw [codePoints_append, codePoints_append, Nat.add_assoc, hcount]
  · have hnil : s.romaji.previewPending = [] :=
      InputState.previewPending_nil (by
        simpa [RomajiKanaConverter.hasPending] using hpending)
    have hkana : s.kana ≠ [] := by
      rintro hkana
      refine hne ?_
      unfold InputState.reading
      rw [hkana, hnil]
      rfl
    have herase : ((s.kana.reverse.dropWhile isContinuation).drop 1).reverse = eraseLast s.kana := by
      have hsame : isContinuation = isTrailing := funext (fun c => Core.isContinuation_eq c)
      rw [hsame]
      rfl
    obtain ⟨hvalid, hcount⟩ := hs.kana.codePoints_eraseLast hkana
    rw [if_neg hpending, herase]
    refine ⟨⟨hvalid, hs.romaji⟩, ?_⟩
    show codePoints (eraseLast s.kana ++ s.romaji.previewPending) + 1
      = codePoints (s.kana ++ s.romaji.previewPending)
    rw [hnil, List.append_nil, List.append_nil]
    exact hcount

/-- A changed reading, or none, keeps the invariant. -/
theorem afterReadingChanged (hs : s.Spelled) : s.afterReadingChanged.next.Spelled := by
  unfold InputState.afterReadingChanged
  dsimp only
  split_ifs
  · exact resetComposition
  · exact ⟨hs.kana, hs.romaji⟩

/-- Starting a conversion keeps the invariant. -/
theorem startConversion (hs : s.Spelled) : s.startConversion.next.Spelled := by
  obtain ⟨hromaji, hout⟩ := hs.romaji.flush
  unfold InputState.startConversion
  dsimp only
  split
  · exact ⟨hs.kana.append hout, hromaji⟩
  · exact ⟨hs.kana.append hout, hromaji⟩

/-- So does a commit. -/
theorem commitCandidate {index punctuation : ℕ} {r : HandleResult}
    (h : s.commitCandidate index punctuation = some r) : r.next.Spelled := by
  unfold InputState.commitCandidate at h
  split at h
  · exact absurd h (by simp)
  · obtain rfl := Option.some.inj h
    exact resetComposition

/-- So does the answer in Idle. -/
theorem handleIdle (hs : s.Spelled) {event : UserActionEvent} (h : event.codepoint.isValidChar) :
    (s.handleIdle event).next.Spelled := by
  unfold InputState.handleIdle
  dsimp only
  split
  · split_ifs
    · exact hs
    · exact afterReadingChanged ⟨(hs.appendInput h).kana, (hs.appendInput h).romaji⟩
  · split_ifs
    · exact hs
    · exact afterReadingChanged ⟨(hs.appendInput h).kana, (hs.appendInput h).romaji⟩
  · exact ⟨hs.kana, hs.romaji⟩
  · exact ⟨hs.kana, hs.romaji⟩
  · exact ⟨hs.kana, hs.romaji⟩
  · exact hs

/-- A key typed in Idle after another answer keeps it. -/
theorem thenIdle {r : HandleResult} (hr : r.next.Spelled) {event : UserActionEvent}
    (h : event.codepoint.isValidChar) : (thenIdle r event).next.Spelled :=
  hr.handleIdle h

/-- Erasing keeps it, also where there is nothing to erase. -/
theorem eraseLastUnit_any (hs : s.Spelled) : s.eraseLastUnit.Spelled := by
  by_cases hne : s.reading = []
  · have hboth := List.append_eq_nil_iff.mp hne
    have hpending : s.romaji.hasPending = false := by
      by_contra hpending
      have hsome : s.romaji.pending ≠ [] := by
        simpa [RomajiKanaConverter.hasPending] using hpending
      have hcount := (hs.romaji.popPendingPreview hsome).2
      rw [hboth.2] at hcount
      exact absurd hcount (by simp)
    unfold InputState.eraseLastUnit
    rw [if_neg (by simp [hpending])]
    refine ⟨?_, hs.romaji⟩
    rw [hboth.1]
    exact .nil
  · exact (hs.eraseLastUnit hne).1

/-- So does the answer in Composing and Previewing. -/
theorem handleComposing (hs : s.Spelled) {event : UserActionEvent}
    (h : event.codepoint.isValidChar) {r : HandleResult} (hr : s.handleComposing event = some r) :
    r.next.Spelled := by
  have htyped : ∀ {r : HandleResult},
      (if (s.punctuationConversionReading event).any s.cachedFirst then
        s.commitCandidate 0 event.codepoint
      else some (if (s.appendInput event).liveConversion
        then { s.appendInput event with kind := .previewing }
        else s.appendInput event).afterReadingChanged) = some r → r.next.Spelled := by
    intro r hr
    split_ifs at hr with hcached hlive
    · exact commitCandidate hr
    · obtain rfl := Option.some.inj hr
      exact afterReadingChanged ⟨(hs.appendInput h).kana, (hs.appendInput h).romaji⟩
    · obtain rfl := Option.some.inj hr
      exact afterReadingChanged (hs.appendInput h)
  unfold InputState.handleComposing at hr
  dsimp only at hr
  split at hr
  · exact htyped hr
  · exact htyped hr
  · obtain rfl := Option.some.inj hr
    exact afterReadingChanged hs.eraseLastUnit_any
  · obtain rfl := Option.some.inj hr
    exact hs.startConversion
  · obtain rfl := Option.some.inj hr
    exact hs.startConversion
  · obtain rfl := Option.some.inj hr
    exact hs.startConversion
  · obtain rfl := Option.some.inj hr
    exact resetComposition
  · obtain rfl := Option.some.inj hr
    exact resetComposition
  · obtain rfl := Option.some.inj hr
    exact ⟨.nil, RomajiKanaConverter.steady_of_nil rfl⟩
  · obtain rfl := Option.some.inj hr
    exact hs

/-- Moving the selection changes no reading. -/
theorem moveSelection (hs : s.Spelled) {index : ℕ} {r : HandleResult}
    (hr : s.moveSelection index = some r) : r.next.Spelled := by
  unfold InputState.moveSelection at hr
  split at hr
  · exact absurd hr (by simp)
  · split at hr
    · exact absurd hr (by simp)
    · obtain rfl := Option.some.inj hr
      exact ⟨hs.kana, hs.romaji⟩

/-- So does the answer in Selecting. -/
theorem handleSelecting (hs : s.Spelled) {event : UserActionEvent}
    (h : event.codepoint.isValidChar) {r : HandleResult} (hr : s.handleSelecting event = some r) :
    r.next.Spelled := by
  have htyped : ∀ {r : HandleResult},
      (if (s.punctuationConversionReading event).isSome then
        s.commitCandidate s.selectedIndex event.codepoint
      else (s.commitCandidate s.selectedIndex 0).map (InputState.thenIdle · event)) = some r →
      r.next.Spelled := by
    intro r hr
    split_ifs at hr
    · exact commitCandidate hr
    · obtain ⟨r', hr', rfl⟩ := Option.map_eq_some_iff.mp hr
      exact thenIdle (commitCandidate hr') h
  unfold InputState.handleSelecting at hr
  dsimp only at hr
  split at hr
  · exact htyped hr
  · exact htyped hr
  · obtain rfl := Option.some.inj hr
    have hkind : ({ s with kind := s.readingKind, selectedIndex := 0 } : InputState).Spelled :=
      ⟨hs.kana, hs.romaji⟩
    exact afterReadingChanged hkind.eraseLastUnit_any
  · exact hs.moveSelection hr
  · exact hs.moveSelection hr
  · exact hs.moveSelection hr
  · exact hs.moveSelection hr
  · exact hs.moveSelection hr
  · split_ifs at hr
    · exact commitCandidate hr
    · obtain rfl := Option.some.inj hr
      exact hs
  · exact commitCandidate hr
  · obtain rfl := Option.some.inj hr
    exact resetComposition
  · obtain ⟨r', hr', rfl⟩ := Option.map_eq_some_iff.mp hr
    have hnext := commitCandidate hr'
    exact ⟨hnext.kana, hnext.romaji⟩
  · obtain rfl := Option.some.inj hr
    exact hs

/-- So does the end of Unicode input. -/
theorem finish (hs : s.Spelled) (beepOnInvalid : Bool) : (s.finish beepOnInvalid).2.next.Spelled := by
  unfold InputState.finish
  split
  · exact resetComposition
  · split
    · exact hs
    · exact resetComposition

/-- So does the answer in Unicode input. -/
theorem handleUnicodeInput (hs : s.Spelled) {event : UserActionEvent}
    (h : event.codepoint.isValidChar) : (s.handleUnicodeInput event).next.Spelled := by
  have hhex : (s.handleHexInput event).next.Spelled := by
    unfold InputState.handleHexInput
    dsimp only
    split
    · split_ifs
      · exact hs
      · exact ⟨hs.kana, hs.romaji⟩
    · split_ifs
      · exact thenIdle (hs.finish false) h
      · exact thenIdle resetComposition h
  unfold InputState.handleUnicodeInput
  split
  · exact hhex
  · exact hhex
  · split_ifs
    · exact resetComposition
    · exact ⟨hs.kana, hs.romaji⟩
  · exact hs.finish true
  · exact resetComposition
  · exact hs

/-- So does the answer of the prompt. -/
theorem handleReplaceSuggestion (hs : s.Spelled) (event : UserActionEvent) :
    (s.handleReplaceSuggestion event).next.Spelled := by
  unfold InputState.handleReplaceSuggestion
  split
  · exact resetComposition
  · exact resetComposition
  · exact hs

/-- **Every event keeps the invariant.** -/
theorem handleEvent (hs : s.Spelled) {event : UserActionEvent}
    (h : event.codepoint.isValidChar) {r : HandleResult} (hr : s.handleEvent event = some r) :
    r.next.Spelled := by
  unfold InputState.handleEvent at hr
  split at hr
  · obtain rfl := Option.some.inj hr
    exact hs
  · obtain rfl := Option.some.inj hr
    exact hs
  · obtain rfl := Option.some.inj hr
    exact hs
  · obtain rfl := Option.some.inj hr
    exact hs
  · split at hr
    · obtain rfl := Option.some.inj hr
      exact hs.handleIdle h
    · exact hs.handleComposing h hr
    · exact hs.handleComposing h hr
    · exact hs.handleSelecting h hr
    · obtain rfl := Option.some.inj hr
      exact hs.handleReplaceSuggestion event
    · obtain rfl := Option.some.inj hr
      exact hs.handleUnicodeInput h

/-- Candidates change no reading. -/
theorem handleCandidatesArrived (hs : s.Spelled) {candidates : List Candidate} {r : HandleResult}
    (hr : s.handleCandidatesArrived candidates = some r) : r.next.Spelled := by
  unfold InputState.handleCandidatesArrived at hr
  dsimp only at hr
  split_ifs at hr
  · obtain rfl := Option.some.inj hr
    exact ⟨hs.kana, hs.romaji⟩
  · unfold InputState.openCandidates at hr
    split at hr
    · exact absurd hr (by simp)
    · obtain rfl := Option.some.inj hr
      exact ⟨hs.kana, hs.romaji⟩
  · obtain rfl := Option.some.inj hr
    exact ⟨hs.kana, hs.romaji⟩
  · obtain rfl := Option.some.inj hr
    exact hs

/-- **Every operation on texts keeps the invariant.** -/
theorem apply (hs : s.Spelled) {op : Op} (h : op.WellFormed) {r : HandleResult}
    (hr : s.apply op = some r) : r.next.Spelled := by
  cases op with
  | call c =>
    cases c with
    | event event => exact hs.handleEvent h hr
    | arrived candidates => exact hs.handleCandidatesArrived hr
  | withComposition kana romaji =>
    obtain rfl := Option.some.inj hr
    exact ⟨h.1, h.2.steady⟩
  | withCorrectedReading kana =>
    obtain rfl := Option.some.inj hr
    show (s.withCorrectedReading kana).Spelled
    unfold InputState.withCorrectedReading
    split_ifs
    · exact hs
    · exact ⟨h, RomajiKanaConverter.steady_of_nil rfl⟩
  | withLiveConversion enabled =>
    obtain rfl := Option.some.inj hr
    exact ⟨hs.kana, hs.romaji⟩
  | withPunctuationConversion enabled =>
    obtain rfl := Option.some.inj hr
    exact ⟨hs.kana, hs.romaji⟩
  | reset =>
    obtain rfl := Option.some.inj hr
    exact resetComposition

end Spelled

/-! ## Backspace -/

/-- After a changed reading the state is Idle when nothing is left of it, and
shows it otherwise. -/
theorem afterReadingChanged_reading (s : InputState) :
    s.afterReadingChanged.next.reading = s.reading
      ∧ (s.reading = [] → s.afterReadingChanged.next.kind = .idle)
      ∧ (s.reading ≠ [] → s.afterReadingChanged.next.kind = s.kind) := by
  have hreading : ({ s with candidates := [], awaitingCandidates := false } : InputState).reading
      = s.reading := rfl
  unfold afterReadingChanged
  dsimp only
  rw [hreading]
  by_cases hnil : s.reading = []
  · rw [if_pos (by simp [hnil]), hnil]
    refine ⟨?_, fun _ => rfl, fun hne => absurd rfl hne⟩
    exact InputState.previewPending_nil rfl
  · rw [if_neg (by simpa [List.isEmpty_iff] using hnil)]
    exact ⟨rfl, fun heq => absurd heq hnil, fun _ => rfl⟩

/-- The kinds in which Backspace edits the reading. -/
def Editing (s : InputState) : Prop := s.Active ∨ s.kind = .selecting

/-- What Backspace does while a reading is edited: it erases a unit, in a state
that shows the reading. -/
theorem handleEvent_backspace {s : InputState} (hk : s.Editing) {event : UserActionEvent}
    (hevent : event.action = .backspace) : ∃ (r : HandleResult) (s' : InputState),
      s.handleEvent event = some r
      ∧ r.next = s'.eraseLastUnit.afterReadingChanged.next
      ∧ s'.kana = s.kana ∧ s'.romaji = s.romaji ∧ s'.Active := by
  have hkind : ({ s with kind := s.readingKind, selectedIndex := 0 } : InputState).Active :=
    s.readingKind_cases
  unfold handleEvent handleComposing handleSelecting
  obtain (hk | hk) | hk := hk
  all_goals simp only [hevent, hk]
  · exact ⟨_, s, rfl, rfl, rfl, rfl, Or.inl hk⟩
  · exact ⟨_, s, rfl, rfl, rfl, rfl, Or.inr hk⟩
  · exact ⟨_, _, rfl, rfl, rfl, rfl, hkind⟩

/-- **One Backspace** takes one code point of the reading, and leaves a state
that shows the rest, or Idle. -/
theorem Spelled.backspace {s : InputState} (hs : s.Spelled) (hk : s.Editing) (hne : s.reading ≠ [])
    {event : UserActionEvent} (hevent : event.action = .backspace) :
    ∃ r, s.handleEvent event = some r ∧ r.next.Spelled
      ∧ codePoints r.next.reading + 1 = codePoints s.reading
      ∧ (r.next.reading = [] → r.next.kind = .idle)
      ∧ (r.next.reading ≠ [] → r.next.Active) := by
  obtain ⟨r, s', hr, hnext, hkana, hromaji, hactive⟩ := handleEvent_backspace hk hevent
  have hsame : s'.reading = s.reading := by
    unfold reading
    rw [hkana, hromaji]
  have hs' : s'.Spelled := ⟨hkana ▸ hs.kana, hromaji ▸ hs.romaji⟩
  obtain ⟨herased, hcount⟩ := hs'.eraseLastUnit (hsame ▸ hne)
  obtain ⟨hreading, hidle, hshown⟩ := s'.eraseLastUnit.afterReadingChanged_reading
  refine ⟨r, hr, ?_, ?_, ?_, ?_⟩
  · rw [hnext]
    exact herased.afterReadingChanged
  · rw [hnext, hreading, hcount, hsame]
  · rw [hnext, hreading]
    exact hidle
  · rw [hnext, hreading]
    intro hleft
    have hkind : s'.eraseLastUnit.afterReadingChanged.next.kind = s'.kind := by
      obtain ⟨kana, romaji, herase⟩ := s'.eraseLastUnit_eq
      rw [hshown hleft, herase]
    unfold Active
    rw [hkind]
    exact hactive

/-- **As many Backspaces as code points** end in Idle. -/
theorem Spelled.backspaces {s : InputState} (hs : s.Spelled) (hk : s.Editing)
    (hne : s.reading ≠ []) {events : List UserActionEvent}
    (hevents : ∀ event ∈ events, event.action = .backspace)
    (hlength : events.length = codePoints s.reading) :
    ∃ s', events.foldlM (fun s event => (s.handleEvent event).map HandleResult.next) s = some s'
      ∧ s'.kind = .idle := by
  induction events generalizing s with
  | nil =>
    have hzero := hs.validUtf8_reading.codePoints_eq_zero.mp hlength.symm
    exact absurd hzero hne
  | cons event events ih =>
    obtain ⟨r, hr, hspelled, hcount, hidle, hshown⟩ :=
      hs.backspace hk hne (hevents event List.mem_cons_self)
    rw [List.foldlM_cons, hr]
    show ∃ s', events.foldlM _ r.next = some s' ∧ s'.kind = .idle
    rw [List.length_cons] at hlength
    by_cases hleft : r.next.reading = []
    · have hzero : events = [] := by
        rw [hleft] at hcount
        exact List.length_eq_zero_iff.mp (by simp only [codePoints_nil] at hcount; omega)
      rw [hzero]
      exact ⟨r.next, rfl, hidle hleft⟩
    · exact ih hspelled (Or.inl (hshown hleft)) hleft
        (fun e he => hevents e (List.mem_cons_of_mem _ he)) (by omega)

/-- Runs of operations on texts keep both invariants. -/
theorem spelled_run {s : InputState} (hs : s.Spelled) (hinv : s.Inv) {ops : List Op}
    (hops : ∀ op ∈ ops, op.WellFormed) :
    ∃ s', ops.foldlM applyState s = some s' ∧ s'.Spelled := by
  induction ops generalizing s with
  | nil => exact ⟨s, rfl, hs⟩
  | cons op ops ih =>
    obtain ⟨r, hr, hnext⟩ := apply_inv hinv op
    obtain ⟨s', hrun, hs'⟩ := ih (hs.apply (hops op List.mem_cons_self) hr) hnext
      (fun op hop => hops op (List.mem_cons_of_mem _ hop))
    refine ⟨s', ?_, hs'⟩
    rw [List.foldlM_cons, applyState, hr]
    exact hrun

/-- **Backspace takes one code point.** In every state that operations on texts
reach, while a reading is edited: one Backspace leaves a well-formed reading with
one code point fewer, in Idle exactly when none is left; and as many Backspaces
as there are code points end in Idle. -/
theorem backspace_erases (ops : List Op) (hops : ∀ op ∈ ops, op.WellFormed) :
    ∃ s, ops.foldlM applyState ({} : InputState) = some s
      ∧ (s.kind = .composing ∨ s.kind = .previewing ∨ s.kind = .selecting → s.reading ≠ [] →
        (∀ event : UserActionEvent, event.action = .backspace →
          ∃ r, s.handleEvent event = some r ∧ ValidUtf8 r.next.reading
            ∧ codePoints r.next.reading + 1 = codePoints s.reading
            ∧ (r.next.kind = .idle ↔ codePoints r.next.reading = 0))
        ∧ ∀ events : List UserActionEvent, (∀ event ∈ events, event.action = .backspace) →
          events.length = codePoints s.reading →
          ∃ s', events.foldlM (fun s event => (s.handleEvent event).map HandleResult.next) s
              = some s' ∧ s'.kind = .idle) := by
  have hinit : ({} : InputState).Spelled := ⟨.nil, RomajiKanaConverter.steady_of_nil rfl⟩
  obtain ⟨s, hrun, hs⟩ := spelled_run hinit inv_init hops
  refine ⟨s, hrun, fun hk hne => ?_⟩
  have hk : s.Editing := by
    rcases hk with hk | hk | hk
    · exact Or.inl (Or.inl hk)
    · exact Or.inl (Or.inr hk)
    · exact Or.inr hk
  refine ⟨fun event hevent => ?_, fun events hevents hlength => hs.backspaces hk hne hevents hlength⟩
  obtain ⟨r, hr, hspelled, hcount, hidle, hshown⟩ := hs.backspace hk hne hevent
  refine ⟨r, hr, hspelled.validUtf8_reading, hcount, ?_⟩
  rw [hspelled.validUtf8_reading.codePoints_eq_zero]
  refine ⟨fun hkind => ?_, hidle⟩
  by_contra hleft
  exact (hshown hleft).ne.2.2 hkind

/-- Typing `kan` with the table of `n` and `ん`, and without a table, are such
runs; of かん, one Backspace leaves か. -/
theorem backspace_erases_kan :
    ∃ s, [Op.call (.event { codepoint := 0x6b }), .call (.event { codepoint := 0x61 }),
        .call (.event { codepoint := 0x6e })].foldlM applyState ({} : InputState) = some s
      ∧ (s.kind = .composing ∨ s.kind = .previewing ∨ s.kind = .selecting → s.reading ≠ [] →
        (∀ event : UserActionEvent, event.action = .backspace →
          ∃ r, s.handleEvent event = some r ∧ ValidUtf8 r.next.reading
            ∧ codePoints r.next.reading + 1 = codePoints s.reading
            ∧ (r.next.kind = .idle ↔ codePoints r.next.reading = 0))
        ∧ ∀ events : List UserActionEvent, (∀ event ∈ events, event.action = .backspace) →
          events.length = codePoints s.reading →
          ∃ s', events.foldlM (fun s event => (s.handleEvent event).map HandleResult.next) s
              = some s' ∧ s'.kind = .idle) :=
  backspace_erases _ (by
    intro op hop
    simp only [List.mem_cons, List.not_mem_nil, or_false] at hop
    obtain rfl | rfl | rfl := hop
    · exact (by decide : Nat.isValidChar 0x6b)
    · exact (by decide : Nat.isValidChar 0x61)
    · exact (by decide : Nat.isValidChar 0x6e))

end InputState

end AzooKey.Core

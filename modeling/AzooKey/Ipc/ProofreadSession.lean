import AzooKey.Core.Utf8Readers
import AzooKey.Ipc.JsonReprint
import AzooKey.Ipc.PayloadCodecs
import AzooKey.Lib.LittleEndian

/-!
# The session of the correction view

`ipc/src/ProofreadSession.cpp`: the settings application asks the document's side to select a
range, with suggestions that come from a model. What is refused is left out on both sides, so
a request says after the transport what was valid of it before (`parse_buildSelectRequest`), and
it fits into a frame: what is valid has no control characters, and the other ones are escaped
with one octet more at most (`length_escapeString_le`).
-/

namespace AzooKey.Ipc.Proofread

open AzooKey.Core (nextCodePoint isScalar_of_nextCodePoint nextCodePoint_append)
open AzooKey.Core.Dictionary (scalarValue)
open AzooKey.Ipc.Json

/-- `kMaxRequestFrameBytes`. -/
def maxRequestFrameBytes : UInt32 := 4 * 1024

/-- `kMaxSelectSuggestions`. -/
def maxSelectSuggestions : ℕ := 5

/-- `kMaxSelectSuggestionBytes`. -/
def maxSelectSuggestionBytes : ℕ := 256

/-- `IsRefusedSuggestionCodePoint`. -/
def isRefusedSuggestionCodePoint (code : ℕ) : Bool :=
  code < 0x20 || (0x7f ≤ code && code ≤ 0x9f) || code = 0x061c || code = 0x200b || code = 0x200e
    || code = 0x200f || code = 0x2028 || code = 0x2029 || (0x202a ≤ code && code ≤ 0x202e)
    || (0x2060 ≤ code && code ≤ 0x2064) || (0x2066 ≤ code && code ≤ 0x2069) || code = 0xfeff
    || (0xfff9 ≤ code && code ≤ 0xfffb) || (0xe0000 ≤ code && code ≤ 0xe007f)

/-- What `NextCodePoint` leaves is shorter. -/
theorem nextCodePoint_rest_lt {text rest : Bytes} {code : ℕ}
    (h : nextCodePoint text = some (code, rest)) : rest.length < text.length := by
  obtain ⟨scalar, hscalar, rfl⟩ := isScalar_of_nextCodePoint h
  rw [List.length_append]
  exact Nat.lt_add_of_pos_left (List.length_pos_iff.mpr (ne_nil_of_isScalar hscalar))

/-- The loop of `IsValidSelectSuggestion`. -/
def hasNoRefused (text : Bytes) : Bool :=
  if text = [] then true
  else
    match _h : nextCodePoint text with
    | none => false
    | some (code, rest) => !isRefusedSuggestionCodePoint code && hasNoRefused rest
termination_by text.length
decreasing_by exact nextCodePoint_rest_lt _h

/-- **`IsValidSelectSuggestion`.** -/
def isValidSelectSuggestion (text : Bytes) : Bool :=
  !text.isEmpty && text.length ≤ maxSelectSuggestionBytes && hasNoRefused text

/-- `ValidSuggestions`. -/
def validSuggestions (suggestions : List Bytes) : List Bytes :=
  (suggestions.filter isValidSelectSuggestion).take maxSelectSuggestions

/-- `SelectRequest`. -/
structure SelectRequest where
  start : UInt64
  length : UInt64
  reconvert : Bool
  suggestions : List Bytes

/-- The members of a request to select. -/
def selectRequestFields (r : SelectRequest) : List (Bytes × Option Value) :=
  [(utf8 "kind", some (.string (utf8 "select"))),
    (utf8 "start", some (.ofUInt64 r.start)),
    (utf8 "length", some (.ofUInt64 r.length)),
    (utf8 "reconvert", some (.bool r.reconvert)),
    (utf8 "suggestions", unlessNone ((validSuggestions r.suggestions).map .string))]

/-- **`BuildSelectRequest`.** -/
def buildSelectRequest (r : SelectRequest) : Bytes := stringify (record (selectRequestFields r))

/-- `ParseKind`. -/
def parseKind (json kind : Bytes) : Option Value :=
  (parseObject json).filter (fun v => v.getString (utf8 "kind") = some kind)

/-- An element of the suggestions, where it is valid. -/
def suggestionFromJson : Value → Option Bytes
  | .string text => if isValidSelectSuggestion text then some text else none
  | _ => none

/-- The members of a request, of which the suggestions that are not valid are passed over. -/
def selectRequestFromJson (v : Value) : Option SelectRequest := do
  let start ← v.getUInt (utf8 "start")
  let length ← v.getUInt (utf8 "length")
  some {
    start := UInt64.ofNat start
    length := UInt64.ofNat length
    reconvert := (v.getBool (utf8 "reconvert")).getD false
    suggestions := (((v.getArray (utf8 "suggestions")).getD []).filterMap suggestionFromJson).take
      maxSelectSuggestions }

/-- **`ParseSelectRequest`.** -/
def parseSelectRequest (json : Bytes) : Option SelectRequest :=
  (parseKind json (utf8 "select")).bind selectRequestFromJson

/-- `EncodeFrame`. -/
def encodeFrame (json : Bytes) (maxBytes : UInt32) : Option Bytes :=
  if json = [] ∨ maxBytes.toNat < json.length then none
  else some (LittleEndian.encode 4 json.length ++ json)

/-- `DecodeFrameLength`, of a header of four octets. -/
def decodeFrameLength (header : Bytes) (maxBytes : UInt32) : Option ℕ :=
  let size := LittleEndian.decode header
  if size = 0 ∨ maxBytes.toNat < size then none else some size

/-! ## Suggestions -/

/-- A text that begins with a code point. -/
theorem hasNoRefused_scalar {scalar : Bytes} (h : isScalar scalar = true) (rest : Bytes) :
    hasNoRefused (scalar ++ rest)
      = (!isRefusedSuggestionCodePoint (scalarValue scalar) && hasNoRefused rest) := by
  have hne : scalar ++ rest ≠ [] := by
    intro hnil
    exact ne_nil_of_isScalar h (List.append_eq_nil_iff.mp hnil).1
  have hread := nextCodePoint_append h rest
  rw [hasNoRefused, if_neg hne]
  split
  · next hnone =>
    rw [hread] at hnone
    cases hnone
  · next code rest' hsome =>
    rw [hread] at hsome
    obtain ⟨rfl, rfl⟩ := Prod.mk.inj (Option.some.inj hsome)
    rfl

/-- **What the loop lets through** is a text without the refused code points. -/
theorem hasNoRefused_iff {text : Bytes} : hasNoRefused text = true ↔ ValidUtf8 text
    ∧ ∀ front scalar back, text = front ++ (scalar ++ back) → ValidUtf8 front → isScalar scalar = true →
      isRefusedSuggestionCodePoint (scalarValue scalar) = false := by
  constructor
  · intro h
    induction hlength : text.length using Nat.strong_induction_on generalizing text with
    | _ n ih =>
      by_cases hnil : text = []
      · subst hnil
        refine ⟨.nil, fun front scalar back heq _ hscalar => ?_⟩
        have hempty := (List.append_eq_nil_iff.mp (List.append_eq_nil_iff.mp heq.symm).2).1
        exact absurd hempty (ne_nil_of_isScalar hscalar)
      cases hread : nextCodePoint text with
      | none =>
        rw [hasNoRefused, if_neg hnil] at h
        split at h
        · cases h
        · next hsome =>
          rw [hread] at hsome
          cases hsome
      | some read =>
        obtain ⟨first, hfirst, rfl⟩ := @isScalar_of_nextCodePoint _ read.2 read.1 hread
        rw [hasNoRefused_scalar hfirst, Bool.and_eq_true, Bool.not_eq_true'] at h
        have hshort : read.2.length < n := hlength ▸ @nextCodePoint_rest_lt _ read.2 read.1 hread
        obtain ⟨hrest, hall⟩ := ih _ hshort h.2 rfl
        refine ⟨.cons hfirst hrest, fun front scalar back heq hfront hscalar => ?_⟩
        -- the scalar is the first, or in the rest
        cases hfront with
        | nil =>
          obtain ⟨rfl, -⟩ := isScalar_unique hfirst hscalar heq
          exact h.1
        | @cons first' front hfirst' hfront =>
          rw [List.append_assoc] at heq
          obtain ⟨rfl, hback⟩ := isScalar_unique hfirst hfirst' heq
          exact hall front scalar back hback hfront hscalar
  · rintro ⟨hvalid, hall⟩
    induction hvalid with
    | nil => rw [hasNoRefused, if_pos rfl]
    | @cons scalar rest hscalar _ ih =>
      rw [hasNoRefused_scalar hscalar, hall [] scalar rest rfl .nil hscalar]
      refine ih fun front other back heq hfront hother => ?_
      exact hall (scalar ++ front) other back (by rw [heq, List.append_assoc]) (.cons hscalar hfront)
        hother

/-- **A valid suggestion** is a text within the limit that says something, without the refused code
points. -/
theorem isValidSelectSuggestion_iff {text : Bytes} : isValidSelectSuggestion text = true ↔ text ≠ []
    ∧ text.length ≤ maxSelectSuggestionBytes ∧ ValidUtf8 text
    ∧ ∀ front scalar back, text = front ++ (scalar ++ back) → ValidUtf8 front → isScalar scalar = true →
      isRefusedSuggestionCodePoint (scalarValue scalar) = false := by
  unfold isValidSelectSuggestion
  rw [Bool.and_eq_true, Bool.and_eq_true, hasNoRefused_iff, Bool.not_eq_true', List.isEmpty_eq_false_iff,
    decide_eq_true_eq, and_assoc]

/-- An octet of a text without the refused code points is no control character. -/
theorem le_of_hasNoRefused {text : Bytes} (h : hasNoRefused text = true) : ∀ c ∈ text, 0x20 ≤ c := by
  have hvalid := (hasNoRefused_iff.mp h).1
  induction hvalid with
  | nil => exact fun c hc => absurd hc List.not_mem_nil
  | @cons scalar rest hscalar _ ih =>
    rw [hasNoRefused_scalar hscalar, Bool.and_eq_true, Bool.not_eq_true'] at h
    intro c hc
    rcases List.mem_append.mp hc with hfirst | hrest
    · obtain ⟨lead, tail, rfl⟩ := List.exists_cons_of_ne_nil (ne_nil_of_isScalar hscalar)
      by_cases hlow : lead < 0x80
      · have halone : tail = [] := by
          have hlength := length_of_isScalar hscalar
          rw [scalarLength, if_pos hlow, List.length_cons] at hlength
          exact List.length_eq_zero_iff.mp (by omega)
        subst halone
        obtain rfl := List.mem_singleton.mp hfirst
        have hkeys : ∀ c : UInt8, c < 0x80 →
            isRefusedSuggestionCodePoint (scalarValue [c]) = false → 0x20 ≤ c := by decide +kernel
        exact hkeys c hlow h.1
      · have hhigh : ∀ c : UInt8, 0x80 ≤ c → 0x20 ≤ c := fun c hc => le_trans (by decide) hc
        rcases List.mem_cons.mp hfirst with rfl | htail
        · exact hhigh _ (not_lt.mp hlow)
        · exact hhigh c (le_of_isScalar hscalar c htail)
    · exact ih h.2 c hrest

/-- **Escaping a valid suggestion** takes at most twice its place. -/
theorem length_escapeString_le {text : Bytes} (h : isValidSelectSuggestion text = true) :
    (escapeString text).length ≤ 2 * maxSelectSuggestionBytes := by
  have hcontrol : ∀ c ∈ text, (escapeByte c).length ≤ 2 := by
    have hall : ∀ c : UInt8, 0x20 ≤ c → (escapeByte c).length ≤ 2 := by decide +kernel
    have hloop : hasNoRefused text = true := (Bool.and_eq_true _ _ ▸ h).2
    exact fun c hc => hall c (le_of_hasNoRefused hloop c hc)
  have hdouble : (escapeString text).length ≤ 2 * text.length := by
    unfold escapeString
    rw [List.length_flatMap]
    have hsum := List.sum_le_card_nsmul (text.map fun c => (escapeByte c).length) 2 (by
      intro n hn
      obtain ⟨c, hc, rfl⟩ := List.mem_map.mp hn
      exact hcontrol c hc)
    rw [List.length_map, smul_eq_mul, Nat.mul_comm] at hsum
    exact hsum
  exact hdouble.trans (Nat.mul_le_mul_left 2 (isValidSelectSuggestion_iff.mp h).2.1)

/-- What is sent is valid, and little. -/
theorem validSuggestions_spec (suggestions : List Bytes) :
    (validSuggestions suggestions).length ≤ maxSelectSuggestions
      ∧ ∀ text ∈ validSuggestions suggestions, isValidSelectSuggestion text = true :=
  ⟨List.length_take_le _ _, fun _ h => (List.mem_filter.mp (List.mem_of_mem_take h)).2⟩

/-! ## The size of a request -/

/-- The place that a member takes, with a comma. -/
def memberSize (field : Bytes × Option Value) : ℕ :=
  (field.2.map (fun v => (stringifyMember (field.1, v)).length + 1)).getD 0

/-- **A record takes no more place than its members.** -/
theorem length_stringify_record_le (fields : List (Bytes × Option Value)) :
    (stringify (record fields)).length ≤ 2 + (fields.map memberSize).sum := by
  have hfold : ∀ (fields : List (Bytes × Option Value)) (object : List (Bytes × Value)),
      spread ((fields.foldl emplaceField object).map stringifyMember)
        ≤ spread (object.map stringifyMember) + (fields.map memberSize).sum := by
    intro fields
    induction fields with
    | nil => exact fun object => Nat.le_add_right _ _
    | cons field fields ih =>
      intro object
      have hone : spread ((emplaceField object field).map stringifyMember)
          ≤ spread (object.map stringifyMember) + memberSize field := by
        obtain ⟨key, value⟩ := field
        cases value with
        | none => exact Nat.le_add_right _ _
        | some v => exact spread_emplace_le stringifyMember key v object
      rw [List.foldl_cons, List.map_cons, List.sum_cons]
      exact (ih _).trans (by omega)
  have hspread := hfold fields []
  rw [List.map_nil] at hspread
  have hzero : spread [] = 0 := rfl
  unfold record
  rw [stringify, stringifyMembers_eq, List.length_cons, List.length_append, length_joinCommas,
    List.length_singleton]
  omega

/-- The place of a member. -/
theorem memberSize_some (key : Bytes) (v : Value) :
    memberSize (key, some v) = (escapeString key).length + (stringify v).length + 4 := by
  show (0x22 :: (escapeString key ++ 0x22 :: 0x3a :: stringify v)).length + 1 = _
  simp only [List.length_cons, List.length_append]
  omega

/-- An integer of 64 bits has at most twenty digits. -/
theorem length_stringify_ofUInt64 (n : UInt64) : (stringify (.ofUInt64 n)).length ≤ 20 := by
  have hdigits : formatInteger n.toNat = decimalDigits n.toNat := if_neg (by omega)
  have hlog : Nat.log 10 n.toNat < 20 :=
    Nat.log_lt_of_lt_pow' (by norm_num) (lt_trans n.toNat_lt (by norm_num))
  show (stringifyNumber ⟨_, formatInteger n.toNat⟩).length ≤ 20
  rw [stringifyNumber_token, hdigits, length_decimalDigits]
  exact hlog

/-- **The suggestions take a limited place.** -/
theorem memberSize_suggestions_le (suggestions : List Bytes) :
    memberSize (utf8 "suggestions", unlessNone ((validSuggestions suggestions).map .string)) ≤ 2592 := by
  obtain ⟨hfew, hvalid⟩ := validSuggestions_spec suggestions
  unfold unlessNone
  split
  · exact Nat.zero_le _
  have hkey : (escapeString (utf8 "suggestions")).length = 11 := by decide
  have hspread : spread (((validSuggestions suggestions).map Value.string).map stringify) ≤ 5 * 515 := by
    have hone : ∀ size ∈ (((validSuggestions suggestions).map Value.string).map stringify).map
        (fun text => text.length + 1), size ≤ 515 := by
      intro size hsize
      simp only [List.map_map, List.mem_map, Function.comp] at hsize
      obtain ⟨text, htext, rfl⟩ := hsize
      have hescaped := length_escapeString_le (hvalid text htext)
      rw [stringify, List.length_cons, List.length_append, List.length_singleton]
      unfold maxSelectSuggestionBytes at hescaped
      omega
    have hsum := List.sum_le_card_nsmul _ 515 hone
    rw [List.length_map, List.length_map, List.length_map, smul_eq_mul] at hsum
    unfold spread
    unfold maxSelectSuggestions at hfew
    exact hsum.trans (Nat.mul_le_mul_right _ hfew)
  rw [memberSize_some, hkey, stringify, stringifyElements_eq, List.length_cons, List.length_append,
    length_joinCommas, List.length_singleton]
  omega

/-- **A request fits into a frame.** -/
theorem length_buildSelectRequest_le (r : SelectRequest) :
    (buildSelectRequest r).length ≤ maxRequestFrameBytes.toNat := by
  have hkind : memberSize (utf8 "kind", some (.string (utf8 "select"))) = 16 := by decide
  have hstart : (escapeString (utf8 "start")).length = 5 := by decide
  have hlength : (escapeString (utf8 "length")).length = 6 := by decide
  have hreconvert : memberSize (utf8 "reconvert", some (.bool r.reconvert)) ≤ 18 := by
    cases r.reconvert <;> decide
  have hfirst := length_stringify_ofUInt64 r.start
  have hsecond := length_stringify_ofUInt64 r.length
  have hsuggestions := memberSize_suggestions_le r.suggestions
  refine (length_stringify_record_le (selectRequestFields r)).trans ?_
  unfold selectRequestFields
  simp only [List.map_cons, List.map_nil, List.sum_cons, List.sum_nil]
  rw [hkind, memberSize_some, memberSize_some, hstart, hlength]
  show _ ≤ 4096
  omega

/-! ## Sending -/

/-- **A frame that is written announces its length.** -/
theorem encodeFrame_spec {json : Bytes} {maxBytes : UInt32} (hne : json ≠ [])
    (hle : json.length ≤ maxBytes.toNat) :
    ∃ header, encodeFrame json maxBytes = some (header ++ json) ∧ header.length = 4
      ∧ decodeFrameLength header maxBytes = some json.length := by
  refine ⟨LittleEndian.encode 4 json.length, ?_, LittleEndian.length_encode _ _, ?_⟩
  · unfold encodeFrame
    rw [if_neg (not_or.mpr ⟨hne, not_lt.mpr hle⟩)]
  · have hlt : json.length < 256 ^ 4 := lt_of_le_of_lt hle maxBytes.toNat_lt
    unfold decodeFrameLength
    rw [LittleEndian.decode_encode_of_lt hlt]
    have hpos : json.length ≠ 0 := fun hzero => hne (List.length_eq_zero_iff.mp hzero)
    exact if_neg (not_or.mpr ⟨hpos, not_lt.mpr hle⟩)

/-- The keys of a request to select. -/
theorem fieldKeys_selectRequest (r : SelectRequest) :
    FieldKeys ((selectRequestFields r).map Prod.fst) := by
  simp only [selectRequestFields, List.map_cons, List.map_nil]
  decide

/-- A valid suggestion travels. -/
theorem travels_suggestion {text : Bytes} (h : isValidSelectSuggestion text = true) :
    Travels suggestionFromJson 0 (.string text) text where
  written := fun room => exists_prints_string _ (isValidSelectSuggestion_iff.mp h).2.2.1
  reads := fun room w hw => by
    rw [eq_of_prints_string hw, suggestionFromJson, if_pos h]

/-- **A request is read back with its valid suggestions.** -/
theorem parse_buildSelectRequest (r : SelectRequest) :
    parseSelectRequest (buildSelectRequest r)
      = some { r with suggestions := validSuggestions r.suggestions } := by
  obtain ⟨hfew, hvalid⟩ := validSuggestions_spec r.suggestions
  have hshort : (buildSelectRequest r).length ≤ maxJsonInputBytes :=
    (length_buildSelectRequest_le r).trans (by decide)
  have hread : parseSelectRequest (buildSelectRequest r)
      = (parseObject (buildSelectRequest r) >>= fun v =>
        if v.getString (utf8 "kind") = some (utf8 "select") then selectRequestFromJson v else none) := by
    unfold parseSelectRequest parseKind
    cases parseObject (buildSelectRequest r) with
    | none => rfl
    | some v =>
      rw [Option.filter_some]
      by_cases hselect : v.getString (utf8 "kind") = some (utf8 "select")
      · rw [if_pos (decide_eq_true hselect)]
        exact (if_pos hselect).symm
      · rw [if_neg (by rw [decide_eq_false hselect]; exact Bool.false_ne_true)]
        exact (if_neg hselect).symm
  have hfits : (stringify (record (selectRequestFields r))).length ≤ maxJsonInputBytes := hshort
  rw [hread]
  refine (bind_parseObject_record (a := { r with suggestions := validSuggestions r.suggestions })
    (fieldKeys_selectRequest r) ?_ fun room w hback => ?_).trans (if_pos hfits)
  · simp only [selectRequestFields, List.forall_mem_cons, List.not_mem_nil, false_implies,
      implies_true, and_true]
    have hsuggestions : Written 63 (unlessNone ((validSuggestions r.suggestions).map .string)) :=
      .unlessNone (exists_prints_of_travels (fun text h => travels_suggestion (hvalid text h))
        (Nat.zero_le 62))
    have hselect : ValidUtf8 (utf8 "select") := .of_all_ascii (by decide)
    exact ⟨.string hselect, .ofUInt64 _, .ofUInt64 _, .bool _, hsuggestions⟩
  · have hkind : w.getString (utf8 "kind") = some (utf8 "select") :=
      hback.getString (by simp [selectRequestFields])
    have hstart : w.getUInt (utf8 "start") = some r.start.toNat :=
      hback.getUInt (by simp [selectRequestFields])
    have hlength : w.getUInt (utf8 "length") = some r.length.toNat :=
      hback.getUInt (by simp [selectRequestFields])
    have hreconvert : w.getBool (utf8 "reconvert") = some r.reconvert :=
      hback.getBool (by simp [selectRequestFields])
    have hfield : (utf8 "suggestions", unlessNone ((validSuggestions r.suggestions).map .string))
        ∈ selectRequestFields r := by
      simp [selectRequestFields]
    obtain ⟨inner, hws⟩ := hback.getArray_getD hfield
    have hsuggestions := filterMap_of_forall₂
      (forall₂_of_travels (fun text h => travels_suggestion (hvalid text h)) hws)
    rw [if_pos hkind]
    unfold selectRequestFromJson
    rw [hstart, hlength, hreconvert, hsuggestions, List.take_of_length_le hfew]
    simp only [Option.bind_eq_bind, Option.bind_some, Option.getD_some, UInt64.ofNat_toNat]

/-- **What is read is valid.** -/
theorem valid_of_parseSelectRequest {json : Bytes} {r : SelectRequest}
    (h : parseSelectRequest json = some r) :
    ∀ text ∈ r.suggestions, isValidSelectSuggestion text = true := by
  obtain ⟨v, -, h⟩ := Option.bind_eq_some_iff.mp h
  obtain ⟨start, -, h⟩ := Option.bind_eq_some_iff.mp h
  obtain ⟨length, -, h⟩ := Option.bind_eq_some_iff.mp h
  obtain rfl := Option.some.inj h
  intro text htext
  obtain ⟨element, -, helement⟩ := List.mem_filterMap.mp (List.mem_of_mem_take htext)
  cases element with
  | string s =>
    rw [suggestionFromJson] at helement
    by_cases hs : isValidSelectSuggestion s = true
    · rw [if_pos hs] at helement
      rw [← Option.some.inj helement]
      exact hs
    · rw [if_neg hs] at helement
      cases helement
  | _ => cases helement

/-- **Requests to select**: every request fits into a frame that announces its length, and is read
back with the first of its valid suggestions; and of every text that is read as a request, the
suggestions are texts within the limit, without the refused code points. -/
theorem selectRequest_spec (r : SelectRequest) (json : Bytes) :
    (∃ header, encodeFrame (buildSelectRequest r) maxRequestFrameBytes
        = some (header ++ buildSelectRequest r) ∧ header.length = 4
      ∧ decodeFrameLength header maxRequestFrameBytes = some (buildSelectRequest r).length)
    ∧ parseSelectRequest (buildSelectRequest r)
      = some { r with
        suggestions := (r.suggestions.filter isValidSelectSuggestion).take maxSelectSuggestions }
    ∧ ∀ p, parseSelectRequest json = some p → ∀ text ∈ p.suggestions, ValidUtf8 text ∧ text ≠ []
      ∧ text.length ≤ maxSelectSuggestionBytes
      ∧ ∀ front scalar back, text = front ++ (scalar ++ back) → ValidUtf8 front →
        isScalar scalar = true → isRefusedSuggestionCodePoint (scalarValue scalar) = false := by
  have hne : buildSelectRequest r ≠ [] := by
    unfold buildSelectRequest record
    rw [stringify]
    exact List.cons_ne_nil _ _
  refine ⟨encodeFrame_spec hne (length_buildSelectRequest_le r), parse_buildSelectRequest r,
    fun p hp text htext => ?_⟩
  obtain ⟨htextNe, hlength, hvalid, hall⟩ :=
    isValidSelectSuggestion_iff.mp (valid_of_parseSelectRequest hp text htext)
  exact ⟨hvalid, htextNe, hlength, hall⟩

end AzooKey.Ipc.Proofread

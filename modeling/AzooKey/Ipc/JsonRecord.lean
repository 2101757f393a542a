import AzooKey.Ipc.JsonPrint

/-!
# Records as JSON objects

A payload is written as an object to which `emplace` gives one member after
the other, and a member whose value is the reader's default may be left out.
`record` is that object, and `ReadBack` what the reader finds in it: under the
key of every member what the member is read back as, and nothing where the
member was left out.

The lemmas under `ReadBack` are one for each kind of member. They say what the
accessors of the reader return, so that a payload is compared with what was
read from it member by member.
-/

namespace AzooKey.Ipc.Json

/-! ## Values of members -/

/-- `Value(double)`. -/
def Value.ofDouble (value : Double) : Value := .number ⟨value, []⟩

/-- `Value(uint64_t)`. -/
def Value.ofUInt64 (n : UInt64) : Value :=
  .number ⟨(roundBinary64 false n.toNat).elim .nan .finite, formatInteger n.toNat⟩

/-- A string that is left out when it is empty. -/
def unlessEmpty (s : Bytes) : Option Value := if s.isEmpty then none else some (.string s)

/-- A boolean that is left out when it is `false`. -/
def onlyTrue (b : Bool) : Option Value := if b then some (.bool true) else none

/-- A boolean that is left out when it is `true`. -/
def onlyFalse (b : Bool) : Option Value := if b then none else some (.bool false)

/-- A byte that is left out when it is zero. -/
def unlessZero (n : UInt8) : Option Value := if n = 0 then none else some (.ofUInt64 n.toUInt64)

/-- An array that is left out when it has no elements. -/
def unlessNone (vs : List Value) : Option Value := if vs.isEmpty then none else some (.array vs)

/-- **A number that a text keeps**: finite, and not the zero whose sign is
lost. -/
def Keeps (x : Double) : Prop := x.isFinite = true ∧ x ≠ .finite (.zero true)

instance (x : Double) : Decidable (Keeps x) := inferInstanceAs (Decidable (_ ∧ _))

/-- Two values are the same when they are equal and neither is a zero. -/
theorem eq_of_toRat_eq {a b : Binary64} (h : a.toRat = b.toRat) (hb : b.magnitude ≠ 0) :
    a = b := by
  obtain ⟨na, ma, ra⟩ := a
  obtain ⟨nb, mb, rb⟩ := b
  have ha := ra.nonneg
  have hpos : 0 < mb := lt_of_le_of_ne rb.nonneg (Ne.symm hb)
  -- the sign is the sign of the rational
  cases na <;> cases nb <;> simp only [Binary64.toRat, Bool.false_eq_true, if_false, if_true] at h
  · subst h; rfl
  · linarith
  · linarith
  · obtain rfl : ma = mb := neg_injective h
    rfl

/-- A number is read back in one way. -/
theorem Number.Prints.value_eq {n m m' : Number} (h : n.Prints m) (h' : n.Prints m') :
    m.value = m'.value := by
  obtain ⟨numeral, value, htext, hvalue, rfl⟩ := h
  obtain ⟨numeral', value', htext', hvalue', rfl⟩ := h'
  rw [← htext] at hvalue
  rw [← htext'] at hvalue'
  exact congrArg Double.finite (Option.some.inj (hvalue.symm.trans hvalue'))

/-- **A number that a text keeps is read back as itself.** -/
theorem Number.value_of_prints {x : Double} (hx : Keeps x) {m : Number}
    (h : (⟨x, []⟩ : Number).Prints m) : m.value = x := by
  obtain ⟨hfinite, hne⟩ := hx
  cases x with
  | infinity _ => cases hfinite
  | nan => cases hfinite
  | finite b =>
    by_cases hzero : b.magnitude = 0
    · -- zero is written as a digit, which has no sign
      obtain rfl : b = .zero false := by
        obtain ⟨negative, magnitude, representable⟩ := b
        obtain rfl : magnitude = 0 := hzero
        cases negative with
        | false => rfl
        | true => exact absurd rfl hne
      obtain ⟨numeral, value, htext, hvalue, rfl⟩ := h
      have hdigit : stringifyNumber ⟨.finite (.zero false), []⟩ = formatInteger 0 := by
        simp [stringifyNumber, Binary64.zero, Binary64.toRat]
      rw [← htext, hdigit, parseFiniteDouble, fromChars_formatInteger] at hvalue
      have hround : roundBinary64 false 0 = some (.zero false) :=
        roundBinary64_magnitude (.zero false)
      simp only [Int.natAbs_zero, Nat.cast_zero, lt_self_iff_false, decide_false] at hvalue
      rw [hround] at hvalue
      simp only [Option.some.injEq] at hvalue
      exact congrArg Double.finite hvalue.symm
    · obtain ⟨value, hprints, heq⟩ := Number.prints_finite b
      rw [h.value_eq hprints]
      exact congrArg Double.finite (eq_of_toRat_eq heq hzero)

/-- A number that a text keeps is written. -/
theorem exists_prints_ofDouble (room : ℕ) {x : Double} (hx : Keeps x) :
    ∃ w, Prints room (.ofDouble x) w := by
  obtain ⟨hfinite, -⟩ := hx
  cases x with
  | infinity _ => cases hfinite
  | nan => cases hfinite
  | finite b =>
    obtain ⟨value, hprints, -⟩ := Number.prints_finite b
    refine ⟨.number ⟨.finite value, stringifyNumber ⟨.finite b, []⟩⟩, ?_⟩
    cases room <;> exact ⟨_, hprints, rfl⟩

/-- The text of an integer is not empty. -/
theorem formatInteger_ne_nil (n : ℤ) : formatInteger n ≠ [] := by
  rintro h
  have hplain := (plain_formatInteger n).1
  rw [h] at hplain
  exact absurd hplain (by decide)

/-- What an integer is written as. -/
theorem stringifyNumber_token (value : Double) (n : ℤ) :
    stringifyNumber ⟨value, formatInteger n⟩ = formatInteger n :=
  if_pos (formatInteger_ne_nil n)

/-- An integer is written. -/
theorem exists_prints_ofUInt64 (room : ℕ) (n : UInt64) : ∃ w, Prints room (.ofUInt64 n) w := by
  have hlt := n.toNat_lt
  obtain ⟨value, hvalue⟩ := exists_parseFiniteDouble_formatInteger (n := (n.toNat : ℤ))
    (by rw [Int.natAbs_natCast]; omega)
  have hprints : Number.Prints
      ⟨(roundBinary64 false n.toNat).elim .nan .finite, formatInteger n.toNat⟩
      ⟨.finite value, formatInteger n.toNat⟩ := by
    refine ⟨intNumeral n.toNat, value, ?_, ?_, ?_⟩
    · rw [stringifyNumber_token, intNumeral_text]
    · rw [intNumeral_text, hvalue]
    · rw [intNumeral_text]
  refine ⟨.number ⟨.finite value, formatInteger n.toNat⟩, ?_⟩
  cases room <;> exact ⟨_, hprints, rfl⟩

/-- An integer is read back as a number whose token names it. -/
theorem eq_of_prints_ofUInt64 {room : ℕ} {n : UInt64} {w : Value}
    (h : Prints room (.ofUInt64 n) w) : ∃ value, w = .number ⟨value, formatInteger n.toNat⟩ := by
  obtain ⟨m, ⟨numeral, value, htext, -, rfl⟩, rfl⟩ := exists_of_prints_number h
  rw [stringifyNumber_token] at htext
  exact ⟨.finite value, by rw [htext]⟩

/-! ## Objects -/

/-- A member that may be left out is put into an object. -/
def emplaceField (o : List (Bytes × Value)) (field : Bytes × Option Value) :
    List (Bytes × Value) :=
  field.2.elim o (fun v => AssocList.emplace field.1 v o)

/-- **The object of members**: the ones that are present, in the order in which
they are put in. -/
def record (fields : List (Bytes × Option Value)) : Value :=
  .object (fields.foldl emplaceField [])

section Emplace

variable {o : List (Bytes × Value)}

/-- A member keeps the order of the keys. -/
theorem sorted_emplaceField (h : AssocList.Sorted o) (field : Bytes × Option Value) :
    AssocList.Sorted (emplaceField o field) := by
  unfold emplaceField
  cases field.2 with
  | none => exact h
  | some v => exact h.insertWith

/-- So do members. -/
theorem sorted_foldl_emplaceField (h : AssocList.Sorted o) (fields : List (Bytes × Option Value)) :
    AssocList.Sorted (fields.foldl emplaceField o) := by
  induction fields generalizing o with
  | nil => exact h
  | cons field fields ih => exact ih (sorted_emplaceField h field)

/-- A member is found under its key and under no other. -/
theorem find?_emplaceField (h : AssocList.Sorted o) (field : Bytes × Option Value) (key : Bytes) :
    AssocList.find? (emplaceField o field) key
      = if key = field.1 then (AssocList.find? o key).or field.2 else AssocList.find? o key := by
  unfold emplaceField
  cases field.2 with
  | none => simp
  | some v =>
    show AssocList.find? (AssocList.insertWith id field.1 v o) key = _
    rw [AssocList.find?_insertWith h]
    by_cases hkey : key = field.1
    · subst hkey
      rw [if_pos rfl, if_pos rfl]
      cases AssocList.find? o field.1 <;> rfl
    · rw [if_neg hkey, if_neg hkey]

/-- What no member names stays. -/
theorem find?_foldl_of_notMem (h : AssocList.Sorted o) {fields : List (Bytes × Option Value)}
    {key : Bytes} (hkey : key ∉ fields.map Prod.fst) :
    AssocList.find? (fields.foldl emplaceField o) key = AssocList.find? o key := by
  induction fields generalizing o with
  | nil => rfl
  | cons field fields ih =>
    rw [List.map_cons, List.mem_cons, not_or] at hkey
    rw [List.foldl_cons, ih (sorted_emplaceField h field) hkey.2, find?_emplaceField h,
      if_neg hkey.1]

/-- **A member of an object without its key is found as it was given.** -/
theorem find?_foldl_of_mem (h : AssocList.Sorted o) {fields : List (Bytes × Option Value)}
    (hkeys : (fields.map Prod.fst).Nodup) {field : Bytes × Option Value} (hmem : field ∈ fields)
    (hnone : AssocList.find? o field.1 = none) :
    AssocList.find? (fields.foldl emplaceField o) field.1 = field.2 := by
  induction fields generalizing o with
  | nil => cases hmem
  | cons first fields ih =>
    rw [List.map_cons, List.nodup_cons] at hkeys
    have hsorted := sorted_emplaceField h first
    rw [List.foldl_cons]
    rcases List.mem_cons.mp hmem with rfl | hmem
    · rw [find?_foldl_of_notMem hsorted hkeys.1, find?_emplaceField h, if_pos rfl, hnone]
      rfl
    · have hne : field.1 ≠ first.1 := fun heq =>
        hkeys.1 (heq ▸ List.mem_map_of_mem hmem)
      refine ih hsorted hkeys.2 hmem ?_
      rw [find?_emplaceField h, if_neg hne, hnone]

end Emplace

/-! ## Members that are written -/

/-- **A member that can be written**, if it is present at all. -/
def Written (room : ℕ) (value : Option Value) : Prop := ∀ v ∈ value, ∃ w, Prints room v w

namespace Written

variable {room : ℕ}

/-- A member that is left out. -/
theorem none : Written room none := fun _ h => by cases h

/-- A member that is present. -/
theorem some {v : Value} (h : ∃ w, Prints room v w) : Written room (some v) := by
  rintro v' hv'
  cases hv'
  exact h

/-- A valid string. -/
theorem string {s : Bytes} (hs : ValidUtf8 s) : Written room (Option.some (.string s)) :=
  .some (exists_prints_string room hs)

/-- A valid string, if there is one. -/
theorem map_string {s : Option Bytes} (hs : ∀ t ∈ s, ValidUtf8 t) :
    Written room (s.map .string) := by
  cases s with
  | none => exact .none
  | some t => exact .string (hs t rfl)

/-- A valid string, if it is not empty. -/
theorem unlessEmpty {s : Bytes} (hs : ValidUtf8 s) : Written room (unlessEmpty s) := by
  unfold Json.unlessEmpty
  split
  · exact .none
  · exact .string hs

/-- A boolean. -/
theorem bool (b : Bool) : Written room (Option.some (.bool b)) :=
  .some ⟨.bool b, by cases room <;> rfl⟩

/-- A boolean that is `true`. -/
theorem onlyTrue (b : Bool) : Written room (onlyTrue b) := by
  cases b with
  | false => exact .none
  | true => exact .bool true

/-- A boolean that is `false`. -/
theorem onlyFalse (b : Bool) : Written room (onlyFalse b) := by
  cases b with
  | false => exact .bool false
  | true => exact .none

/-- A number that a text keeps. -/
theorem ofDouble {x : Double} (hx : Keeps x) : Written room (Option.some (.ofDouble x)) :=
  .some (exists_prints_ofDouble room hx)

/-- An integer. -/
theorem ofUInt64 (n : UInt64) : Written room (Option.some (.ofUInt64 n)) :=
  .some (exists_prints_ofUInt64 room n)

/-- A byte that is not zero. -/
theorem unlessZero (n : UInt8) : Written room (unlessZero n) := by
  unfold Json.unlessZero
  split
  · exact .none
  · exact .ofUInt64 _

/-- An array of values that are written. -/
theorem array {vs : List Value} (h : ∀ v ∈ vs, ∃ w, Prints room v w) :
    Written (room + 1) (Option.some (.array vs)) := by
  obtain ⟨ws, hws⟩ := exists_forall₂ h
  exact .some ⟨.array ws, ws, hws, rfl⟩

/-- An array that has elements. -/
theorem unlessNone {vs : List Value} (h : ∀ v ∈ vs, ∃ w, Prints room v w) :
    Written (room + 1) (unlessNone vs) := by
  unfold Json.unlessNone
  split
  · exact .none
  · exact .array h

end Written

/-! ## Records that are read back -/

section Record

variable {fields : List (Bytes × Option Value)}

/-- Every entry of the object is a member. -/
theorem mem_of_mem_record (hkeys : (fields.map Prod.fst).Nodup) {e : Bytes × Value}
    (he : e ∈ fields.foldl emplaceField []) : (e.1, some e.2) ∈ fields := by
  have hsorted := sorted_foldl_emplaceField List.Pairwise.nil fields
  have hfind := (AssocList.find?_eq_some_iff hsorted).mpr he
  by_cases hkey : e.1 ∈ fields.map Prod.fst
  · obtain ⟨field, hmem, hfield⟩ := List.mem_map.mp hkey
    rw [← hfield, find?_foldl_of_mem List.Pairwise.nil hkeys hmem rfl] at hfind
    rw [← hfield, ← hfind]
    exact hmem
  · rw [find?_foldl_of_notMem List.Pairwise.nil hkey] at hfind
    cases hfind

/-- **Keys that can stand in one record**: no two alike, and plain text. -/
def FieldKeys (keys : List Bytes) : Prop := keys.Nodup ∧ ∀ key ∈ keys, key.all (· < 0x80) = true

instance (keys : List Bytes) : Decidable (FieldKeys keys) := inferInstanceAs (Decidable (_ ∧ _))

/-- **A record is written when its members are.** -/
theorem exists_prints_record {room : ℕ} (hkeys : FieldKeys (fields.map Prod.fst))
    (h : ∀ field ∈ fields, Written room field.2) : ∃ w, Prints (room + 1) (record fields) w := by
  refine exists_prints_object (sorted_foldl_emplaceField List.Pairwise.nil fields) (fun e he => ?_)
  have hmem := mem_of_mem_record hkeys.1 he
  exact ⟨hkeys.2 e.1 (List.mem_map.mpr ⟨_, hmem, rfl⟩), h _ hmem e.2 rfl⟩

/-- A text with commas is no shorter than what stands between them. -/
theorem length_le_joinCommas {text : Bytes} {texts : List Bytes} (h : text ∈ texts) :
    text.length ≤ (joinCommas texts).length := by
  induction texts with
  | nil => cases h
  | cons first texts ih =>
    cases texts with
    | nil => rw [List.mem_singleton.mp h]; exact le_rfl
    | cons second texts =>
      simp only [joinCommas, List.length_append, List.length_cons]
      rcases List.mem_cons.mp h with rfl | h
      · omega
      · have hle := ih h
        omega

/-- A byte takes at least one. -/
theorem length_le_escapeString (text : Bytes) : text.length ≤ (escapeString text).length := by
  unfold escapeString
  induction text with
  | nil => exact le_rfl
  | cons c text ih =>
    have hpos : 1 ≤ (escapeByte c).length := by
      unfold escapeByte
      repeat first | (split; · simp) | simp
    rw [List.flatMap_cons, List.length_append, List.length_cons]
    omega

/-- **A record is no shorter than its strings.** -/
theorem length_le_stringify_record (hkeys : (fields.map Prod.fst).Nodup) {key text : Bytes}
    (hmem : (key, some (.string text)) ∈ fields) :
    text.length ≤ (stringify (record fields)).length := by
  have hfind : AssocList.find? (fields.foldl emplaceField []) key = some (.string text) :=
    find?_foldl_of_mem List.Pairwise.nil hkeys hmem rfl
  have hmember := length_le_joinCommas
    (List.mem_map_of_mem (f := stringifyMember) (AssocList.mem_of_find?_eq_some hfind))
  have hescape := length_le_escapeString text
  unfold record
  rw [stringify, stringifyMembers_eq]
  simp only [stringifyMember, stringify, List.length_cons, List.length_append] at hmember ⊢
  omega

/-- **What is read back from a record**: an object that has under the key of
every member what the member is read back as. -/
structure ReadBack (room : ℕ) (fields : List (Bytes × Option Value)) (w : Value) : Prop where
  isObject : w.isObject = true
  find : ∀ field ∈ fields, Option.Rel (Prints room) field.2 (w.find field.1)

/-- **A record is read back.** -/
theorem readBack_of_prints {room : ℕ} {w : Value} (hkeys : FieldKeys (fields.map Prod.fst))
    (h : Prints room (record fields) w) : ∃ inner, room = inner + 1 ∧ ReadBack inner fields w := by
  cases room with
  | zero => exact h.elim
  | succ room =>
    obtain ⟨-, ws, hws, rfl⟩ := h
    refine ⟨room, rfl, rfl, fun field hmem => ?_⟩
    rw [Value.find_object, ← find?_foldl_of_mem List.Pairwise.nil hkeys.1 hmem rfl]
    exact find?_of_prints hws field.1

/-! ## Members of a record -/

namespace ReadBack

variable {room : ℕ} {w : Value} {key : Bytes}

/-- A member that is present is found as what it is read back as. -/
theorem exists_find (h : ReadBack room fields w) {v : Value} (hmem : (key, some v) ∈ fields) :
    ∃ w', w.find key = some w' ∧ Prints room v w' := by
  have hrel : Option.Rel (Prints room) (some v) (w.find key) := h.find _ hmem
  cases hfind : w.find key with
  | none => rw [hfind] at hrel; cases hrel
  | some w' =>
    rw [hfind] at hrel
    cases hrel with
    | some hprints => exact ⟨w', rfl, hprints⟩

/-- A member that was left out is not found. -/
theorem find_none (h : ReadBack room fields w) (hmem : (key, none) ∈ fields) :
    w.find key = none := by
  have hrel : Option.Rel (Prints room) none (w.find key) := h.find _ hmem
  cases hfind : w.find key with
  | none => rfl
  | some w' => rw [hfind] at hrel; cases hrel

/-- A string. -/
theorem getString (h : ReadBack room fields w) {s : Bytes}
    (hmem : (key, some (.string s)) ∈ fields) : w.getString key = some s := by
  obtain ⟨w', hfind, hprints⟩ := h.exists_find hmem
  rw [Value.getString, hfind, eq_of_prints_string hprints]

/-- A string that is left out when there is none. -/
theorem getString_map (h : ReadBack room fields w) {s : Option Bytes}
    (hmem : (key, s.map .string) ∈ fields) : w.getString key = s := by
  cases s with
  | none => rw [Value.getString, h.find_none hmem]
  | some s => exact h.getString hmem

/-- A string that is left out when it is empty. -/
theorem getString_getD (h : ReadBack room fields w) {s : Bytes}
    (hmem : (key, unlessEmpty s) ∈ fields) : (w.getString key).getD [] = s := by
  unfold unlessEmpty at hmem
  by_cases hs : s.isEmpty = true
  · rw [if_pos hs] at hmem
    rw [Value.getString, h.find_none hmem, List.isEmpty_iff.mp hs]
    rfl
  · rw [if_neg hs] at hmem
    rw [h.getString hmem]
    rfl

/-- A boolean. -/
theorem getBool (h : ReadBack room fields w) {b : Bool}
    (hmem : (key, some (.bool b)) ∈ fields) : w.getBool key = some b := by
  obtain ⟨w', hfind, hprints⟩ := h.exists_find hmem
  obtain rfl : w' = .bool b := by cases room <;> exact hprints
  rw [Value.getBool, hfind]

/-- A boolean that is left out when it is `false`. -/
theorem getBool_getD_false (h : ReadBack room fields w) {b : Bool}
    (hmem : (key, onlyTrue b) ∈ fields) : (w.getBool key).getD false = b := by
  cases b with
  | false => rw [Value.getBool, h.find_none hmem]; rfl
  | true => rw [h.getBool hmem]; rfl

/-- A boolean that is left out when it is `true`. -/
theorem getBool_getD_true (h : ReadBack room fields w) {b : Bool}
    (hmem : (key, onlyFalse b) ∈ fields) : (w.getBool key).getD true = b := by
  cases b with
  | false => rw [h.getBool hmem]; rfl
  | true => rw [Value.getBool, h.find_none hmem]; rfl

/-- A number. -/
theorem getNumber (h : ReadBack room fields w) {x : Double} (hx : Keeps x)
    (hmem : (key, some (.ofDouble x)) ∈ fields) : w.getNumber key = some x := by
  obtain ⟨w', hfind, hprints⟩ := h.exists_find hmem
  obtain ⟨m, hm, rfl⟩ := exists_of_prints_number hprints
  rw [Value.getNumber, hfind]
  exact congrArg some (Number.value_of_prints hx hm)

/-- An integer. -/
theorem getUInt (h : ReadBack room fields w) {n : UInt64}
    (hmem : (key, some (.ofUInt64 n)) ∈ fields) : w.getUInt key = some n.toNat := by
  obtain ⟨w', hfind, hprints⟩ := h.exists_find hmem
  obtain ⟨value, rfl⟩ := eq_of_prints_ofUInt64 hprints
  have hlt := n.toNat_lt
  rw [Value.getUInt, hfind]
  dsimp only
  rw [(plain_formatInteger _).1, bne_iff_ne.mpr (head_formatInteger n.toNat), Bool.and_self,
    toIntIn_formatInteger (by omega) (by omega)]
  rfl

/-- A byte that is left out when it is zero. -/
theorem getUInt_getD (h : ReadBack room fields w) {n : UInt8}
    (hmem : (key, unlessZero n) ∈ fields) : (w.getUInt key).getD 0 = n.toNat := by
  unfold unlessZero at hmem
  by_cases hn : n = 0
  · rw [if_pos hn] at hmem
    rw [Value.getUInt, h.find_none hmem, hn]
    rfl
  · rw [if_neg hn] at hmem
    rw [h.getUInt hmem]
    exact UInt8.toNat_toUInt64 n

/-- The elements of an array. -/
theorem getArray (h : ReadBack room fields w) {vs : List Value}
    (hmem : (key, some (.array vs)) ∈ fields) :
    ∃ inner ws, w.getArray key = some ws ∧ List.Forall₂ (Prints inner) vs ws := by
  obtain ⟨w', hfind, hprints⟩ := h.exists_find hmem
  cases room with
  | zero => exact hprints.elim
  | succ inner =>
    obtain ⟨ws, hws, rfl⟩ := hprints
    exact ⟨inner, ws, by rw [Value.getArray, hfind], hws⟩

/-- The elements of an array that is left out when it has none. -/
theorem getArray_getD (h : ReadBack room fields w) {vs : List Value}
    (hmem : (key, unlessNone vs) ∈ fields) :
    ∃ inner, List.Forall₂ (Prints inner) vs ((w.getArray key).getD []) := by
  unfold unlessNone at hmem
  by_cases hvs : vs.isEmpty = true
  · rw [if_pos hvs] at hmem
    rw [Value.getArray, h.find_none hmem, List.isEmpty_iff.mp hvs]
    exact ⟨0, .nil⟩
  · rw [if_neg hvs] at hmem
    obtain ⟨inner, ws, hfind, hws⟩ := h.getArray hmem
    exact ⟨inner, by rw [hfind]; exact hws⟩

end ReadBack

end Record

/-! ## Elements -/

/-- **A value that is written and read back**: within the depth there is room
to write it, and wherever it is read back the reader makes `a` of it. -/
structure Travels {α : Type} (read : Value → Option α) (depth : ℕ) (v : Value) (a : α) : Prop where
  written : ∀ room, ∃ w, Prints (room + depth) v w
  reads : ∀ room w, Prints room v w → read w = some a

section Travels

variable {α : Type} {read : Value → Option α} {depth : ℕ}

/-- A value that fits into a depth fits into a greater one. -/
theorem Travels.exists_prints {v : Value} {a : α} (h : Travels read depth v a) {room : ℕ}
    (hroom : depth ≤ room) : ∃ w, Prints room v w := by
  have hw := h.written (room - depth)
  rwa [Nat.sub_add_cancel hroom] at hw

/-- **A record travels when its members are written and read.** -/
theorem Travels.of_record {fields : List (Bytes × Option Value)} {a : α}
    (hkeys : FieldKeys (fields.map Prod.fst))
    (hwritten : ∀ room, ∀ field ∈ fields, Written (room + depth) field.2)
    (hreads : ∀ room w, ReadBack room fields w → read w = some a) :
    Travels read (depth + 1) (record fields) a where
  written := fun room => exists_prints_record hkeys (hwritten room)
  reads := fun room w hw => by
    obtain ⟨inner, -, hback⟩ := readBack_of_prints hkeys hw
    exact hreads inner w hback

/-- The elements of an array are each read back. -/
theorem forall₂_of_travels {write : α → Value} {as : List α}
    (h : ∀ a ∈ as, Travels read depth (write a) a) {room : ℕ} {ws : List Value}
    (hws : List.Forall₂ (Prints room) (as.map write) ws) :
    List.Forall₂ (fun a w => read w = some a) as ws := by
  rw [List.forall₂_map_left_iff] at hws
  induction hws with
  | nil => exact .nil
  | @cons a w as ws haw _ ih =>
    exact .cons ((h a List.mem_cons_self).reads room w haw)
      (ih (fun a' ha' => h a' (List.mem_cons_of_mem _ ha')))

/-- A reader that passes over what it does not understand reads them all. -/
theorem filterMap_of_forall₂ {as : List α} {ws : List Value}
    (h : List.Forall₂ (fun a w => read w = some a) as ws) : ws.filterMap read = as := by
  induction h with
  | nil => rfl
  | cons haw _ ih => rw [List.filterMap_cons_some haw, ih]

/-- A reader that insists on every element reads them all. -/
theorem mapM_of_forall₂ {as : List α} {ws : List Value}
    (h : List.Forall₂ (fun a w => read w = some a) as ws) : ws.mapM read = some as := by
  induction h with
  | nil => rfl
  | cons haw _ ih => rw [List.mapM_cons, haw, ih]; rfl

/-- Elements that travel are written. -/
theorem exists_prints_of_travels {write : α → Value} {as : List α}
    (h : ∀ a ∈ as, Travels read depth (write a) a) {room : ℕ} (hroom : depth ≤ room) :
    ∀ v ∈ as.map write, ∃ w, Prints room v w := by
  intro v hv
  obtain ⟨a, ha, rfl⟩ := List.mem_map.mp hv
  exact (h a ha).exists_prints hroom

end Travels

end AzooKey.Ipc.Json

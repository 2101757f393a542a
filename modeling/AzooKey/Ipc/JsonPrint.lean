import AzooKey.Ipc.JsonGrammar

/-!
# What the JSON writer writes, the reader reads

`Prints room v w` says that `v` can be written and what it is read back as:
strings have to be valid UTF-8, numbers finite, the keys of an object in
order, and nothing may nest deeper than `room`. A number that was made from
its value comes back with the spelling it was written with, and zero without
its sign. `spells_stringify` is the law: the text of `v` spells `w`.
-/

namespace AzooKey.Ipc.Json

/-! ## Numbers -/

/-- The numeral of an integer. -/
def intNumeral (n : ℤ) : Numeral where
  negative := n < 0
  whole := decimalDigits n.natAbs
  whole_form := decimalDigits_form _
  whole_isDigit := fun _ => isDigitByte_of_mem_decimalDigits
  fraction_isDigit := isDigitByte_of_mem_nil

/-- Its text is the one that is written. -/
theorem intNumeral_text (n : ℤ) : (intNumeral n).text = formatInteger n := by
  unfold Numeral.text Numeral.signText Numeral.fractionText Numeral.exponentText formatInteger
    intNumeral
  by_cases hn : n < 0 <;> simp [hn]

/-- An integer is read as its value. -/
theorem fromChars_formatInteger (n : ℤ) :
    fromChars (formatInteger n) = roundBinary64 (n < 0) n.natAbs := by
  rw [← intNumeral_text, fromChars_text]
  congr 1
  unfold Numeral.magnitude intNumeral
  simp [digitsValue_decimalDigits]

/-- The digits of a number are digits, and not none. -/
theorem decimalDigits_head (n : ℕ) : ∃ c tail, decimalDigits n = c :: tail ∧ c ≠ 0x2d := by
  have hne : decimalDigits n ≠ [] := by
    rcases decimalDigits_form n with h | ⟨c, t, h, -⟩ <;> simp [h]
  obtain ⟨c, tail, h⟩ := List.exists_cons_of_ne_nil hne
  refine ⟨c, tail, h, ?_⟩
  rintro rfl
  have hdigit := isDigitByte_of_mem_decimalDigits (n := n) (c := 0x2d) (by simp [h])
  exact absurd hdigit (by decide)

/-- A written integer is a plain token that names it. -/
theorem plain_formatInteger (n : ℤ) :
    isPlainIntegerToken (formatInteger n) = true ∧ plainInteger (formatInteger n) = n := by
  obtain ⟨c, tail, hdigits, hc⟩ := decimalDigits_head n.natAbs
  have hall : (decimalDigits n.natAbs).all isDigitByte = true :=
    List.all_eq_true.mpr (fun _ => isDigitByte_of_mem_decimalDigits)
  have hvalue := digitsValue_decimalDigits n.natAbs
  unfold isPlainIntegerToken plainInteger formatInteger skipMinus
  by_cases hn : n < 0
  · rw [if_pos hn]
    simp only [List.head?_cons, if_true, List.tail_cons, hall, hvalue, Bool.and_true,
      bne_iff_ne, ne_eq]
    exact ⟨by simp [hdigits], by omega⟩
  · rw [if_neg hn]
    have hhead : (decimalDigits n.natAbs).head? ≠ some 0x2d := by simpa [hdigits] using hc
    rw [if_neg hhead, if_neg hhead, hall, hvalue]
    simp only [Bool.and_true, bne_iff_ne, ne_eq]
    exact ⟨by simp [hdigits], by omega⟩

/-- A number that is not negative is written without a sign. -/
theorem head_formatInteger (n : ℕ) : (formatInteger n).head? ≠ some 0x2d := by
  obtain ⟨c, tail, hdigits, hc⟩ := decimalDigits_head n
  unfold formatInteger
  rw [if_neg (by omega), Int.natAbs_natCast, hdigits]
  simpa using hc

/-- **`GetInt` of a written integer of 64 bits is the integer.** -/
theorem toIntIn_formatInteger {n low high : ℤ} (hlow : low ≤ n) (hhigh : n < high)
    (value : Double) : (⟨value, formatInteger n⟩ : Number).toIntIn true low high = some n := by
  unfold Number.toIntIn
  simp only [if_true, (plain_formatInteger n).2, hlow, hhigh, and_self]

/-- **An integer of 64 bits is a number.** -/
theorem exists_parseFiniteDouble_formatInteger {n : ℤ} (h : n.natAbs ≤ 2 ^ 64) :
    ∃ value, parseFiniteDouble (formatInteger n) = some value := by
  have hsome : ∃ value, roundBinary64 (n < 0) n.natAbs = some value := by
    unfold roundBinary64
    rcases Nat.eq_zero_or_pos n.natAbs with hzero | hpos
    · rw [hzero]
      exact ⟨.zero (n < 0), by simp⟩
    · have hone : (1 : ℚ) ≤ n.natAbs := by exact_mod_cast hpos
      obtain ⟨hlow, hhigh⟩ := nearest_bounds hone
      have hlt : nearest n.natAbs < 2 ^ (1024 : ℤ) := by
        calc nearest n.natAbs ≤ 2 * (n.natAbs : ℚ) := hhigh
          _ ≤ 2 ^ (1 : ℤ) * 2 ^ (64 : ℤ) := by
              refine mul_le_mul (by norm_num) (by exact_mod_cast h) (by positivity) (by norm_num)
          _ = 2 ^ (65 : ℤ) := two_zpow_mul (by norm_num)
          _ < 2 ^ (1024 : ℤ) := zpow_lt_zpow_right₀ (by norm_num) (by norm_num)
      rw [dif_pos ⟨by linarith, hlt⟩, if_neg hlow.ne']
      exact ⟨_, rfl⟩
  obtain ⟨value, hvalue⟩ := hsome
  exact ⟨value, by rw [parseFiniteDouble, fromChars_formatInteger, hvalue]⟩

/-- The number that is read back. -/
def Number.Prints (n m : Number) : Prop :=
  ∃ (numeral : Numeral) (value : Binary64), stringifyNumber n = numeral.text
    ∧ parseFiniteDouble numeral.text = some value ∧ m = ⟨.finite value, numeral.text⟩

/-- **A finite value is written as a number that reads back as an equal
value.** -/
theorem Number.prints_finite (b : Binary64) :
    ∃ value, (⟨.finite b, []⟩ : Number).Prints ⟨.finite value, stringifyNumber ⟨.finite b, []⟩⟩
      ∧ value.toRat = b.toRat := by
  unfold Number.Prints stringifyNumber
  simp only [ne_eq, not_true, if_false]
  split
  · rename_i hint
    -- the value is `±num`, and only the sign of zero is lost
    have hnum : (b.toRat.num : ℚ) = b.toRat := by
      refine Rat.coe_int_num_of_den_eq_one ?_
      unfold Binary64.toRat
      split
      · rw [Rat.neg_den]; exact hint.1
      · exact hint.1
    have hmag : ((b.toRat.num.natAbs : ℕ) : ℚ) = b.magnitude := by
      rw [Nat.cast_natAbs, Int.cast_abs, hnum]
      unfold Binary64.toRat
      split
      · rw [abs_neg, abs_of_nonneg b.representable.nonneg]
      · exact abs_of_nonneg b.representable.nonneg
    let value : Binary64 := ⟨b.toRat.num < 0, b.magnitude, b.representable⟩
    have hround : roundBinary64 (b.toRat.num < 0) b.magnitude = some value :=
      roundBinary64_magnitude value
    refine ⟨value, ⟨intNumeral b.toRat.num, value, (intNumeral_text _).symm, ?_, ?_⟩, ?_⟩
    · rw [intNumeral_text, parseFiniteDouble, fromChars_formatInteger, hmag, hround]
    · rw [intNumeral_text]
    · have hsign : (b.toRat.num < 0) ↔ b.toRat < 0 := Rat.num_neg
      have hnonneg := b.representable.nonneg
      unfold Binary64.toRat at hsign ⊢
      simp only [value, Binary64.toRat, hsign, decide_eq_true_eq]
      cases b.negative with
      | false => simp [not_lt.mpr hnonneg]
      | true =>
        simp only [if_true, Left.neg_neg_iff]
        rcases hnonneg.lt_or_eq with hpos | hzero
        · rw [if_pos hpos]
        · rw [← hzero]
          simp
  · refine ⟨b, ⟨toChars b, b, rfl, ?_, rfl⟩, rfl⟩
    rw [parseFiniteDouble, fromChars_toChars]

/-! ## Values -/

/-- **What a value is read back as.** -/
def Prints : ℕ → Value → Value → Prop
  | _, .null, w => w = .null
  | _, .bool b, w => w = .bool b
  | _, .number n, w => ∃ m, n.Prints m ∧ w = .number m
  | _, .string s, w => ValidUtf8 s ∧ w = .string s
  | 0, .array _, _ => False
  | room + 1, .array vs, w => ∃ ws, List.Forall₂ (Prints room) vs ws ∧ w = .array ws
  | 0, .object _, _ => False
  | room + 1, .object ms, w => AssocList.Sorted ms
      ∧ ∃ ws, List.Forall₂ (fun m w => m.1 = w.1 ∧ ValidUtf8 m.1 ∧ Prints room m.2 w.2) ms ws
        ∧ w = .object ws

/-- The texts of the elements. -/
theorem stringifyElements_eq (vs : List Value) :
    stringify.stringifyElements vs = vs.map stringify := by
  induction vs with
  | nil => rw [stringify.stringifyElements]; rfl
  | cons v vs ih => rw [stringify.stringifyElements, ih]; rfl

/-- The text of a member. -/
def stringifyMember (m : Bytes × Value) : Bytes :=
  0x22 :: (escapeString m.1 ++ 0x22 :: 0x3a :: stringify m.2)

/-- The texts of the members. -/
theorem stringifyMembers_eq (ms : List (Bytes × Value)) :
    stringify.stringifyMembers ms = ms.map stringifyMember := by
  induction ms with
  | nil => rw [stringify.stringifyMembers]; rfl
  | cons m ms ih => rw [stringify.stringifyMembers, ih]; rfl

/-- **Texts with commas between them are items.** -/
theorem bodyText_joinCommas {α β : Type} {Item : Bytes → β → Prop} {print : α → Bytes}
    {as : List α} {bs : List β} (h : List.Forall₂ (fun a b => Item (print a) b) as bs) :
    BodyText Item (joinCommas (as.map print)) bs := by
  have hnil : Space [] := by simp [Space]
  induction h with
  | nil => exact Or.inl ⟨hnil, rfl⟩
  | @cons a b as bs hab hrest ih =>
    refine Or.inr ?_
    cases hrest with
    | nil =>
      have hitem := ItemsText.last hnil hab hnil
      simpa [joinCommas] using hitem
    | @cons a' b' as bs _ _ =>
      rcases ih with ⟨-, h⟩ | ih
      · cases h
      · have hitem := ItemsText.more hnil hab hnil ih
        simpa [joinCommas] using hitem

/-- Members in the order of their keys are the object. -/
theorem toObject_of_sorted {ms : List Member}
    (h : AssocList.Sorted (ms.map (fun m => (m.key, m.value)))) :
    toObject ms = ms.map (fun m => (m.key, m.value)) := by
  have hfold : ∀ (ms : List Member) (object : List (Bytes × Value)),
      AssocList.Sorted (object ++ ms.map (fun m => (m.key, m.value))) →
      ms.foldl (fun object m => AssocList.emplace m.key m.value object) object
        = object ++ ms.map (fun m => (m.key, m.value)) := by
    intro ms
    induction ms with
    | nil => intro object _; simp
    | cons m ms ih =>
      intro object hsorted
      have hlt : ∀ e ∈ object, e.1 < m.key := fun e he =>
        (List.pairwise_append.mp hsorted).2.2 e he (m.key, m.value) (by simp)
      rw [List.foldl_cons, AssocList.emplace, AssocList.insertWith_of_lt hlt, ih]
      · simp
      · simpa using hsorted
  exact hfold ms [] h

/-- The text of a value without brackets is an atom. -/
theorem atomText_of_prints {room : ℕ} {v w : Value} (h : Prints room v w)
    (hv : (∀ vs, v ≠ .array vs) ∧ ∀ ms, v ≠ .object ms) : AtomText (stringify v) w := by
  cases v with
  | null =>
    obtain rfl : w = .null := by cases room <;> exact h
    rw [stringify]
    exact .literal (l := (utf8 "null", .null)) (by simp [literals])
  | bool b =>
    obtain rfl : w = .bool b := by cases room <;> exact h
    rw [stringify]
    cases b with
    | true => exact .literal (l := (utf8 "true", .bool true)) (by simp [literals])
    | false => exact .literal (l := (utf8 "false", .bool false)) (by simp [literals])
  | number n =>
    obtain ⟨m, ⟨numeral, value, htext, hvalue, rfl⟩, rfl⟩ : ∃ m, n.Prints m ∧ w = .number m := by
      cases room <;> exact h
    rw [stringify, htext]
    exact .number hvalue
  | string s =>
    obtain ⟨hvalid, rfl⟩ : ValidUtf8 s ∧ w = .string s := by cases room <;> exact h
    rw [stringify]
    exact .string (stringText_escapeString hvalid)
  | array vs => exact absurd rfl (hv.1 vs)
  | object ms => exact absurd rfl (hv.2 ms)

/-- A value without brackets is spelled at any depth. -/
theorem AtomText.spells {text : Bytes} {v : Value} (h : AtomText text v) (room : ℕ) :
    Spells room text v := by
  cases room with
  | zero => exact .atom h
  | succ room => exact .atom h

/-- An array is spelled by its elements. -/
theorem spells_array {room : ℕ} {vs ws : List Value}
    (h : List.Forall₂ (fun v w => Spells room (stringify v) w) vs ws) :
    Spells (room + 1) (stringify (.array vs)) (.array ws) := by
  have hbody : BodyText (Spells room) (joinCommas (vs.map stringify)) ws := bodyText_joinCommas h
  rw [stringify, stringifyElements_eq]
  exact .array rfl hbody

/-- An object is spelled by its members. -/
theorem spells_object {room : ℕ} {ms ws : List (Bytes × Value)} (hsorted : AssocList.Sorted ms)
    (h : List.Forall₂ (fun m w => m.1 = w.1 ∧ ValidUtf8 m.1 ∧ Spells room (stringify m.2) w.2)
      ms ws) : Spells (room + 1) (stringify (.object ms)) (.object ws) := by
  -- a member is captured with the text that its value was written as
  obtain ⟨members, hmembers, hws, hkeys⟩ : ∃ members : List Member,
      List.Forall₂ (fun m member => MemberText (Spells room) (stringifyMember m) member)
        ms members
      ∧ members.map (fun member => (member.key, member.value)) = ws
      ∧ members.map Member.key = ms.map Prod.fst := by
    clear hsorted
    induction h with
    | nil => exact ⟨[], .nil, rfl, rfl⟩
    | @cons m w ms ws hmw _ ih =>
      obtain ⟨hkey, hvalid, hspells⟩ := hmw
      obtain ⟨members, hmembers, rfl, hkeys⟩ := ih
      refine ⟨⟨m.1, stringify m.2, w.2⟩ :: members, .cons ?_ hmembers, ?_, ?_⟩
      · exact ⟨escapeString m.1, [], [], stringText_escapeString hvalid, by simp [Space],
          by simp [Space], hspells, rfl⟩
      · rw [List.map_cons, hkey]
      · rw [List.map_cons, List.map_cons, hkeys]
  have hbody : BodyText (MemberText (Spells room)) (joinCommas (ms.map stringifyMember)) members :=
    bodyText_joinCommas hmembers
  have hobject : toObject members = ws := by
    rw [← hws]
    refine toObject_of_sorted ?_
    have hkeysSorted : (ms.map Prod.fst).Pairwise (· < ·) :=
      List.pairwise_map.mpr hsorted
    rw [← hkeys] at hkeysSorted
    exact List.pairwise_map.mpr (List.pairwise_map.mp hkeysSorted)
  rw [stringify, stringifyMembers_eq, ← hobject]
  exact .object rfl hbody

/-- **The text of a value spells what it is read back as.** -/
theorem spells_stringify {room : ℕ} {v w : Value} (h : Prints room v w) :
    Spells room (stringify v) w := by
  induction room generalizing v w with
  | zero => exact (atomText_of_prints h (by cases v <;> simp_all [Prints])).spells 0
  | succ room ih =>
    cases v with
    | array vs =>
      obtain ⟨ws, hws, rfl⟩ := h
      exact spells_array (hws.imp (fun _ _ => ih))
    | object ms =>
      obtain ⟨hsorted, ws, hws, rfl⟩ := h
      exact spells_object hsorted (hws.imp (fun _ _ h => ⟨h.1, h.2.1, ih h.2.2⟩))
    | null => exact (atomText_of_prints h (by simp)).spells _
    | bool => exact (atomText_of_prints h (by simp)).spells _
    | number => exact (atomText_of_prints h (by simp)).spells _
    | string => exact (atomText_of_prints h (by simp)).spells _

/-- **What is written within the limits is read back.** -/
theorem parse_stringify {v w : Value} (h : Prints maxJsonNestDepth v w) :
    parse (stringify v) = if (stringify v).length ≤ maxJsonInputBytes then some w else none := by
  split
  · rename_i hlen
    exact parse_eq_some_iff.mpr ⟨hlen, [], stringify v, [], by simp [Space], spells_stringify h,
      by simp [Space], by simp⟩
  · rename_i hlen
    rw [Option.eq_none_iff_forall_ne_some]
    exact fun w' hw' => hlen (parse_eq_some_iff.mp hw').1

/-! ## Members of what was printed -/

/-- Members that are printed are found where they were. -/
theorem find?_of_prints {room : ℕ} {ms ws : List (Bytes × Value)}
    (h : List.Forall₂ (fun m w => m.1 = w.1 ∧ ValidUtf8 m.1 ∧ Prints room m.2 w.2) ms ws)
    (key : Bytes) :
    Option.Rel (Prints room) (AssocList.find? ms key) (AssocList.find? ws key) := by
  induction h with
  | nil => exact .none
  | @cons m w ms ws hmw _ ih =>
    unfold AssocList.find?
    rw [← hmw.1]
    split
    · exact .some hmw.2.2
    · exact ih

/-- A number is printed as a number. -/
theorem exists_of_prints_number {room : ℕ} {n : Number} {v : Value}
    (h : Prints room (.number n) v) : ∃ m, n.Prints m ∧ v = .number m := by
  cases room <;> exact h

/-- A string is printed as itself. -/
theorem eq_of_prints_string {room : ℕ} {s : Bytes} {v : Value}
    (h : Prints room (.string s) v) : v = .string s := by
  cases room <;> exact h.2

/-- The string under a key, in what was printed. -/
theorem getString_of_rel {room : ℕ} {s : Bytes} {ws : List (Bytes × Value)} {key : Bytes}
    (h : Option.Rel (Prints room) (some (.string s)) (AssocList.find? ws key)) :
    (Value.object ws).getString key = some s := by
  unfold Value.getString
  rw [Value.find_object]
  cases hfind : AssocList.find? ws key with
  | none => rw [hfind] at h; cases h
  | some v =>
    rw [hfind] at h
    cases h with
    | some hprints => rw [eq_of_prints_string hprints]

/-- A list whose elements are all related to something is related to a list. -/
theorem exists_forall₂ {α β : Type} {R : α → β → Prop} {as : List α}
    (h : ∀ a ∈ as, ∃ b, R a b) : ∃ bs, List.Forall₂ R as bs := by
  induction as with
  | nil => exact ⟨[], .nil⟩
  | cons a as ih =>
    obtain ⟨b, hb⟩ := h a List.mem_cons_self
    obtain ⟨bs, hbs⟩ := ih (fun a' ha' => h a' (List.mem_cons_of_mem _ ha'))
    exact ⟨b :: bs, .cons hb hbs⟩

/-- An object is printed when its members are. -/
theorem exists_prints_object {room : ℕ} {ms : List (Bytes × Value)} (hsorted : AssocList.Sorted ms)
    (h : ∀ m ∈ ms, m.1.all (· < 0x80) = true ∧ ∃ v, Prints room m.2 v) :
    ∃ v, Prints (room + 1) (.object ms) v := by
  have hmembers : ∀ m ∈ ms, ∃ w : Bytes × Value,
      m.1 = w.1 ∧ ValidUtf8 m.1 ∧ Prints room m.2 w.2 := by
    intro m hm
    obtain ⟨hkey, v, hv⟩ := h m hm
    exact ⟨(m.1, v), rfl, .of_all_ascii hkey, hv⟩
  obtain ⟨ws, hws⟩ := exists_forall₂ hmembers
  exact ⟨.object ws, hsorted, ws, hws, rfl⟩

/-- A valid string is printed. -/
theorem exists_prints_string (room : ℕ) {s : Bytes} (hs : ValidUtf8 s) :
    ∃ v, Prints room (.string s) v := by
  refine ⟨.string s, ?_⟩
  cases room <;> exact ⟨hs, rfl⟩

end AzooKey.Ipc.Json

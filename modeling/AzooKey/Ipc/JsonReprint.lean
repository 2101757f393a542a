import AzooKey.Ipc.JsonPrint

/-!
# Writing what was read

A value that was read from a text is written as a text of its own: numbers
keep their spelling, strings are escaped anew, whitespace and the later ones of
duplicate keys are gone. The text never gets longer, so that it is read
again under the same limits, and it is read as the same value.

A member that `ParseWithRawMember` captures is a piece of the text, and that
piece is a text of the member.
-/

namespace AzooKey.Ipc.Json

/-! ## No text gets longer -/

/-- A raw octet of a string is written as it is. -/
theorem escapeByte_of_raw : ∀ c : UInt8, 0x20 ≤ c → c ≠ 0x22 → c ≠ 0x5c → escapeByte c = [c] := by
  decide +kernel

/-- An octet takes at most the place of an escape by four digits. -/
theorem length_escapeByte_le : ∀ c : UInt8, (escapeByte c).length ≤ 6 := by decide +kernel

/-- What a letter escapes is escaped by a letter again, or not at all. -/
theorem length_escapeByte_of_letter {esc c : UInt8} (h : letterEscape esc = some c) :
    (escapeByte c).length ≤ 2 := by
  unfold letterEscape at h
  split_ifs at h <;> cases h <;> decide

/-- Octets from `0x80` on are written as they are. -/
theorem escapeString_of_le {text : Bytes} (h : ∀ c ∈ text, 0x80 ≤ c) : escapeString text = text := by
  unfold escapeString
  rw [List.flatMap_congr (fun c hc => escapeByte_of_le (h c hc)), List.flatMap_singleton']

/-- The octets after the lead of a sequence lie from `0x80` on. -/
theorem le_of_isScalar {c : UInt8} {tail : Bytes} (h : isScalar (c :: tail) = true) :
    ∀ b ∈ tail, 0x80 ≤ b := by
  intro b hb
  have htrailing := isTrailing_of_isScalar h b hb
  simp only [isTrailing, Bool.and_eq_true, decide_eq_true_eq] at htrailing
  exact htrailing.1

/-- **A scalar takes at most the place of an escape by four digits.** -/
theorem length_escapeString_of_isScalar {s : Bytes} (h : isScalar s = true) :
    (escapeString s).length ≤ 6 := by
  obtain ⟨c, tail, rfl⟩ := List.exists_cons_of_ne_nil (ne_nil_of_isScalar h)
  have htail := escapeString_of_le (le_of_isScalar h)
  have hsplit : escapeString (c :: tail) = escapeByte c ++ escapeString tail := rfl
  rw [hsplit, htail, List.length_append]
  have hlen := length_of_isScalar h
  by_cases hc : c < 0x80
  · have hzero : tail.length = 0 := by
      rw [scalarLength, if_pos hc, List.length_cons] at hlen
      omega
    have := length_escapeByte_le c
    omega
  · have hfour : tail.length ≤ 3 := by
      rcases isScalar_cases h with ⟨a, heq, -⟩ | ⟨a, b, heq, -⟩ | ⟨a, b, b', heq, -⟩ |
        ⟨a, b, b', b'', heq, -⟩
      all_goals
        obtain ⟨-, rfl⟩ := List.cons.inj heq
        simp
    rw [escapeByte_of_le (not_lt.mp hc), List.length_singleton]
    omega

/-- Four digits are four octets. -/
theorem length_of_readHexCodepoint {digits : Bytes} {codepoint : ℕ}
    (h : readHexCodepoint digits = some (codepoint, [])) : digits.length = 4 := by
  unfold readHexCodepoint at h
  split at h
  · split at h
    · cases h
      rfl
    · cases h
  · cases h

/-- **No character gets longer.** -/
theorem UnitText.length_le {unit character : Bytes} (h : UnitText unit character) :
    (escapeString character).length ≤ unit.length := by
  cases h with
  | @raw c tail hscalar hc hquote hslash =>
    have htail := escapeString_of_le (le_of_isScalar hscalar)
    have hsplit : escapeString (c :: tail) = escapeByte c ++ escapeString tail := rfl
    rw [hsplit, htail, escapeByte_of_raw c hc hquote hslash]
    exact le_rfl
  | @letter esc c hletter =>
    have hsplit : escapeString [c] = escapeByte c := List.flatMap_singleton _ _
    rw [hsplit]
    exact length_escapeByte_of_letter hletter
  | unicode hdigits hbytes =>
    refine (length_escapeString_of_isScalar (isScalar_of_appendUtf8 hbytes)).trans ?_
    rw [List.length_cons, List.length_cons, length_of_readHexCodepoint hdigits]
  | pair hdigits _ _ _ _ _ hbytes =>
    refine (length_escapeString_of_isScalar (isScalar_of_appendUtf8 hbytes)).trans ?_
    rw [List.length_cons, List.length_cons, List.length_append, length_of_readHexCodepoint hdigits]
    omega

/-- **No string gets longer.** -/
theorem StringText.length_le {text denoted : Bytes} (h : StringText text denoted) :
    (escapeString denoted).length ≤ text.length := by
  induction h with
  | nil => exact le_rfl
  | @cons unit character text denoted hunit _ ih =>
    have hsplit : escapeString (character ++ denoted) = escapeString character ++ escapeString denoted :=
      List.flatMap_append
    rw [hsplit, List.length_append, List.length_append]
    exact Nat.add_le_add hunit.length_le ih

/-- The place that texts take, each with a comma. -/
def spread (texts : List Bytes) : ℕ := (texts.map (fun t => t.length + 1)).sum

/-- Texts with commas between them have one comma less. -/
theorem length_joinCommas (texts : List Bytes) : (joinCommas texts).length = spread texts - 1 := by
  induction texts with
  | nil => rfl
  | cons text texts ih =>
    cases texts with
    | nil => simp [joinCommas, spread]
    | cons text' texts =>
      have hpos : 1 ≤ spread (text' :: texts) := by
        rw [spread, List.map_cons, List.sum_cons]
        omega
      rw [joinCommas, List.length_append, List.length_cons, ih]
      · show text.length + (spread (text' :: texts) - 1 + 1)
          = text.length + 1 + spread (text' :: texts) - 1
        omega
      · simp

/-- **No list of items gets longer.** -/
theorem BodyText.spread_le {α : Type} {Item : Bytes → α → Prop} (print : α → Bytes)
    (hprint : ∀ t a, Item t a → (print a).length ≤ t.length) {body : Bytes} {items : List α}
    (h : BodyText Item body items) : spread (items.map print) ≤ body.length + 1 := by
  rcases h with ⟨-, rfl⟩ | h
  · exact Nat.zero_le _
  · induction h with
    | @last space text after a _ hitem _ =>
      have := hprint text a hitem
      simp only [spread, List.map_cons, List.map_nil, List.sum_cons, List.sum_nil,
        List.length_append]
      omega
    | @more space text after rest a items _ hitem _ _ ih =>
      have := hprint text a hitem
      have hcons : spread ((a :: items).map print)
          = (print a).length + 1 + spread (items.map print) := rfl
      rw [hcons]
      simp only [List.length_append, List.length_cons]
      omega

/-- An entry more takes at most its own place. -/
theorem spread_emplace_le (print : Bytes × Value → Bytes) (key : Bytes) (v : Value)
    (object : List (Bytes × Value)) :
    spread ((AssocList.emplace key v object).map print)
      ≤ spread (object.map print) + ((print (key, v)).length + 1) := by
  induction object with
  | nil => simp [AssocList.emplace, AssocList.insertWith, spread]
  | cons e object ih =>
    have hcons : ∀ (e : Bytes × Value) (l : List (Bytes × Value)), spread ((e :: l).map print)
        = (print e).length + 1 + spread (l.map print) := fun _ _ => rfl
    unfold AssocList.emplace AssocList.insertWith
    split_ifs
    · rw [hcons, hcons]
      omega
    · show spread ((e :: object).map print) ≤ _
      omega
    · rw [hcons, hcons]
      unfold AssocList.emplace at ih
      omega

/-- **The entries of an object take no more place than its members.** -/
theorem spread_toObject_le (print : Bytes × Value → Bytes) (members : List Member) :
    spread ((toObject members).map print)
      ≤ spread (members.map (fun m => print (m.key, m.value))) := by
  have hfold : ∀ (members : List Member) (object : List (Bytes × Value)),
      spread ((members.foldl (fun object m => AssocList.emplace m.key m.value object)
          object).map print)
        ≤ spread (object.map print) + spread (members.map (fun m => print (m.key, m.value))) := by
    intro members
    induction members with
    | nil => intro object; exact le_rfl
    | cons m members ih =>
      intro object
      rw [List.foldl_cons]
      refine (ih _).trans ?_
      have hcons : spread ((m :: members).map (fun m => print (m.key, m.value)))
          = (print (m.key, m.value)).length + 1
            + spread (members.map (fun m => print (m.key, m.value))) := rfl
      have hemplace := spread_emplace_le print m.key m.value object
      rw [hcons]
      omega
  refine (hfold members []).trans ?_
  rw [List.map_nil]
  exact (Nat.zero_add _).le

/-- Nothing gets longer over values that do not. -/
theorem ValueText.length_le {Inner : Option (Bytes → Value → Prop)}
    (h : ∀ Item ∈ Inner, ∀ t v, Item t v → (stringify v).length ≤ t.length) {text : Bytes}
    {v : Value} (hvalue : ValueText Inner text v) : (stringify v).length ≤ text.length := by
  cases hvalue with
  | atom hatom =>
    cases hatom with
    | literal hl =>
      simp only [literals, List.mem_cons, List.not_mem_nil, or_false] at hl
      rcases hl with rfl | rfl | rfl <;> rw [stringify] <;> exact le_rfl
    | @number n value _ =>
      rw [stringify, stringifyNumber, if_pos n.text_ne_nil]
    | @string body s hbody =>
      rw [stringify]
      simp only [List.length_cons, List.length_append, List.length_nil]
      have := hbody.length_le
      omega
  | @array Item body elements hInner hbody =>
    have hspread := hbody.spread_le stringify (h Item hInner)
    rw [stringify, stringifyElements_eq]
    simp only [List.length_cons, List.length_append, length_joinCommas, List.length_nil]
    omega
  | @object Item body members hInner hbody =>
    have hmember : ∀ (t : Bytes) (m : Member), MemberText Item t m →
        (stringifyMember (m.key, m.value)).length ≤ t.length := by
      rintro t m ⟨keyText, space, space', hkey, -, -, hitem, rfl⟩
      have hkeyLength := hkey.length_le
      have hvalueLength := h Item hInner _ _ hitem
      simp only [stringifyMember, List.length_cons, List.length_append]
      omega
    have hspread := hbody.spread_le (fun m => stringifyMember (m.key, m.value)) hmember
    have hobject := spread_toObject_le stringifyMember members
    rw [stringify, stringifyMembers_eq]
    simp only [List.length_cons, List.length_append, length_joinCommas, List.length_nil]
    omega

/-- **No value gets longer.** -/
theorem Spells.length_le {room : ℕ} {text : Bytes} {v : Value} (h : Spells room text v) :
    (stringify v).length ≤ text.length := by
  induction room generalizing text v with
  | zero => exact ValueText.length_le (by simp) h
  | succ room ih =>
    refine ValueText.length_le (fun Item hItem t v ht => ?_) h
    obtain rfl := Option.some.inj hItem
    exact ih ht

/-! ## What was read is read again -/

/-- The entries of an object are in the order of their keys. -/
theorem sorted_toObject (members : List Member) : AssocList.Sorted (toObject members) := by
  have hfold : ∀ (members : List Member) (object : List (Bytes × Value)),
      AssocList.Sorted object → AssocList.Sorted
        (members.foldl (fun object m => AssocList.emplace m.key m.value object) object) := by
    intro members
    induction members with
    | nil => exact fun _ h => h
    | cons m members ih =>
      intro object h
      rw [List.foldl_cons]
      exact ih _ h.insertWith
  exact hfold members [] List.Pairwise.nil

/-- A value without brackets is read back as itself. -/
theorem AtomText.prints {text : Bytes} {v : Value} (h : AtomText text v) (room : ℕ) :
    Prints room v v := by
  cases h with
  | literal hl =>
    simp only [literals, List.mem_cons, List.not_mem_nil, or_false] at hl
    rcases hl with rfl | rfl | rfl <;> cases room <;> rfl
  | @number n value hvalue =>
    have hprints : (⟨.finite value, n.text⟩ : Number).Prints ⟨.finite value, n.text⟩ := by
      refine ⟨n, value, ?_, hvalue, rfl⟩
      rw [stringifyNumber, if_pos n.text_ne_nil]
    cases room <;> exact ⟨_, hprints, rfl⟩
  | string hbody => cases room <;> exact ⟨hbody.valid, rfl⟩

/-- **A value that was read is read back as itself.** -/
theorem Spells.prints {room : ℕ} {text : Bytes} {v : Value} (h : Spells room text v) :
    Prints room v v := by
  induction room generalizing text v with
  | zero =>
    cases h with
    | atom hatom => exact hatom.prints 0
    | array hInner => cases hInner
    | object hInner => cases hInner
  | succ room ih =>
    cases h with
    | atom hatom => exact hatom.prints _
    | array hInner hbody =>
      obtain rfl := Option.some.inj hInner
      refine ⟨_, List.forall₂_same.mpr (fun v hv => ?_), rfl⟩
      obtain ⟨t, ht⟩ := hbody.exists_text v hv
      exact ih ht
    | @object Item body members hInner hbody =>
      obtain rfl := Option.some.inj hInner
      refine ⟨sorted_toObject members, _, List.forall₂_same.mpr (fun e he => ?_), rfl⟩
      obtain ⟨m, hm, rfl⟩ := mem_toObject he
      obtain ⟨t, keyText, -, -, hkey, -, -, hitem, -⟩ := hbody.exists_text m hm
      exact ⟨rfl, hkey.valid, ih hitem⟩

/-- **What was read is written as a text that is no longer, and that reads as
the same value.** -/
theorem parse_stringify_of_parse {text : Bytes} {v : Value} (h : parse text = some v) :
    (stringify v).length ≤ text.length ∧ parse (stringify v) = some v := by
  obtain ⟨hlen, space, t, after, -, ht, -, rfl⟩ := parse_eq_some_iff.mp h
  have hle : (stringify v).length ≤ (space ++ (t ++ after)).length := by
    refine ht.length_le.trans ?_
    simp only [List.length_append]
    omega
  refine ⟨hle, ?_⟩
  rw [parse_stringify ht.prints, if_pos (hle.trans hlen)]

/-! ## The captured member -/

/-- Every item is a piece of the text. -/
theorem BodyText.exists_slice {α : Type} {Item : Bytes → α → Prop} {body : Bytes} {items : List α}
    (h : BodyText Item body items) :
    ∀ a ∈ items, ∃ before t after, Item t a ∧ body = before ++ (t ++ after) := by
  rcases h with ⟨-, rfl⟩ | h
  · exact fun a ha => absurd ha List.not_mem_nil
  · induction h with
    | @last space text after a _ hitem _ =>
      intro b hb
      rw [List.mem_singleton.mp hb]
      exact ⟨space, text, after, hitem, rfl⟩
    | @more space text after rest a items _ hitem _ _ ih =>
      intro b hb
      rcases List.mem_cons.mp hb with rfl | hb
      · exact ⟨space, text, after ++ 0x2c :: rest, hitem, rfl⟩
      · obtain ⟨before, t, after', ht, rfl⟩ := ih b hb
        exact ⟨space ++ (text ++ (after ++ 0x2c :: before)), t, after', ht, by simp⟩

/-- A text that does not end in whitespace. -/
def NoSpaceEnd (text : Bytes) : Prop := ∀ c ∈ text.getLast?, isWhitespace c = false

/-- A numeral ends in a run of digits. -/
theorem exists_digits_numeral (n : Numeral) :
    ∃ before digits, digits ≠ [] ∧ (∀ c ∈ digits, isDigitByte c = true)
      ∧ n.text = before ++ digits := by
  unfold Numeral.text Numeral.exponentText Numeral.fractionText
  cases n.exponent with
  | some e =>
    refine ⟨n.signText ++ (n.whole ++ ((if n.fraction = [] then [] else 0x2e :: n.fraction)
      ++ e.letter :: e.sign)), e.digits, e.digits_ne, e.isDigit, ?_⟩
    simp [Numeral.Exponent.text]
  | none =>
    by_cases hfraction : n.fraction = []
    · refine ⟨n.signText, n.whole, n.whole_ne_nil, n.whole_isDigit, ?_⟩
      simp [hfraction]
    · refine ⟨n.signText ++ (n.whole ++ [0x2e]), n.fraction, hfraction, n.fraction_isDigit, ?_⟩
      simp [hfraction]

set_option maxRecDepth 10000 in
/-- No value ends in whitespace. -/
theorem ValueText.noSpaceEnd {Inner : Option (Bytes → Value → Prop)} {text : Bytes} {v : Value}
    (h : ValueText Inner text v) : NoSpaceEnd text := by
  have hclosed : ∀ (c : UInt8) (body : Bytes) (closing : UInt8), isWhitespace closing = false →
      NoSpaceEnd (c :: (body ++ [closing])) := by
    intro c body closing hclosing d hd
    rw [← List.cons_append, List.getLast?_append_of_ne_nil _ (List.cons_ne_nil _ _)] at hd
    obtain rfl := Option.some.inj hd
    exact hclosing
  cases h with
  | atom hatom =>
    cases hatom with
    | literal hl =>
      simp only [literals, List.mem_cons, List.not_mem_nil, or_false] at hl
      rcases hl with rfl | rfl | rfl
      · exact fun c hc => by obtain rfl : (0x65 : UInt8) = c := Option.some.inj hc; rfl
      · exact fun c hc => by obtain rfl : (0x65 : UInt8) = c := Option.some.inj hc; rfl
      · exact fun c hc => by obtain rfl : (0x6c : UInt8) = c := Option.some.inj hc; rfl
    | @number n value _ =>
      have key : ∀ c : UInt8, isDigitByte c = true → isWhitespace c = false := by decide
      obtain ⟨before, digits, hne, hdigits, htext⟩ := exists_digits_numeral n
      intro c hc
      rw [htext, List.getLast?_append_of_ne_nil _ hne] at hc
      exact key c (hdigits c (List.mem_of_getLast? hc))
    | string => exact hclosed _ _ _ (by decide)
  | array => exact hclosed _ _ _ (by decide)
  | object => exact hclosed _ _ _ (by decide)

/-- A text of a value one level deeper is one of a whole document. -/
theorem parse_of_spells {text : Bytes} {v : Value} (h : Spells (maxJsonNestDepth - 1) text v)
    (hlen : text.length ≤ maxJsonInputBytes) : parse text = some v := by
  have hnil : Space [] := fun c hc => absurd hc List.not_mem_nil
  have hread := (reads_parseValue (maxJsonNestDepth - 1)).complete hnil h (stops_of_space hnil)
  have hmore := parseValue_extends (maxJsonNestDepth - 1) _ _ hread
  obtain ⟨space, t, hspace, ht, heq⟩ := (reads_parseValue maxJsonNestDepth).sound hmore
  rw [List.nil_append, List.append_nil] at heq
  exact parse_eq_some_iff.mpr ⟨hlen, space, t, [], hspace, ht, hnil, heq⟩

/-- Only a brace opens an object. -/
theorem find_of_readValueAt {inner : Option (Reader Value)} {c : UInt8} {rest : Bytes}
    {r : Value × Bytes} (hc : c ≠ 0x7b) (h : readValueAt inner c rest = some r) (key : Bytes) :
    r.1.find key = none := by
  unfold readValueAt at h
  rw [if_neg hc] at h
  split_ifs at h
  · obtain ⟨inner', -, h⟩ := Option.bind_eq_some_iff.mp h
    obtain ⟨s, -, rfl⟩ := Option.map_eq_some_iff.mp h
    rfl
  · obtain ⟨s, -, rfl⟩ := Option.map_eq_some_iff.mp h
    rfl
  · unfold parseLiteral at h
    obtain ⟨l, hl, rfl⟩ := Option.map_eq_some_iff.mp h
    have hmem := List.mem_of_find?_eq_some hl
    simp only [literals, List.mem_cons, List.not_mem_nil, or_false] at hmem
    rcases hmem with rfl | rfl | rfl <;> rfl
  · obtain ⟨s, -, rfl⟩ := Option.map_eq_some_iff.mp h
    rfl

/-- **The value at the top is read the same way**, and of an object there are
the members. -/
theorem readTop_of_read {text rest : Bytes} {v : Value} (hspace : NoSpace text)
    (hread : (parseValue maxJsonNestDepth).read text = some (v, rest)) (member : Bytes) :
    (readTop member text = some (v, [], rest) ∧ v.find member = none)
      ∨ ∃ body members, text = 0x7b :: (body ++ 0x7d :: rest)
        ∧ BodyText (MemberText (Spells (maxJsonNestDepth - 1))) body members
        ∧ v = .object (toObject members)
        ∧ readTop member text = some (v, rawMember member members, rest) := by
  have hskip : skipWhitespace text = text :=
    skipWhitespace_append (fun c hc => absurd hc List.not_mem_nil) hspace
  have hvalue : readValue (some (parseValue (maxJsonNestDepth - 1))) text = some (v, rest) := hread
  unfold readTop
  unfold readValue at hvalue
  rw [hskip] at hvalue ⊢
  cases text with
  | nil => cases hvalue
  | cons c tail =>
    by_cases hbrace : c = 0x7b
    · -- the members are read by the same call
      dsimp only at hvalue
      unfold readValueAt at hvalue
      rw [if_pos hbrace, Option.bind_some] at hvalue
      obtain ⟨⟨members, rest'⟩, hparse, heq⟩ := Option.map_eq_some_iff.mp hvalue
      cases heq
      obtain ⟨body, hbody, rfl⟩ :=
        (parseBracketed_iff (reads_memberReader (reads_parseValue _)) (Or.inr rfl)).mp hparse
      refine Or.inr ⟨body, members, by rw [hbrace], hbody, rfl, ?_⟩
      dsimp only
      rw [if_pos hbrace, hparse]
      rfl
    · refine Or.inl ⟨?_, find_of_readValueAt hbrace hvalue member⟩
      dsimp only
      rw [if_neg hbrace, hread]
      rfl

/-- **`ParseWithRawMember` reads what `Parse` reads**, and of an object there are
the members. -/
theorem parseWithRawMember_of_parse {text : Bytes} {v : Value} (h : parse text = some v)
    (member : Bytes) :
    (parseWithRawMember text member = some (v, []) ∧ v.find member = none)
      ∨ ∃ before body after members, text = before ++ 0x7b :: (body ++ 0x7d :: after)
        ∧ BodyText (MemberText (Spells (maxJsonNestDepth - 1))) body members
        ∧ v = .object (toObject members)
        ∧ parseWithRawMember text member = some (v, rawMember member members) := by
  obtain ⟨space, -, hspace⟩ := exists_skipWhitespace text
  unfold parse parseDocument at h
  unfold parseWithRawMember parseDocument
  split at h
  · cases h
  · rename_i hlen
    rw [if_neg hlen]
    split at h
    · cases h
    · rename_i value rest hread
      split at h
      · rename_i hend
        cases h
        rcases readTop_of_read (noSpace_skipWhitespace text) hread member with
          ⟨htop, hnone⟩ | ⟨body, members, hbrace, hbody, hv, htop⟩
        · refine Or.inl ⟨?_, hnone⟩
          simp only [htop, Option.map_some, hend, if_true]
        · refine Or.inr ⟨space, body, rest, members, ?_, hbody, hv, ?_⟩
          · rw [← hbrace]
            exact hspace
          · simp only [htop, Option.map_some, hend, if_true]
      · cases h

/-- **Writing and reading again.** What was read is written as a text that is
no longer and reads as the same value, so that writing again changes nothing.
A member is captured exactly when there is one, as a piece of the text without
whitespace around it that reads as the member. -/
theorem stringify_parse {text : Bytes} {v : Value} (h : parse text = some v) :
    (stringify v).length ≤ text.length ∧ parse (stringify v) = some v
      ∧ (parse (stringify v)).map stringify = some (stringify v)
      ∧ ∀ member, ∃ raw, parseWithRawMember text member = some (v, raw)
        ∧ (raw = [] ↔ v.find member = none)
        ∧ ∀ w, v.find member = some w →
          (∃ before after, text = before ++ (raw ++ after)) ∧ NoSpace raw ∧ NoSpaceEnd raw
            ∧ parse raw = some w := by
  obtain ⟨hle, hparse⟩ := parse_stringify_of_parse h
  refine ⟨hle, hparse, by rw [hparse]; rfl, fun member => ?_⟩
  rcases parseWithRawMember_of_parse h member with
    ⟨hraw, hnone⟩ | ⟨before, body, after, members, htext, hbody, rfl, hraw⟩
  · refine ⟨[], hraw, iff_of_true rfl hnone, fun w hw => ?_⟩
    rw [hnone] at hw
    cases hw
  · refine ⟨_, hraw, ?_⟩
    rw [Value.find_object, find?_toObject]
    unfold rawMember
    cases hfind : members.find? (fun m => m.key = member) with
    | none => exact ⟨iff_of_true rfl rfl, fun w hw => by cases hw⟩
    | some m =>
      obtain ⟨before', t, after', ⟨keyText, space, space', -, -, -, hitem, rfl⟩, rfl⟩ :=
        hbody.exists_slice m (List.mem_of_find?_eq_some hfind)
      have hstarts : Starts m.raw := (reads_parseValue (maxJsonNestDepth - 1)).starts hitem
      have hne : m.raw ≠ [] := by
        obtain ⟨c, tail, heq, -⟩ := hstarts
        rw [heq]
        exact List.cons_ne_nil _ _
      have hpiece : ∃ before after, text = before ++ (m.raw ++ after) := by
        refine ⟨before ++ 0x7b :: (before' ++ 0x22 :: (keyText ++ 0x22 :: (space ++ 0x3a :: space'))),
          after' ++ 0x7d :: after, ?_⟩
        rw [htext]
        simp
      refine ⟨iff_of_false hne (by simp), fun w hw => ?_⟩
      obtain rfl : m.value = w := by simpa using hw
      refine ⟨hpiece, ?_, ?_, ?_⟩
      · have := hstarts.noSpace []
        rwa [List.append_nil] at this
      · exact ValueText.noSpaceEnd hitem
      · refine parse_of_spells hitem (le_trans ?_ (parse_eq_some_iff.mp h).1)
        obtain ⟨before, after, heq⟩ := hpiece
        rw [Option.map_some, Option.getD_some, heq]
        simp only [List.length_append]
        omega

/-- An object of one member. -/
theorem parse_oneMember :
    parse (utf8 " \x7b\"a\": true\x7d") = some (.object [(utf8 "a", .bool true)]) := by
  have hnil : Space [] := fun c hc => absurd hc List.not_mem_nil
  have hspace : Space [0x20] := fun c hc => by rw [List.mem_singleton.mp hc]; rfl
  have hunit : UnitText [0x61] [0x61] := .raw (by decide) (by decide) (by decide) (by decide)
  have hkey : StringText (utf8 "a") (utf8 "a") := .cons hunit .nil
  have hvalue : Spells 63 (utf8 "true") (.bool true) :=
    .atom (.literal (l := (utf8 "true", .bool true)) List.mem_cons_self)
  have hmember : MemberText (Spells 63) (utf8 "\"a\": true") ⟨utf8 "a", utf8 "true", .bool true⟩ :=
    ⟨utf8 "a", [], [0x20], hkey, hnil, hspace, hvalue, rfl⟩
  have hobject : Spells 64 (utf8 "\x7b\"a\": true\x7d") (.object [(utf8 "a", .bool true)]) :=
    .object rfl (Or.inr (.last hnil hmember hnil))
  exact parse_eq_some_iff.mpr ⟨by decide, [0x20], _, [], hspace, hobject, hnil, rfl⟩

/-- It is captured as it is spelled. -/
theorem stringify_parse_oneMember :
    parse (stringify (.object [(utf8 "a", .bool true)])) = some (.object [(utf8 "a", .bool true)])
      ∧ ∃ raw, parseWithRawMember (utf8 " \x7b\"a\": true\x7d") (utf8 "a")
          = some (.object [(utf8 "a", .bool true)], raw) ∧ parse raw = some (.bool true) := by
  obtain ⟨-, hparse, -, hmember⟩ := stringify_parse parse_oneMember
  obtain ⟨raw, hraw, -, hfind⟩ := hmember (utf8 "a")
  exact ⟨hparse, raw, hraw, (hfind (.bool true) rfl).2.2.2⟩

end AzooKey.Ipc.Json

import AzooKey.Ipc.JsonTokens

/-!
# The grammar that the JSON reader accepts

The language of the reader, stated on texts: `ItemsText` for what stands
between brackets, and `Spells room text value` for the values that nest at
most `room` levels deep. The readers are shown to accept exactly that: what
they read they were entitled to, and what the grammar derives they read,
whatever follows. `parse_eq_some_iff` puts the pieces together.

A list of items is treated once for arrays and objects. `Reads` says of an
item reader what the list needs to know, and `parseItems_iff` is the loop.
-/

namespace AzooKey.Ipc.Json

/-! ## Whitespace -/

/-- A text of whitespace. -/
def Space (text : Bytes) : Prop := ∀ c ∈ text, isWhitespace c = true

/-- A text that does not start with whitespace. -/
def NoSpace (text : Bytes) : Prop := ∀ c ∈ text.head?, isWhitespace c = false

/-- Whitespace is skipped up to its end. -/
theorem skipWhitespace_append {space text : Bytes} (hspace : Space space) (htext : NoSpace text) :
    skipWhitespace (space ++ text) = text := by
  unfold skipWhitespace
  rw [List.dropWhile_append_of_pos hspace]
  cases text with
  | nil => rfl
  | cons c text => exact List.dropWhile_cons_of_neg (by simp [htext c rfl])

/-- After skipping, there is no whitespace left. -/
theorem noSpace_skipWhitespace (text : Bytes) : NoSpace (skipWhitespace text) := by
  intro c hc
  have h := List.head?_dropWhile_not isWhitespace text
  unfold skipWhitespace at hc
  rw [Option.mem_def.mp hc] at h
  simpa using h

/-- A text is nothing but whitespace when nothing is left. -/
theorem skipWhitespace_eq_nil {text : Bytes} : skipWhitespace text = [] ↔ Space text := by
  unfold skipWhitespace Space
  exact List.dropWhile_eq_nil_iff

/-- Whitespace before whitespace. -/
theorem Space.append {s t : Bytes} (hs : Space s) (ht : Space t) : Space (s ++ t) := by
  intro c hc
  exact (List.mem_append.mp hc).elim (hs c) (ht c)

/-! ## Lists of items -/

/-- **Items between brackets**, separated by commas, with whitespace around
them. -/
inductive ItemsText {α : Type} (Item : Bytes → α → Prop) : Bytes → List α → Prop
  | last {space text after : Bytes} {a : α} : Space space → Item text a → Space after →
      ItemsText Item (space ++ (text ++ after)) [a]
  | more {space text after rest : Bytes} {a : α} {items : List α} : Space space → Item text a →
      Space after → ItemsText Item rest items →
      ItemsText Item (space ++ (text ++ (after ++ 0x2c :: rest))) (a :: items)

/-- What stands between brackets: items, or whitespace. -/
def BodyText {α : Type} (Item : Bytes → α → Prop) (body : Bytes) (items : List α) : Prop :=
  Space body ∧ items = [] ∨ ItemsText Item body items

/-- A text whose first byte is neither whitespace nor a closing bracket. -/
def Starts (text : Bytes) : Prop :=
  ∃ c tail, text = c :: tail ∧ isWhitespace c = false ∧ c ≠ 0x5d ∧ c ≠ 0x7d

/-- **A reader of a grammar.** It reads what the grammar derives, after
whitespace and before anything that does not continue a number, and nothing
else. -/
structure Reads {α : Type} (item : Reader α) (Item : Bytes → α → Prop) : Prop where
  sound : ∀ {text rest : Bytes} {a : α}, item.read text = some (a, rest) →
    ∃ space t, Space space ∧ Item t a ∧ text = space ++ (t ++ rest)
  complete : ∀ {space t rest : Bytes} {a : α}, Space space → Item t a → Stops rest →
    item.read (space ++ (t ++ rest)) = some (a, rest)
  starts : ∀ {t : Bytes} {a : α}, Item t a → Starts t

/-- A text that starts does not start with whitespace. -/
theorem Starts.noSpace {text : Bytes} (h : Starts text) (rest : Bytes) : NoSpace (text ++ rest) := by
  obtain ⟨c, tail, rfl, hc, -⟩ := h
  intro d hd
  obtain rfl := Option.some.inj (by simpa using hd)
  exact hc

set_option maxRecDepth 10000 in
/-- A closing bracket, a comma and whitespace do not continue a number. -/
theorem stops_append {space rest : Bytes} (hspace : Space space) {c : UInt8}
    (hc : c = 0x2c ∨ c = 0x5d ∨ c = 0x7d) : Stops (space ++ c :: rest) := by
  have hws : ∀ d : UInt8, isWhitespace d = true →
      isDigitByte d = false ∧ d ≠ 0x2e ∧ d ≠ 0x65 ∧ d ≠ 0x45 := by decide
  cases space with
  | nil => rcases hc with rfl | rfl | rfl <;> simp [Stops, NoDigit, isDigitByte]
  | cons d space =>
    have hd := hws d (hspace d (by simp))
    exact ⟨by simpa [NoDigit] using hd.1, by simpa using hd.2⟩

set_option maxRecDepth 10000 in
/-- Whitespace at the end of the text does not continue a number. -/
theorem stops_of_space {space : Bytes} (hspace : Space space) : Stops space := by
  have hws : ∀ d : UInt8, isWhitespace d = true →
      isDigitByte d = false ∧ d ≠ 0x2e ∧ d ≠ 0x65 ∧ d ≠ 0x45 := by decide
  cases space with
  | nil => simp [Stops, NoDigit]
  | cons d space =>
    have hd := hws d (hspace d (by simp))
    exact ⟨by simpa [NoDigit] using hd.1, by simpa using hd.2⟩

/-- A comma or a closing bracket is no whitespace. -/
theorem noSpace_cons {c : UInt8} (hc : c = 0x2c ∨ c = 0x5d ∨ c = 0x7d) (rest : Bytes) :
    NoSpace (c :: rest) := by
  rcases hc with rfl | rfl | rfl <;> simp [NoSpace, isWhitespace]

/-- A comma separates. -/
theorem separator_comma {closing : UInt8} {space : Bytes} (hspace : Space space) (rest : Bytes) :
    separator closing (space ++ 0x2c :: rest) = some (true, rest) := by
  unfold separator
  rw [skipWhitespace_append hspace (noSpace_cons (Or.inl rfl) rest)]
  rfl

/-- A closing bracket ends the list. -/
theorem separator_closing {closing : UInt8} (hclosing : closing = 0x5d ∨ closing = 0x7d)
    {space : Bytes} (hspace : Space space) (rest : Bytes) :
    separator closing (space ++ closing :: rest) = some (false, rest) := by
  unfold separator
  rw [skipWhitespace_append hspace (noSpace_cons (Or.inr hclosing) rest)]
  rcases hclosing with rfl | rfl <;> rfl

section Items

variable {α : Type} {item : Reader α} {Item : Bytes → α → Prop} {closing : UInt8}

/-- **The loop reads exactly the items up to the closing bracket.** -/
theorem parseItems_iff (h : Reads item Item) (hclosing : closing = 0x5d ∨ closing = 0x7d)
    {text rest : Bytes} {items : List α} :
    parseItems item closing text = some (items, rest)
      ↔ ∃ body, ItemsText Item body items ∧ text = body ++ closing :: rest := by
  constructor
  · intro hparse
    induction hlen : text.length using Nat.strong_induction_on generalizing text items with
    | _ n ih =>
      obtain ⟨a, rest₁, rest₂, hread, hcases⟩ := parseItems_eq_some hparse
      obtain ⟨space, t, hspace, hitem, htext⟩ := h.sound hread
      obtain ⟨after, hafter, hrest₁⟩ := exists_skipWhitespace rest₁
      rcases hcases with ⟨hsep, heq⟩ | ⟨hsep, s, hs, heq⟩
      · cases heq
        rw [separator_eq_some hsep] at hrest₁
        refine ⟨space ++ (t ++ after), .last hspace hitem hafter, ?_⟩
        rw [htext, hrest₁]
        simp
      · cases heq
        have hlt := (consumes_separator hsep).length_lt.trans (item.consumes hread).length_lt
        obtain ⟨body, hbody, hrest₂⟩ := ih _ (hlen ▸ hlt) hs rfl
        rw [separator_eq_some hsep] at hrest₁
        refine ⟨space ++ (t ++ (after ++ 0x2c :: body)), .more hspace hitem hafter hbody, ?_⟩
        rw [htext, hrest₁, hrest₂]
        simp
  · rintro ⟨body, hbody, rfl⟩
    induction hbody with
    | @last space t after a hspace hitem hafter =>
      rw [List.append_assoc, List.append_assoc]
      exact parseItems_last (h.complete hspace hitem (stops_append hafter (Or.inr hclosing)))
        (separator_closing hclosing hafter rest)
    | @more space t after tail a items hspace hitem hafter _ ih =>
      have hassoc : space ++ (t ++ (after ++ 0x2c :: tail)) ++ closing :: rest
          = space ++ (t ++ (after ++ 0x2c :: (tail ++ closing :: rest))) := by simp
      rw [hassoc, parseItems_more (h.complete hspace hitem (stops_append hafter (Or.inl rfl)))
        (separator_comma hafter _), ih]
      rfl

/-- Whitespace before items. -/
theorem ItemsText.space_append {space body : Bytes} {items : List α} (hspace : Space space)
    (h : ItemsText Item body items) : ItemsText Item (space ++ body) items := by
  cases h with
  | last hspace' hitem hafter =>
    rw [← List.append_assoc]
    exact .last (hspace.append hspace') hitem hafter
  | more hspace' hitem hafter hrest =>
    rw [← List.append_assoc]
    exact .more (hspace.append hspace') hitem hafter hrest

/-- Items without the whitespace before them. -/
theorem ItemsText.exists_starts {body : Bytes} {items : List α} (h : ItemsText Item body items)
    (hstarts : ∀ {t a}, Item t a → Starts t) :
    ∃ space body', Space space ∧ Starts body' ∧ ItemsText Item body' items
      ∧ body = space ++ body' := by
  have hnil : Space [] := by simp [Space]
  cases h with
  | @last space text after a hspace hitem hafter =>
    obtain ⟨c, tail, rfl, hc⟩ := hstarts hitem
    have hbody := ItemsText.last hnil hitem hafter
    rw [List.nil_append] at hbody
    exact ⟨space, _, hspace, ⟨c, _, List.cons_append, hc⟩, hbody, rfl⟩
  | @more space text after rest a items hspace hitem hafter hrest =>
    obtain ⟨c, tail, rfl, hc⟩ := hstarts hitem
    have hbody := ItemsText.more hnil hitem hafter hrest
    rw [List.nil_append] at hbody
    exact ⟨space, _, hspace, ⟨c, _, List.cons_append, hc⟩, hbody, rfl⟩

/-- **What stands between brackets is read.** -/
theorem parseBracketed_iff (h : Reads item Item) (hclosing : closing = 0x5d ∨ closing = 0x7d)
    {text rest : Bytes} {items : List α} :
    parseBracketed item closing text = some (items, rest)
      ↔ ∃ body, BodyText Item body items ∧ text = body ++ closing :: rest := by
  unfold parseBracketed
  dsimp only
  constructor
  · intro hparse
    obtain ⟨space, hspace, htext⟩ := exists_skipWhitespace text
    split at hparse
    · rename_i hhead
      cases hparse
      refine ⟨space, Or.inl ⟨hspace, rfl⟩, ?_⟩
      rw [← List.eq_cons_of_mem_head? hhead]
      exact htext
    · obtain ⟨body, hbody, hskip⟩ := (parseItems_iff h hclosing).mp hparse
      refine ⟨space ++ body, Or.inr (hbody.space_append hspace), ?_⟩
      rw [List.append_assoc, ← hskip]
      exact htext
  · rintro ⟨body, ⟨hspace, rfl⟩ | hbody, rfl⟩
    · rw [skipWhitespace_append hspace (noSpace_cons (Or.inr hclosing) rest), List.head?_cons,
        if_pos rfl, List.tail_cons]
    · obtain ⟨space, body', hspace, hstarts, hbody', rfl⟩ := hbody.exists_starts h.starts
      rw [List.append_assoc, skipWhitespace_append hspace (hstarts.noSpace _)]
      obtain ⟨c, tail, rfl, -, hne⟩ := hstarts
      rw [if_neg]
      · exact (parseItems_iff h hclosing).mpr ⟨_, hbody', rfl⟩
      · rw [List.cons_append, List.head?_cons]
        intro hc
        obtain rfl := Option.some.inj hc
        rcases hclosing with h | h
        · exact hne.1 h
        · exact hne.2 h

end Items

/-! ## Values -/

/-- A member of an object. -/
def MemberText (Item : Bytes → Value → Prop) (text : Bytes) (m : Member) : Prop :=
  ∃ body space space', StringText body m.key ∧ Space space ∧ Space space' ∧ Item m.raw m.value
    ∧ text = 0x22 :: (body ++ 0x22 :: (space ++ 0x3a :: (space' ++ m.raw)))

/-- A whitespace that no whitespace starts with is empty. -/
theorem Space.eq_nil {space text : Bytes} (hspace : Space space) (h : NoSpace (space ++ text)) :
    space = [] := by
  cases space with
  | nil => rfl
  | cons c space =>
    have h₁ := hspace c (by simp)
    have h₂ := h c rfl
    rw [h₁] at h₂
    cases h₂

/-- **The reader of a member accepts its grammar.** -/
theorem reads_memberReader {inner : Reader Value} {Item : Bytes → Value → Prop}
    (h : Reads inner Item) : Reads (memberReader inner) (MemberText Item) where
  sound := by
    intro text rest m hread
    obtain ⟨space, hspace, htext⟩ := exists_skipWhitespace text
    change readMember inner text = some (m, rest) at hread
    unfold readMember at hread
    split at hread
    · cases hread
    · rename_i key rest₁ hkey
      obtain ⟨body, hbody, hkeyText⟩ := parseString_eq_some_iff.mp hkey
      obtain ⟨space₁, hspace₁, hrest₁⟩ := exists_skipWhitespace rest₁
      split at hread
      · cases hread
      · rename_i c rest₂ hskip
        split at hread
        · rename_i hc
          obtain ⟨⟨v, rest₃⟩, hv, heq⟩ := Option.map_eq_some_iff.mp hread
          obtain ⟨hm, rfl⟩ := Prod.mk.inj heq
          obtain ⟨space₂, hspace₂, hrest₂⟩ := exists_skipWhitespace rest₂
          obtain ⟨space₃, raw, hspace₃, hitem, hstart⟩ := h.sound hv
          have hnil : space₃ = [] :=
            hspace₃.eq_nil (hstart ▸ noSpace_skipWhitespace rest₂)
          subst hnil
          rw [List.nil_append] at hstart
          have hraw : m = ⟨key, raw, v⟩ := by
            rw [← hm, hstart]
            simp
          refine ⟨space, _, hspace, ⟨body, space₁, space₂, ?_, hspace₁, hspace₂, ?_, rfl⟩, ?_⟩
          · rw [hraw]; exact hbody
          · rw [hraw]; exact hitem
          · rw [htext, hkeyText, hrest₁, hskip, hc, hrest₂, hstart, hraw]
            simp
        · cases hread
  complete := by
    rintro space t rest m hspace ⟨body, space₁, space₂, hbody, hspace₁, hspace₂, hitem, rfl⟩ hrest
    change readMember inner _ = some (m, rest)
    unfold readMember
    have hquote : NoSpace (0x22 :: (body ++ 0x22 :: (space₁ ++ 0x3a :: (space₂ ++ m.raw)))
        ++ rest) := by simp [NoSpace, isWhitespace]
    have hcolon : NoSpace (0x3a :: (space₂ ++ (m.raw ++ rest))) := by simp [NoSpace, isWhitespace]
    have hkey : parseString (0x22 :: (body ++ 0x22 :: (space₁ ++ 0x3a :: (space₂ ++ m.raw)))
        ++ rest) = some (m.key, space₁ ++ 0x3a :: (space₂ ++ (m.raw ++ rest))) :=
      parseString_eq_some_iff.mpr ⟨body, hbody, by simp⟩
    have hnil : Space [] := by simp [Space]
    have hread := h.complete hnil hitem hrest
    rw [List.nil_append] at hread
    rw [skipWhitespace_append hspace hquote]
    simp only [hkey]
    rw [skipWhitespace_append hspace₁ hcolon]
    simp only [if_true]
    rw [skipWhitespace_append hspace₂ ((h.starts hitem).noSpace rest), hread]
    simp
  starts := by
    rintro t m ⟨body, space₁, space₂, -, -, -, -, rfl⟩
    exact ⟨0x22, _, rfl, by decide, by decide, by decide⟩

/-- The values without brackets. -/
inductive AtomText : Bytes → Value → Prop
  | literal {l : Bytes × Value} : l ∈ literals → AtomText l.1 l.2
  | number {n : Numeral} {value : Binary64} : parseFiniteDouble n.text = some value →
      AtomText n.text (.number ⟨.finite value, n.text⟩)
  | string {body text : Bytes} : StringText body text →
      AtomText (0x22 :: (body ++ [0x22])) (.string text)

/-- The values over a grammar of the values one level deeper, if there is
one. -/
inductive ValueText (Inner : Option (Bytes → Value → Prop)) : Bytes → Value → Prop
  | atom {text : Bytes} {v : Value} : AtomText text v → ValueText Inner text v
  | array {Item : Bytes → Value → Prop} {body : Bytes} {elements : List Value} :
      Inner = some Item → BodyText Item body elements →
      ValueText Inner (0x5b :: (body ++ [0x5d])) (.array elements)
  | object {Item : Bytes → Value → Prop} {body : Bytes} {members : List Member} :
      Inner = some Item → BodyText (MemberText Item) body members →
      ValueText Inner (0x7b :: (body ++ [0x7d])) (.object (toObject members))

/-- **The texts of a value whose arrays and objects nest at most `room`
deep.** -/
def Spells : ℕ → Bytes → Value → Prop
  | 0 => ValueText none
  | room + 1 => ValueText (some (Spells room))

/-- The first byte of a numeral. -/
theorem numeral_text_head (n : Numeral) :
    ∃ c tail, n.text = c :: tail ∧ (c = 0x2d ∨ isDigitByte c = true) := by
  obtain ⟨c, tail, hwhole⟩ := List.exists_cons_of_ne_nil n.whole_ne_nil
  unfold Numeral.text Numeral.signText
  cases n.negative with
  | true => exact ⟨_, _, rfl, Or.inl rfl⟩
  | false =>
    rw [hwhole]
    exact ⟨c, _, rfl, Or.inr (n.whole_isDigit c (by simp [hwhole]))⟩

set_option maxRecDepth 10000 in
/-- A byte that opens a number opens nothing else. -/
theorem readValueAt_number {inner : Option (Reader Value)} {c : UInt8}
    (hc : c = 0x2d ∨ isDigitByte c = true) (rest : Bytes) :
    readValueAt inner c rest = (parseNumber (c :: rest)).map (fun r => (.number r.1, r.2)) := by
  have key : ∀ c : UInt8, c = 0x2d ∨ isDigitByte c = true →
      c ≠ 0x7b ∧ c ≠ 0x5b ∧ c ≠ 0x22 ∧ (c = 0x74 || c = 0x66 || c = 0x6e) = false
        ∧ (c = 0x2d || (0x30 ≤ c && c ≤ 0x39)) = true := by decide
  obtain ⟨h₁, h₂, h₃, h₄, h₅⟩ := key c hc
  unfold readValueAt
  rw [if_neg h₁, if_neg h₂, if_neg h₃, if_neg (by rw [h₄]; exact Bool.false_ne_true), if_pos h₅]

/-- A literal is read. -/
theorem readValueAt_literal (inner : Option (Reader Value)) {l : Bytes × Value}
    (hl : l ∈ literals) (rest : Bytes) :
    ∃ c tail, l.1 = c :: tail ∧ isWhitespace c = false ∧ c ≠ 0x5d ∧ c ≠ 0x7d
      ∧ readValueAt inner c (tail ++ rest) = some (l.2, rest) := by
  simp only [literals, List.mem_cons, List.not_mem_nil, or_false] at hl
  rcases hl with rfl | rfl | rfl
  · exact ⟨0x74, utf8 "rue", rfl, by decide, by decide, by decide, rfl⟩
  · exact ⟨0x66, utf8 "alse", rfl, by decide, by decide, by decide, rfl⟩
  · exact ⟨0x6e, utf8 "ull", rfl, by decide, by decide, by decide, rfl⟩

set_option maxRecDepth 10000 in
/-- Every value starts. -/
theorem ValueText.starts {Inner : Option (Bytes → Value → Prop)} {text : Bytes} {v : Value}
    (h : ValueText Inner text v) : Starts text := by
  cases h with
  | atom hatom =>
    cases hatom with
    | literal hl =>
      obtain ⟨c, tail, heq, hc, hc', hc'', -⟩ := readValueAt_literal none hl []
      exact ⟨c, tail, heq, hc, hc', hc''⟩
    | @number n _ _ =>
      obtain ⟨c, tail, heq, hc⟩ := numeral_text_head n
      have key : ∀ c : UInt8, c = 0x2d ∨ isDigitByte c = true →
          isWhitespace c = false ∧ c ≠ 0x5d ∧ c ≠ 0x7d := by decide
      exact ⟨c, tail, heq, key c hc⟩
    | string => exact ⟨0x22, _, rfl, by decide, by decide, by decide⟩
  | array => exact ⟨0x5b, _, rfl, by decide, by decide, by decide⟩
  | object => exact ⟨0x7b, _, rfl, by decide, by decide, by decide⟩

/-- A reader of the values one level deeper, if there is one, accepts its
grammar. -/
def ReadsInner (inner : Option (Reader Value)) (Inner : Option (Bytes → Value → Prop)) : Prop :=
  inner = none ∧ Inner = none ∨ ∃ r Item, inner = some r ∧ Inner = some Item ∧ Reads r Item

section Value

variable {inner : Option (Reader Value)} {Inner : Option (Bytes → Value → Prop)}

/-- **What is read as a value is one.** -/
theorem valueText_of_readValue (h : ReadsInner inner Inner) {text rest : Bytes} {v : Value}
    (hread : readValue inner text = some (v, rest)) :
    ∃ space t, Space space ∧ ValueText Inner t v ∧ text = space ++ (t ++ rest) := by
  obtain ⟨space, hspace, htext⟩ := exists_skipWhitespace text
  unfold readValue at hread
  suffices hvalue : ∃ t, ValueText Inner t v ∧ skipWhitespace text = t ++ rest by
    obtain ⟨t, ht, heq⟩ := hvalue
    exact ⟨space, t, hspace, ht, by rw [← heq]; exact htext⟩
  split at hread
  · cases hread
  · rename_i c tail hskip
    rw [hskip]
    unfold readValueAt at hread
    split_ifs at hread with h₁ h₂ h₃ h₄ h₅
    · obtain ⟨r, hr, hobject⟩ := Option.bind_eq_some_iff.mp hread
      rcases h with ⟨rfl, -⟩ | ⟨r', Item, rfl, rfl, hreads⟩
      · cases hr
      · cases hr
        obtain ⟨⟨members, rest'⟩, hparse, heq⟩ := Option.map_eq_some_iff.mp hobject
        cases heq
        obtain ⟨body, hbody, rfl⟩ :=
          (parseBracketed_iff (reads_memberReader hreads) (Or.inr rfl)).mp hparse
        exact ⟨_, .object rfl hbody, by simp [h₁]⟩
    · obtain ⟨r, hr, harray⟩ := Option.bind_eq_some_iff.mp hread
      rcases h with ⟨rfl, -⟩ | ⟨r', Item, rfl, rfl, hreads⟩
      · cases hr
      · cases hr
        obtain ⟨⟨elements, rest'⟩, hparse, heq⟩ := Option.map_eq_some_iff.mp harray
        cases heq
        obtain ⟨body, hbody, rfl⟩ := (parseBracketed_iff hreads (Or.inl rfl)).mp hparse
        exact ⟨_, .array rfl hbody, by simp [h₂]⟩
    · obtain ⟨⟨s, rest'⟩, hparse, heq⟩ := Option.map_eq_some_iff.mp hread
      cases heq
      obtain ⟨body, hbody, heq⟩ := parseString_eq_some_iff.mp hparse
      exact ⟨_, .atom (.string hbody), by rw [heq]; simp⟩
    · unfold parseLiteral at hread
      obtain ⟨l, hl, heq⟩ := Option.map_eq_some_iff.mp hread
      cases heq
      have hpre : l.1 <+: c :: tail := List.isPrefixOf_iff_prefix.mp (by simpa using List.find?_some hl)
      obtain ⟨tail', htail⟩ := hpre
      refine ⟨l.1, .atom (.literal (List.mem_of_find?_eq_some hl)), ?_⟩
      rw [← htail, List.drop_left]
    · obtain ⟨⟨number, rest'⟩, hparse, heq⟩ := Option.map_eq_some_iff.mp hread
      cases heq
      obtain ⟨n, value, hvalue, rfl, heq⟩ := parseNumber_eq_some hparse
      exact ⟨_, .atom (.number hvalue), heq⟩

/-- **Every value is read**, after whitespace and before what does not continue
a number. -/
theorem readValue_of_valueText (h : ReadsInner inner Inner) {space text rest : Bytes} {v : Value}
    (hspace : Space space) (hvalue : ValueText Inner text v) (hrest : Stops rest) :
    readValue inner (space ++ (text ++ rest)) = some (v, rest) := by
  unfold readValue
  rw [skipWhitespace_append hspace (hvalue.starts.noSpace rest)]
  cases hvalue with
  | atom hatom =>
    cases hatom with
    | literal hl =>
      obtain ⟨c, tail, heq, -, -, -, hread⟩ := readValueAt_literal inner hl rest
      rw [heq]
      exact hread
    | @number n value hvalue =>
      obtain ⟨c, tail, heq, hc⟩ := numeral_text_head n
      have hparse := parseNumber_append n hvalue hrest
      rw [heq] at hparse ⊢
      simp only [List.cons_append] at hparse ⊢
      rw [readValueAt_number hc, hparse]
      rfl
    | @string body s hbody =>
      have hparse : parseString (0x22 :: (body ++ [0x22] ++ rest)) = some (s, rest) :=
        parseString_eq_some_iff.mpr ⟨body, hbody, by simp⟩
      simp only [List.cons_append]
      unfold readValueAt
      rw [if_neg (by decide), if_neg (by decide), if_pos rfl, hparse]
      rfl
  | @array Item body elements hInner hbody =>
    rcases h with ⟨-, hnone⟩ | ⟨r, Item', rfl, hsome, hreads⟩
    · rw [hnone] at hInner
      cases hInner
    · obtain rfl := Option.some.inj (hInner.symm.trans hsome)
      have hparse : parseBracketed r 0x5d (body ++ [0x5d] ++ rest) = some (elements, rest) :=
        (parseBracketed_iff hreads (Or.inl rfl)).mpr ⟨body, hbody, by simp⟩
      simp only [List.cons_append]
      unfold readValueAt
      rw [if_neg (by decide), if_pos rfl, Option.bind_some, parseArray, hparse]
      rfl
  | @object Item body members hInner hbody =>
    rcases h with ⟨-, hnone⟩ | ⟨r, Item', rfl, hsome, hreads⟩
    · rw [hnone] at hInner
      cases hInner
    · obtain rfl := Option.some.inj (hInner.symm.trans hsome)
      have hparse : parseBracketed (memberReader r) 0x7d (body ++ [0x7d] ++ rest)
          = some (members, rest) :=
        (parseBracketed_iff (reads_memberReader hreads) (Or.inr rfl)).mpr ⟨body, hbody, by simp⟩
      simp only [List.cons_append]
      unfold readValueAt
      rw [if_pos rfl, Option.bind_some, parseObject, hparse]
      rfl

end Value

/-- **`ParseValue` accepts the values that nest as deep as there is room.** -/
theorem reads_parseValue (room : ℕ) : Reads (parseValue room) (Spells room) := by
  induction room with
  | zero =>
    have h : ReadsInner none none := Or.inl ⟨rfl, rfl⟩
    exact ⟨fun hread => valueText_of_readValue h hread,
      fun hspace ht hrest => readValue_of_valueText h hspace ht hrest, ValueText.starts⟩
  | succ room ih =>
    have h : ReadsInner (some (parseValue room)) (some (Spells room)) :=
      Or.inr ⟨_, _, rfl, rfl, ih⟩
    exact ⟨fun hread => valueText_of_readValue h hread,
      fun hspace ht hrest => readValue_of_valueText h hspace ht hrest, ValueText.starts⟩

/-- **What `Parse` accepts.** A text within the size limit, that is a value
nesting at most `kMaxJsonNestDepth` deep between whitespace. -/
theorem parse_eq_some_iff {text : Bytes} {v : Value} :
    parse text = some v ↔ text.length ≤ maxJsonInputBytes
      ∧ ∃ space t after, Space space ∧ Spells maxJsonNestDepth t v ∧ Space after
        ∧ text = space ++ (t ++ after) := by
  have hreads := reads_parseValue maxJsonNestDepth
  obtain ⟨space, hspace, htext⟩ := exists_skipWhitespace text
  unfold parse parseDocument
  constructor
  · intro h
    split at h
    · cases h
    · rename_i hlen
      refine ⟨not_lt.mp hlen, ?_⟩
      split at h
      · cases h
      · rename_i value rest hread
        split at h
        · rename_i hend
          cases h
          obtain ⟨space', t, hspace', ht, heq⟩ := hreads.sound hread
          refine ⟨space ++ space', t, rest, Space.append hspace hspace', ht,
            skipWhitespace_eq_nil.mp hend, ?_⟩
          rw [List.append_assoc, ← heq]
          exact htext
        · cases h
  · rintro ⟨hlen, space, t, after, hspace, ht, hafter, rfl⟩
    rw [if_neg (not_lt.mpr hlen), skipWhitespace_append hspace ((hreads.starts ht).noSpace after)]
    have hnil : Space [] := by simp [Space]
    have hread := hreads.complete hnil ht (stops_of_space hafter)
    rw [List.nil_append] at hread
    rw [hread]
    simp only [skipWhitespace_eq_nil.mpr hafter, if_true]

/-! ## More room -/

/-- A reader that reads at least what another one reads. -/
def Reader.Extends {α : Type} (r r' : Reader α) : Prop :=
  ∀ (text : Bytes) (a : α × Bytes), r.read text = some a → r'.read text = some a

section Extends

variable {α : Type} {r r' : Reader α}

/-- A list of items is read by a reader that reads more. -/
theorem Reader.Extends.parseItems (h : r.Extends r') {closing : UInt8} {text : Bytes}
    {a : List α × Bytes} (hread : Json.parseItems r closing text = some a) :
    Json.parseItems r' closing text = some a := by
  induction hlen : text.length using Nat.strong_induction_on generalizing text a with
  | _ n ih =>
    obtain ⟨item, rest, rest', hitem, hcases⟩ := parseItems_eq_some hread
    rcases hcases with ⟨hsep, rfl⟩ | ⟨hsep, s, hs, rfl⟩
    · exact parseItems_last (h _ _ hitem) hsep
    · have hlt := (consumes_separator hsep).length_lt.trans (r.consumes hitem).length_lt
      rw [parseItems_more (h _ _ hitem) hsep, ih _ (hlen ▸ hlt) hs rfl]
      rfl

/-- What stands between brackets is read by a reader that reads more. -/
theorem Reader.Extends.parseBracketed (h : r.Extends r') {closing : UInt8} {text : Bytes}
    {a : List α × Bytes} (hread : Json.parseBracketed r closing text = some a) :
    Json.parseBracketed r' closing text = some a := by
  unfold Json.parseBracketed at hread ⊢
  dsimp only at hread ⊢
  split at hread
  · rename_i hhead
    rw [if_pos hhead]
    exact hread
  · rename_i hhead
    rw [if_neg hhead]
    exact h.parseItems hread

/-- A member is read by a reader that reads more. -/
theorem Reader.Extends.memberReader {r r' : Reader Value} (h : r.Extends r') :
    (Json.memberReader r).Extends (Json.memberReader r') := by
  intro text a hread
  change readMember r text = some a at hread
  change readMember r' text = some a
  unfold readMember at hread ⊢
  split at hread
  · cases hread
  · split at hread
    · cases hread
    · rename_i c rest _
      split at hread
      · rename_i hc
        obtain ⟨s, hs, rfl⟩ := Option.map_eq_some_iff.mp hread
        simp only [hc, if_true, h _ _ hs, Option.map_some]
      · cases hread

end Extends

/-- **With more room more is read.** -/
theorem parseValue_extends (room : ℕ) : (parseValue room).Extends (parseValue (room + 1)) := by
  have hstep : ∀ (inner : Option (Reader Value)) (r : Reader Value),
      (∀ r' ∈ inner, r'.Extends r) → ∀ (text : Bytes) (a : Value × Bytes),
      readValue inner text = some a → readValue (some r) text = some a := by
    intro inner r h text a hread
    unfold readValue at hread ⊢
    split at hread
    · cases hread
    · rename_i c rest _
      unfold readValueAt at hread ⊢
      split_ifs at hread ⊢ with h₁ h₂
      · obtain ⟨r', hr', hobject⟩ := Option.bind_eq_some_iff.mp hread
        obtain ⟨s, hs, rfl⟩ := Option.map_eq_some_iff.mp hobject
        have hparse : parseObject r rest = some s := (h r' hr').memberReader.parseBracketed hs
        rw [Option.bind_some, hparse]
        rfl
      · obtain ⟨r', hr', harray⟩ := Option.bind_eq_some_iff.mp hread
        obtain ⟨s, hs, rfl⟩ := Option.map_eq_some_iff.mp harray
        have hparse : parseArray r rest = some s := (h r' hr').parseBracketed hs
        rw [Option.bind_some, hparse]
        rfl
      all_goals exact hread
  induction room with
  | zero => exact hstep none _ (by simp)
  | succ room ih =>
    refine hstep (some (parseValue room)) _ (fun r' hr' => ?_)
    obtain rfl := Option.some.inj hr'
    exact ih

/-! ## Objects and their members -/

/-- **A member is found under its key**, the first of duplicate keys. -/
theorem find?_toObject (members : List Member) (key : Bytes) :
    AssocList.find? (toObject members) key
      = (members.find? (fun m => m.key = key)).map Member.value := by
  have hfold : ∀ (members : List Member) (object : List (Bytes × Value)),
      AssocList.Sorted object →
      AssocList.find? (members.foldl (fun object m => AssocList.emplace m.key m.value object)
          object) key
        = (AssocList.find? object key).or
          ((members.find? (fun m => m.key = key)).map Member.value) := by
    intro members
    induction members with
    | nil => intro object _; simp
    | cons m members ih =>
      intro object hsorted
      have hemplace : AssocList.Sorted (AssocList.emplace m.key m.value object) :=
        hsorted.insertWith
      rw [List.foldl_cons, ih _ hemplace, AssocList.emplace, AssocList.find?_insertWith hsorted,
        List.find?_cons]
      by_cases hk : key = m.key
      · rw [if_pos hk, ← hk]
        cases AssocList.find? object key <;> simp
      · rw [if_neg hk]
        simp [Ne.symm hk]
  exact hfold members [] List.Pairwise.nil

/-- **An object is read with the spelling of a member.** -/
theorem parseWithRawMember_object {body member : Bytes} {members : List Member}
    (hbody : BodyText (MemberText (Spells (maxJsonNestDepth - 1))) body members)
    (hlen : (0x7b :: (body ++ [0x7d])).length ≤ maxJsonInputBytes) :
    parseWithRawMember (0x7b :: (body ++ [0x7d])) member
      = some (.object (toObject members), rawMember member members) := by
  have hobject : parseObject (parseValue (maxJsonNestDepth - 1)) (body ++ [0x7d])
      = some (members, []) :=
    (parseBracketed_iff (reads_memberReader (reads_parseValue _)) (Or.inr rfl)).mpr
      ⟨body, hbody, rfl⟩
  have hskip : skipWhitespace (0x7b :: (body ++ [0x7d])) = 0x7b :: (body ++ [0x7d]) := rfl
  unfold parseWithRawMember parseDocument
  rw [if_neg (not_lt.mpr hlen)]
  unfold readTop
  simp only [hskip, if_true, hobject, Option.map_some]
  rfl

/-- The members of an object that is read with a member. -/
theorem parseObject_of_parseWithRawMember {text member : Bytes} {r : Value × Bytes}
    (h : parseWithRawMember (0x7b :: text) member = some r) :
    ∃ s, parseObject (parseValue (maxJsonNestDepth - 1)) text = some s := by
  have hskip : skipWhitespace (0x7b :: text) = 0x7b :: text := rfl
  unfold parseWithRawMember parseDocument at h
  split at h
  · cases h
  · split at h
    · cases h
    · rename_i hread
      obtain ⟨s, hs, -⟩ := Option.map_eq_some_iff.mp hread
      unfold readTop at hs
      simp only [hskip, if_true] at hs
      obtain ⟨members, hmembers, -⟩ := Option.map_eq_some_iff.mp hs
      exact ⟨members, hmembers⟩

/-! ## What is read is clean -/

/-- **A value whose strings are valid UTF-8 and whose numbers are finite.** -/
inductive Value.Clean : Value → Prop
  | null : Clean .null
  | bool {b : Bool} : Clean (.bool b)
  | number {b : Binary64} {token : Bytes} : Clean (.number ⟨.finite b, token⟩)
  | string {text : Bytes} : ValidUtf8 text → Clean (.string text)
  | array {elements : List Value} : (∀ v ∈ elements, Clean v) → Clean (.array elements)
  | object {members : List (Bytes × Value)} : (∀ m ∈ members, Clean m.2) →
      Clean (.object members)

/-- Every item has a text. -/
theorem BodyText.exists_text {α : Type} {Item : Bytes → α → Prop} {body : Bytes} {items : List α}
    (h : BodyText Item body items) : ∀ a ∈ items, ∃ t, Item t a := by
  rcases h with ⟨-, rfl⟩ | h
  · simp
  · induction h with
    | @last space text after a hspace hitem hafter => exact fun b hb => ⟨text, by simp_all⟩
    | @more space text after rest a items hspace hitem hafter hrest ih =>
      intro b hb
      rcases List.mem_cons.mp hb with rfl | hb
      · exact ⟨text, hitem⟩
      · exact ih b hb

/-- The entries of an object are members. -/
theorem mem_toObject {members : List Member} {e : Bytes × Value} (h : e ∈ toObject members) :
    ∃ m ∈ members, e = (m.key, m.value) := by
  have hfold : ∀ (members : List Member) (object : List (Bytes × Value)),
      e ∈ members.foldl (fun object m => AssocList.emplace m.key m.value object) object →
      e ∈ object ∨ ∃ m ∈ members, e = (m.key, m.value) := by
    intro members
    induction members with
    | nil => intro object h; exact Or.inl h
    | cons m members ih =>
      intro object h
      rcases ih _ h with h | ⟨m', hm', heq⟩
      · rcases AssocList.mem_insertWith h with rfl | h | ⟨v, hv, rfl⟩
        · exact Or.inr ⟨m, by simp, rfl⟩
        · exact Or.inl h
        · exact Or.inl hv
      · exact Or.inr ⟨m', by simp [hm'], heq⟩
  rcases hfold members [] h with h | h
  · cases h
  · exact h

/-- A value over clean values is clean. -/
theorem ValueText.clean {Inner : Option (Bytes → Value → Prop)}
    (h : ∀ Item ∈ Inner, ∀ t v, Item t v → v.Clean) {text : Bytes} {v : Value}
    (hvalue : ValueText Inner text v) : v.Clean := by
  cases hvalue with
  | atom hatom =>
    cases hatom with
    | literal hl =>
      simp only [literals, List.mem_cons, List.not_mem_nil, or_false] at hl
      rcases hl with rfl | rfl | rfl
      · exact .bool
      · exact .bool
      · exact .null
    | number => exact .number
    | string hbody => exact .string hbody.valid
  | array hInner hbody =>
    refine .array (fun v hv => ?_)
    obtain ⟨t, ht⟩ := hbody.exists_text v hv
    exact h _ hInner t v ht
  | object hInner hbody =>
    refine .object (fun e he => ?_)
    obtain ⟨m, hm, rfl⟩ := mem_toObject he
    obtain ⟨t, -, -, -, -, -, -, hitem, -⟩ := hbody.exists_text m hm
    exact h _ hInner _ _ hitem

/-- Every text spells a clean value. -/
theorem Spells.clean {room : ℕ} {text : Bytes} {v : Value} (h : Spells room text v) : v.Clean := by
  induction room generalizing text v with
  | zero => exact ValueText.clean (by simp) h
  | succ room ih =>
    refine ValueText.clean (fun Item hItem t v ht => ?_) h
    obtain rfl := Option.some.inj hItem
    exact ih ht

/-- **What `Parse` answers is clean.** -/
theorem clean_of_parse {text : Bytes} {v : Value} (h : parse text = some v) : v.Clean := by
  obtain ⟨-, -, t, -, -, ht, -⟩ := parse_eq_some_iff.mp h
  exact ht.clean

/-- A found value is clean. -/
theorem Value.Clean.find {v w : Value} {key : Bytes} (hv : v.Clean) (h : v.find key = some w) :
    w.Clean := by
  cases hv with
  | object hmembers => exact hmembers _ (AssocList.mem_of_find?_eq_some h)
  | _ => cases h

/-- A string of a clean value is valid. -/
theorem Value.Clean.valid_of_getString {v : Value} {key text : Bytes} (hv : v.Clean)
    (h : v.getString key = some text) : ValidUtf8 text := by
  unfold Value.getString at h
  split at h
  · rename_i hfind
    cases h
    cases hv.find hfind with
    | string hvalid => exact hvalid
  · cases h

/-- A number of a clean value is finite. -/
theorem Value.Clean.finite_of_getNumber {v : Value} {key : Bytes} {x : Double} (hv : v.Clean)
    (h : v.getNumber key = some x) : ∃ b, x = .finite b := by
  unfold Value.getNumber at h
  split at h
  · rename_i hfind
    cases h
    cases hv.find hfind
    exact ⟨_, rfl⟩
  · cases h

end AzooKey.Ipc.Json

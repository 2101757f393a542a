import AzooKey.Learning.UserDictionary

/-!
# The text of a user dictionary

What `Save` writes and whether `LoadText` reads it back. Three things are put
together: a word is printed as JSON and read back as an equal word, words
that come in the order of their readings fill the buckets in that order, and
the text has the size that `jsonSize` counts.
-/

namespace AzooKey.Learning

open Ipc Ipc.Json

/-! ## A word -/

/-- A number of 32 bits as a member of a word. -/
def intValue (n : Int32) : Value := doubleValue (.finite (doubleOfInt32 n))

/-- The members of a word, in the order of their keys. -/
def wordMembers (w : UserWord) : List (Bytes × Value) :=
  (w.cid.map (fun n => (utf8 "cid", intValue n))).toList
    ++ ((w.mid.map (fun n => (utf8 "mid", intValue n))).toList
      ++ (utf8 "ruby", .string w.ruby)
        :: ((w.value.map (fun x => (utf8 "value", doubleValue x))).toList
          ++ [(utf8 "word", .string w.word)]))

/-- The object of a word. -/
theorem wordToJson_eq (w : UserWord) : wordToJson w = .object (wordMembers w) := by
  obtain ⟨word, ruby, cid, mid, value⟩ := w
  cases cid <;> cases mid <;> cases value <;> rfl

/-- The members of a word are in order. -/
theorem sorted_wordMembers (w : UserWord) : AssocList.Sorted (wordMembers w) := by
  have hbase : AssocList.Sorted (AssocList.emplace (utf8 "ruby") (Value.string w.ruby)
      (AssocList.emplace (utf8 "word") (Value.string w.word) [])) :=
    AssocList.Sorted.insertWith (AssocList.Sorted.insertWith List.Pairwise.nil)
  have hobject := wordToJson_eq w
  unfold wordToJson at hobject
  rw [← Value.object.inj hobject]
  cases w.cid <;> cases w.mid <;> cases w.value <;> dsimp only [Option.elim] <;>
    repeat first | exact hbase | refine AssocList.Sorted.insertWith ?_

section Find

variable (w : UserWord)

/-- The word of its object. -/
theorem find_word : AssocList.find? (wordMembers w) (utf8 "word") = some (.string w.word) := by
  obtain ⟨word, ruby, cid, mid, value⟩ := w
  cases cid <;> cases mid <;> cases value <;> rfl

/-- The reading of its object. -/
theorem find_ruby : AssocList.find? (wordMembers w) (utf8 "ruby") = some (.string w.ruby) := by
  obtain ⟨word, ruby, cid, mid, value⟩ := w
  cases cid <;> cases mid <;> cases value <;> rfl

/-- The class of its object. -/
theorem find_cid : AssocList.find? (wordMembers w) (utf8 "cid") = w.cid.map intValue := by
  obtain ⟨word, ruby, cid, mid, value⟩ := w
  cases cid <;> cases mid <;> cases value <;> rfl

/-- The meaning of its object. -/
theorem find_mid : AssocList.find? (wordMembers w) (utf8 "mid") = w.mid.map intValue := by
  obtain ⟨word, ruby, cid, mid, value⟩ := w
  cases cid <;> cases mid <;> cases value <;> rfl

/-- The value of its object. -/
theorem find_value : AssocList.find? (wordMembers w) (utf8 "value") = w.value.map doubleValue := by
  obtain ⟨word, ruby, cid, mid, value⟩ := w
  cases cid <;> cases mid <;> cases value <;> rfl

end Find

/-- A number is read back in one way. -/
theorem prints_unique {n m m' : Number} (h : n.Prints m) (h' : n.Prints m') : m = m' := by
  obtain ⟨numeral, value, htext, hvalue, rfl⟩ := h
  obtain ⟨numeral', value', htext', hvalue', rfl⟩ := h'
  have heq : numeral.text = numeral'.text := htext.symm.trans htext'
  rw [heq] at hvalue ⊢
  rw [Option.some.inj (hvalue.symm.trans hvalue')]

/-- A number of 32 bits is written as an integer. -/
theorem stringifyNumber_int32 (n : Int32) :
    stringifyNumber ⟨.finite (doubleOfInt32 n), []⟩ = formatInteger n.toInt := by
  have h₁ := n.le_toInt
  have h₂ := n.toInt_lt
  have hrat : (doubleOfInt32 n).toRat = (n.toInt : ℚ) := Binary64.toRat_ofInt _
  have hden : (doubleOfInt32 n).magnitude.den = 1 := Rat.den_natCast _
  unfold stringifyNumber
  simp only [ne_eq, not_true, if_false]
  rw [if_pos, hrat, Rat.num_intCast]
  refine ⟨hden, ?_, ?_⟩
  · rw [hrat]
    exact_mod_cast (by omega : (-2 ^ 63 : ℤ) ≤ n.toInt)
  · rw [hrat]
    exact_mod_cast (by omega : n.toInt < (2 ^ 64 : ℤ))

/-- **A number of 32 bits is read back.** -/
theorem getInt_of_prints {n : Int32} {m : Number}
    (h : (⟨.finite (doubleOfInt32 n), []⟩ : Number).Prints m) :
    (m.toIntIn (isPlainIntegerToken m.token) (-2 ^ 63) (2 ^ 63)).map Int32.ofInt = some n := by
  have h₁ := n.le_toInt
  have h₂ := n.toInt_lt
  obtain ⟨numeral, value, htext, -, rfl⟩ := h
  rw [stringifyNumber_int32] at htext
  dsimp only
  rw [← htext, (plain_formatInteger _).1, toIntIn_formatInteger (by omega) (by omega)]
  simp

/-- **A finite value is read back as an equal one.** -/
theorem ieeeEq_of_prints {x : Double} (hx : x.isFinite = true) {m : Number}
    (h : (⟨x, []⟩ : Number).Prints m) : m.value.ieeeEq x = true := by
  cases x with
  | finite b =>
    obtain ⟨value, hprints, heq⟩ := Number.prints_finite b
    rw [prints_unique h hprints]
    simpa [Double.ieeeEq] using heq
  | _ => cases hx

/-- The number of 32 bits under a key, in what was printed. -/
theorem getInt_of_rel {room : ℕ} {n : Option Int32} {ws : List (Bytes × Value)} {key : Bytes}
    (h : Option.Rel (Prints room) (n.map intValue) (AssocList.find? ws key)) :
    ((Value.object ws).getInt key).map Int32.ofInt = n := by
  unfold Value.getInt
  rw [Value.find_object]
  cases n with
  | none =>
    cases hfind : AssocList.find? ws key with
    | none => rfl
    | some v => rw [hfind] at h; cases h
  | some n =>
    cases hfind : AssocList.find? ws key with
    | none => rw [hfind] at h; cases h
    | some v =>
      rw [hfind] at h
      cases h with
      | some hprints =>
        obtain ⟨m, hm, rfl⟩ := exists_of_prints_number hprints
        exact getInt_of_prints hm

/-- The value under a key, in what was printed. -/
theorem getNumber_of_rel {room : ℕ} {x : Option Double} (hx : ∀ y ∈ x, y.isFinite = true)
    {ws : List (Bytes × Value)} {key : Bytes}
    (h : Option.Rel (Prints room) (x.map doubleValue) (AssocList.find? ws key)) :
    sameValue ((Value.object ws).getNumber key) x = true := by
  unfold Value.getNumber
  rw [Value.find_object]
  cases x with
  | none =>
    cases hfind : AssocList.find? ws key with
    | none => rfl
    | some v => rw [hfind] at h; cases h
  | some x =>
    cases hfind : AssocList.find? ws key with
    | none => rw [hfind] at h; cases h
    | some v =>
      rw [hfind] at h
      cases h with
      | some hprints =>
        obtain ⟨m, hm, rfl⟩ := exists_of_prints_number hprints
        exact ieeeEq_of_prints (hx x rfl) hm

/-- **What a word is printed as is read as an equal word.** -/
theorem wordFromJson_of_prints {room : ℕ} {w : UserWord} (hw : w.Sound) {v : Value}
    (h : Prints (room + 1) (wordToJson w) v) :
    ∃ w', wordFromJson v = some w' ∧ w'.same w = true ∧ w'.ruby = w.ruby := by
  rw [wordToJson_eq] at h
  obtain ⟨-, ws, hws, rfl⟩ := h
  have hfind := find?_of_prints hws
  have hword := getString_of_rel (find_word w ▸ hfind (utf8 "word"))
  have hruby := getString_of_rel (find_ruby w ▸ hfind (utf8 "ruby"))
  have hcid := getInt_of_rel (find_cid w ▸ hfind (utf8 "cid"))
  have hmid := getInt_of_rel (find_mid w ▸ hfind (utf8 "mid"))
  have hvalue := getNumber_of_rel hw.value (find_value w ▸ hfind (utf8 "value"))
  refine ⟨⟨w.word, w.ruby, w.cid, w.mid, (Value.object ws).getNumber (utf8 "value")⟩, ?_, ?_, rfl⟩
  · unfold wordFromJson
    simp only [hword, hruby, hcid, hmid, Value.isObject, Bool.not_true, Bool.false_eq_true,
      if_false]
  · simp [UserWord.same, hvalue]

/-- A finite number is printed. -/
theorem exists_prints_number (room : ℕ) (b : Binary64) :
    ∃ v, Prints room (doubleValue (.finite b)) v := by
  obtain ⟨value, hprints, -⟩ := Number.prints_finite b
  refine ⟨.number ⟨.finite value, stringifyNumber ⟨.finite b, []⟩⟩, ?_⟩
  cases room <;> exact ⟨_, hprints, rfl⟩

/-- **A sound word is printed.** -/
theorem exists_prints_wordToJson (room : ℕ) {w : UserWord} (hw : w.Sound) :
    ∃ v, Prints (room + 1) (wordToJson w) v := by
  rw [wordToJson_eq]
  refine exists_prints_object (sorted_wordMembers w) (fun m hm => ?_)
  simp only [wordMembers, List.mem_append, List.mem_cons, Option.mem_toList,
    Option.map_eq_some_iff, List.not_mem_nil, or_false] at hm
  rcases hm with ⟨n, -, rfl⟩ | ⟨n, -, rfl⟩ | rfl | ⟨x, hx, rfl⟩ | rfl
  · exact ⟨rfl, exists_prints_number room _⟩
  · exact ⟨rfl, exists_prints_number room _⟩
  · exact ⟨rfl, exists_prints_string room hw.ruby⟩
  · have hfinite := hw.value x hx
    cases x with
    | finite b => exact ⟨rfl, exists_prints_number room b⟩
    | _ => cases hfinite
  · exact ⟨rfl, exists_prints_string room hw.word⟩

/-! ## The order of the words -/

namespace UserDictionary

/-- **A word whose reading comes last goes to the end.** -/
theorem flatMap_pushBack {words : OrderedMap Bytes (List UserWord)} {w : UserWord}
    (h : ∀ e ∈ words.entries, e.1 ≤ w.ruby) :
    (pushBack words w).entries.flatMap Prod.snd = words.entries.flatMap Prod.snd ++ [w] := by
  obtain ⟨entries, hsorted⟩ := words
  change (AssocList.assign w.ruby ((AssocList.find? entries w.ruby).getD [] ++ [w])
    entries).flatMap Prod.snd = entries.flatMap Prod.snd ++ [w]
  change ∀ e ∈ entries, e.1 ≤ w.ruby at h
  induction entries with
  | nil => rfl
  | cons e entries ih =>
    have hle := h e List.mem_cons_self
    have hpair := List.pairwise_cons.mp hsorted
    unfold AssocList.assign AssocList.insertWith AssocList.find?
    rw [if_neg (not_lt.mpr hle)]
    by_cases hk : w.ruby = e.1
    · -- the bucket is the last one
      have hnil : entries = [] := by
        refine List.eq_nil_iff_forall_not_mem.mpr (fun e' he' => ?_)
        have hlt := hpair.1 e' he'
        have hle' := h e' (List.mem_cons_of_mem _ he')
        rw [hk] at hle'
        exact absurd hlt (not_lt.mpr hle')
      rw [if_pos hk, if_pos hk, hnil]
      simp
    · have ih' := ih hpair.2 (fun e' he' => h e' (List.mem_cons_of_mem _ he'))
      rw [if_neg hk, if_neg hk, List.flatMap_cons, List.flatMap_cons, List.append_assoc, ← ih']
      rfl

/-- **Words in the order of their readings are kept in that order.** -/
theorem flatMap_foldl_pushBack {words : OrderedMap Bytes (List UserWord)} {ws : List UserWord}
    (hsorted : ws.Pairwise (fun w w' => w.ruby ≤ w'.ruby))
    (h : ∀ e ∈ words.entries, ∀ w ∈ ws, e.1 ≤ w.ruby) :
    (ws.foldl pushBack words).entries.flatMap Prod.snd
      = words.entries.flatMap Prod.snd ++ ws := by
  induction ws generalizing words with
  | nil => simp
  | cons w ws ih =>
    have hpair := List.pairwise_cons.mp hsorted
    rw [List.foldl_cons, ih hpair.2,
      flatMap_pushBack (fun e he => h e he w List.mem_cons_self), List.append_assoc]
    · rfl
    · intro e he w' hw'
      rcases AssocList.mem_insertWith he with rfl | he | ⟨b, -, rfl⟩
      · exact hpair.1 w' hw'
      · exact h e he w' (List.mem_cons_of_mem _ hw')
      · exact hpair.1 w' hw'

/-- The words of a dictionary are in the order of their readings. -/
theorem pairwise_all {d : UserDictionary} (h : Inv d.byRuby) :
    d.all.Pairwise (fun w w' => w.ruby ≤ w'.ruby) := by
  refine List.pairwise_flatMap.mpr ⟨fun e he => ?_, ?_⟩
  · refine List.pairwise_of_forall_mem_list (fun w hw w' hw' => ?_)
    rw [(h e he w hw).1, (h e he w' hw').1]
  · refine List.Pairwise.imp_of_mem (fun {e e'} he he' hlt w hw w' hw' => ?_) d.byRuby.sorted
    rw [(h e he w hw).1, (h e' he' w' hw').1]
    exact hlt.le

end UserDictionary

/-! ## The size of the text -/

/-- The bytes that a byte of a string takes. -/
def escapeSize (c : UInt8) : ℕ :=
  if c = 0x22 ∨ c = 0x5c ∨ c = 0x08 ∨ c = 0x0c ∨ c = 0x0a ∨ c = 0x0d ∨ c = 0x09 then 2
  else if c < 0x20 then 6
  else 1

/-- The bytes that a string takes, without its quotes. -/
def escapedSize (text : Bytes) : ℕ := (text.map escapeSize).sum

/-- The bytes that an integer takes. -/
def intSize (n : ℤ) : ℕ := (if n < 0 then 1 else 0) + (Nat.log 10 n.natAbs + 1)

/-- The bytes that a value takes. -/
def valueSize (x : Double) : ℕ := (stringifyNumber ⟨x, []⟩).length

/-- **The bytes that a word takes**: braces, keys, colons, commas and quotes,
and its members. -/
def wordSize (w : UserWord) : ℕ :=
  21 + escapedSize w.word + escapedSize w.ruby
    + w.cid.elim 0 (fun n => 7 + intSize n.toInt) + w.mid.elim 0 (fun n => 7 + intSize n.toInt)
    + w.value.elim 0 (fun x => 9 + valueSize x)

/-- **The bytes that a dictionary takes.** -/
def jsonSize (ws : List UserWord) : ℕ := 26 + (ws.map wordSize).sum + (ws.length - 1)

/-- A byte takes what it takes. -/
theorem length_escapeByte (c : UInt8) : (escapeByte c).length = escapeSize c := by
  revert c
  decide +kernel

/-- A string takes what its bytes take. -/
theorem length_escapeString (text : Bytes) : (escapeString text).length = escapedSize text := by
  unfold escapeString escapedSize
  rw [List.length_flatMap]
  congr 1
  exact List.map_congr_left (fun c _ => length_escapeByte c)

/-- An integer takes its digits and its sign. -/
theorem length_formatInteger (n : ℤ) : (formatInteger n).length = intSize n := by
  unfold formatInteger intSize
  split
  · rw [List.length_cons, length_decimalDigits, Nat.add_comm]
  · rw [length_decimalDigits, Nat.zero_add]

/-- The generation of the text takes one digit. -/
theorem length_formatInteger_one : (formatInteger 1).length = 1 := by
  rw [length_formatInteger, intSize]
  norm_num

/-- It is not empty. -/
theorem formatInteger_one_ne : formatInteger 1 ≠ [] :=
  List.ne_nil_of_length_pos (length_formatInteger_one.symm ▸ Nat.one_pos)

/-- Texts with commas between them. -/
theorem length_joinCommas (texts : List Bytes) :
    (joinCommas texts).length = (texts.map List.length).sum + (texts.length - 1) := by
  induction texts with
  | nil => rfl
  | cons text texts ih =>
    cases texts with
    | nil => simp [joinCommas]
    | cons text' texts =>
      rw [joinCommas, List.length_append, List.length_cons, ih]
      · simp only [List.map_cons, List.sum_cons, List.length_cons]
        omega
      · simp

/-- A member takes its key, its value, two quotes and a colon. -/
theorem length_stringifyMember (m : Bytes × Value) :
    (stringifyMember m).length = escapedSize m.1 + (stringify m.2).length + 3 := by
  unfold stringifyMember
  simp only [List.length_cons, List.length_append, length_escapeString]
  omega

/-- An object takes its members, its commas and its braces. -/
theorem length_stringify_object (ms : List (Bytes × Value)) :
    (stringify (.object ms)).length
      = (ms.map (fun m => (stringifyMember m).length)).sum + (ms.length - 1) + 2 := by
  rw [stringify, stringifyMembers_eq]
  simp only [List.length_cons, List.length_append, List.length_nil, length_joinCommas,
    List.map_map, List.length_map, Function.comp_def]

/-- **A word takes its size.** -/
theorem length_wordToJson (w : UserWord) : (stringify (wordToJson w)).length = wordSize w := by
  have hint : ∀ n : Int32, (stringify (intValue n)).length = intSize n.toInt := by
    intro n
    rw [intValue, doubleValue, stringify, stringifyNumber_int32, length_formatInteger]
  have hvalue : ∀ x : Double, (stringify (doubleValue x)).length = valueSize x := by
    intro x
    rw [doubleValue, stringify, valueSize]
  have hstring : ∀ s : Bytes, (stringify (.string s)).length = escapedSize s + 2 := by
    intro s
    rw [stringify, List.length_cons, List.length_append, length_escapeString]
    rfl
  have hkeys : escapedSize (utf8 "cid") = 3 ∧ escapedSize (utf8 "mid") = 3
      ∧ escapedSize (utf8 "ruby") = 4 ∧ escapedSize (utf8 "value") = 5
      ∧ escapedSize (utf8 "word") = 4 := by decide
  obtain ⟨hcid, hmid, hruby, hval, hword⟩ := hkeys
  rw [wordToJson_eq, length_stringify_object]
  unfold wordMembers wordSize
  cases w.cid <;> cases w.mid <;> cases w.value <;>
    simp only [Option.map_none, Option.map_some, Option.toList_none, Option.toList_some,
      List.nil_append, List.cons_append, List.map_cons, List.map_nil, List.sum_cons, List.sum_nil,
      List.length_cons, List.length_nil, Option.elim_none, Option.elim_some,
      length_stringifyMember, hint, hvalue, hstring, hcid, hmid, hruby, hval, hword] <;>
    omega

namespace UserDictionary

/-- The object that is written. -/
theorem serializeText_eq (d : UserDictionary) :
    d.serializeText = stringify (.object [(utf8 "entries", .array (d.all.map wordToJson)),
      (utf8 "version", .number ⟨.finite (.ofInt 1 (by norm_num)), formatInteger 1⟩)]) := rfl

/-- **The text takes the size that is counted.** -/
theorem length_serializeText (d : UserDictionary) : d.serializeText.length = jsonSize d.all := by
  have hentries : escapedSize (utf8 "entries") = 7 := by decide
  have hversion : escapedSize (utf8 "version") = 7 := by decide
  have hone := length_formatInteger_one
  have hne := formatInteger_one_ne
  have hwords : d.all.map (fun w => (stringify (wordToJson w)).length) = d.all.map wordSize :=
    List.map_congr_left (fun w _ => length_wordToJson w)
  rw [serializeText_eq, length_stringify_object]
  simp only [List.map_cons, List.map_nil, List.sum_cons, List.sum_nil, List.length_cons,
    List.length_nil, length_stringifyMember, hentries, hversion]
  rw [stringify, stringify, stringifyElements_eq]
  simp only [List.length_cons, List.length_append, List.length_nil, length_joinCommas,
    List.map_map, List.length_map, Function.comp_def, hwords, stringifyNumber, hne,
    ne_eq, not_false_eq_true, if_true, hone, jsonSize]
  omega

/-! ## The round trip -/

/-- Words that are printed are read as equal words. -/
theorem filterMap_wordFromJson {room : ℕ} {ws : List UserWord} (hws : ∀ w ∈ ws, w.Sound)
    {vs : List Value} (h : List.Forall₂ (Prints (room + 1)) (ws.map wordToJson) vs) :
    List.Forall₂ (fun w' w => w'.same w = true ∧ w'.ruby = w.ruby)
      (vs.filterMap wordFromJson) ws := by
  induction ws generalizing vs with
  | nil =>
    cases h
    exact .nil
  | cons w ws ih =>
    cases h with
    | @cons _ v _ vs hv hvs =>
      obtain ⟨w', hw', hsame⟩ := wordFromJson_of_prints (hws w List.mem_cons_self) hv
      rw [List.filterMap_cons_some hw']
      exact .cons hsame (ih (fun x hx => hws x (List.mem_cons_of_mem _ hx)) hvs)

/-- The order of the readings is that of equal words. -/
theorem pairwise_of_forall₂ {ws ws' : List UserWord}
    (h : List.Forall₂ (fun w' w => w'.same w = true ∧ w'.ruby = w.ruby) ws' ws)
    (hsorted : ws.Pairwise (fun w w' => w.ruby ≤ w'.ruby)) :
    ws'.Pairwise (fun w w' => w.ruby ≤ w'.ruby) := by
  have hrubies : ws'.map UserWord.ruby = ws.map UserWord.ruby := by
    induction h with
    | nil => rfl
    | cons hw _ ih =>
      rw [List.map_cons, List.map_cons, hw.2, ih (List.pairwise_cons.mp hsorted).2]
  have hmap : (ws.map UserWord.ruby).Pairwise (· ≤ ·) := List.pairwise_map.mpr hsorted
  rw [← hrubies] at hmap
  exact List.pairwise_map.mp hmap

/-- **What is printed is read back**, word for word, when it is within the
limit of the reader. -/
theorem loadText_of_inv {d : UserDictionary} (h : Inv d.byRuby)
    (hsize : jsonSize d.all ≤ maxJsonInputBytes) :
    (empty.loadText d.serializeText).1 = true
      ∧ List.Forall₂ (fun w' w => w'.same w = true)
        (empty.loadText d.serializeText).2.all d.all := by
  have hsound := sound_of_mem_all h
  obtain ⟨vs, hvs⟩ : ∃ vs, List.Forall₂ (Prints (maxJsonNestDepth - 2)) (d.all.map wordToJson) vs := by
    refine exists_forall₂ (fun v hv => ?_)
    obtain ⟨w, hw, rfl⟩ := List.mem_map.mp hv
    exact exists_prints_wordToJson _ (hsound w hw)
  obtain ⟨one, hone⟩ := exists_parseFiniteDouble_formatInteger (n := 1) (by decide)
  have hne := formatInteger_one_ne
  have hversion : Prints (maxJsonNestDepth - 1)
      (.number ⟨.finite (.ofInt 1 (by norm_num)), formatInteger 1⟩)
      (.number ⟨.finite one, formatInteger 1⟩) := by
    refine ⟨_, ⟨intNumeral 1, one, ?_, ?_, ?_⟩, rfl⟩
    · rw [intNumeral_text, stringifyNumber, if_pos hne]
    · rw [intNumeral_text]
      exact hone
    · rw [intNumeral_text]
  have hprints : Prints maxJsonNestDepth
      (.object [(utf8 "entries", .array (d.all.map wordToJson)),
        (utf8 "version", .number ⟨.finite (.ofInt 1 (by norm_num)), formatInteger 1⟩)])
      (.object [(utf8 "entries", .array vs),
        (utf8 "version", .number ⟨.finite one, formatInteger 1⟩)]) := by
    refine ⟨?_, [(utf8 "entries", .array vs),
      (utf8 "version", .number ⟨.finite one, formatInteger 1⟩)],
      .cons ⟨rfl, .of_all_ascii rfl, vs, hvs, rfl⟩
        (.cons ⟨rfl, .of_all_ascii rfl, hversion⟩ .nil), rfl⟩
    have hlt : utf8 "entries" < utf8 "version" := by decide
    exact List.pairwise_pair.mpr hlt
  have hparse := parse_stringify hprints
  rw [← serializeText_eq, length_serializeText, if_pos hsize] at hparse
  have hload : empty.loadText d.serializeText
      = (true, ⟨loadEntries vs, empty.revision + 1⟩) := by
    unfold loadText
    rw [hparse]
    rfl
  have hwords := filterMap_wordFromJson hsound hvs
  have hall : (loadEntries vs).entries.flatMap Prod.snd = vs.filterMap wordFromJson := by
    unfold loadEntries
    rw [flatMap_foldl_pushBack (pairwise_of_forall₂ hwords (pairwise_all h)) (by
      intro e he; cases he)]
    rfl
  rw [hload]
  refine ⟨rfl, ?_⟩
  unfold all
  rw [hall]
  exact hwords.imp (fun _ _ hw => hw.1)

/-- **What is too large is refused.** -/
theorem loadText_of_oversize {d : UserDictionary} (h : maxJsonInputBytes < jsonSize d.all)
    (d' : UserDictionary) : (d'.loadText d.serializeText).1 = false := by
  have hparse : parse d.serializeText = none := by
    unfold parse parseDocument
    rw [if_pos (by rw [length_serializeText]; exact h)]
  unfold loadText
  rw [hparse]
  rfl

/-- **A reachable dictionary is read back from its text if and only if the text
is within the limit of the reader.** -/
theorem loadText_serializeText_iff {d : UserDictionary} (h : Reachable d) :
    (empty.loadText d.serializeText).1 = true
      ∧ List.Forall₂ (fun w' w => w'.same w = true) (empty.loadText d.serializeText).2.all d.all
    ↔ jsonSize d.all ≤ maxJsonInputBytes := by
  constructor
  · rintro ⟨htrue, -⟩
    by_contra hsize
    rw [loadText_of_oversize (not_le.mp hsize)] at htrue
    cases htrue
  · exact loadText_of_inv h.inv

/-- A dictionary of one word. -/
def oneWord : UserDictionary :=
  (empty.add ⟨utf8 "\"", utf8 "a", some (-7), none, some (.finite (.zero true))⟩).2

/-- It can be reached. -/
theorem reachable_oneWord : Reachable oneWord := by
  refine .add .empty ⟨.of_all_ascii (by decide), .of_all_ascii (by decide), ?_⟩
  rintro x hx
  cases hx
  rfl

/-- It is read back. -/
theorem loadText_serializeText_oneWord :
    (empty.loadText oneWord.serializeText).1 = true
      ∧ List.Forall₂ (fun w' w => w'.same w = true)
        (empty.loadText oneWord.serializeText).2.all oneWord.all :=
  (loadText_serializeText_iff reachable_oneWord).mpr (by decide +kernel)

/-- A word of many letters. -/
def longWord (n : ℕ) : UserWord := ⟨List.replicate n 0x61, utf8 "a", none, none, none⟩

/-- It is sound. -/
theorem sound_longWord (n : ℕ) : (longWord n).Sound := by
  refine ⟨.of_all_ascii (List.all_eq_true.mpr (fun c hc => ?_)),
    .of_all_ascii rfl, fun x hx => by cases hx⟩
  rw [List.eq_of_mem_replicate hc]
  decide

/-- A dictionary to which one word was added. -/
theorem all_add_empty (w : UserWord) : (empty.add w).2.all = [w] := rfl

/-- It is larger than its letters. -/
theorem lt_jsonSize_longWord (n : ℕ) : n < jsonSize (empty.add (longWord n)).2.all := by
  have hone : escapeSize 0x61 = 1 := by decide
  rw [all_add_empty]
  simp only [jsonSize, wordSize, longWord, escapedSize, List.map_replicate, List.sum_replicate,
    hone, List.map_cons, List.map_nil, List.sum_cons, List.sum_nil, smul_eq_mul]
  omega

/-- **Not every dictionary that can be reached is read back**: not the one whose
only word has a mebibyte of letters. -/
theorem loadText_serializeText_longWord :
    ¬ ∀ d, Reachable d → (empty.loadText d.serializeText).1 = true
      ∧ List.Forall₂ (fun w' w => w'.same w = true)
        (empty.loadText d.serializeText).2.all d.all := by
  intro h
  have hreach := Reachable.add .empty (sound_longWord maxJsonInputBytes)
  have hfalse := loadText_of_oversize (lt_jsonSize_longWord maxJsonInputBytes) empty
  rw [(h _ hreach).1] at hfalse
  cases hfalse

end UserDictionary

end AzooKey.Learning

import AzooKey.Host.English.Base
import AzooKey.Lib.Charconv

/-!
# The TSV of the English dictionary

`inference-host/src/EnglishCandidates.cpp`: the text that a user edits, one word
a line with its frequency and its flags. Lines that are not of that form are
skipped, and a word that is defined twice has its later definition. What the
rest of the dictionary relies on is that each word comes once and under its own
key (`parseEnglishTsv_spec`).
-/

namespace AzooKey.Host.English

open Core.Dictionary (isValidUtf8 isValidUtf8_iff)

/-- `ToLower`. -/
def toLower (c : UInt8) : UInt8 := if 0x41 ≤ c && c ≤ 0x5a then c - 0x41 + 0x61 else c

/-- **`EnglishLookupKey`.** -/
def englishLookupKey (rawRomaji : Bytes) : Bytes := rawRomaji.map toLower

/-- `Trim`. -/
def trim (text : Bytes) : Bytes :=
  ((text.reverse.dropWhile (fun c => c = 0x0d || c = 0x20)).reverse).dropWhile (· = 0x20)

/-- `ParseFlags`. -/
def parseFlags (text : Bytes) : UInt8 :=
  (Bytes.pieces 0x2c text).foldl (fun flags piece =>
    let flag := trim piece
    if flag = utf8 "proper" then flags ||| 1
    else if flag = utf8 "acronym" then flags ||| 2
    else if flag = utf8 "tech" then flags ||| 4
    else flags) 0

/-- `std::from_chars` of a whole text as a `uint64_t`, if it is not zero. -/
def parseFrequency (text : Bytes) : Option ℕ :=
  if text ≠ [] ∧ text.all isDigitByte ∧ digitsValue text < 2 ^ 64 ∧ 0 < digitsValue text
  then some (digitsValue text) else none

/-- A text up to a tab, and what follows the tab if there is one. -/
def cutAtTab (text : Bytes) : Bytes × Option Bytes :=
  match Bytes.breakAt 0x09 text with
  | none => (text, none)
  | some (before, after) => (before, some after)

/-- The record of a line, or none if the line is malformed. -/
def parseTsvLine (line : Bytes) : Option WordRecord :=
  let (surface, rest) := cutAtTab line
  let (frequencyText, flagsText) := cutAtTab (rest.getD [])
  match parseFrequency frequencyText with
  | none => none
  | some frequency =>
    if surface = [] ∨ 0xFFFF < surface.length ∨ isValidUtf8 surface = false then none
    else some ⟨englishLookupKey surface, surface, UInt32.ofNat (min frequency 0xFFFFFFFF),
      (flagsText.map parseFlags).getD 0⟩

/-- A record, put among the others: the later definition of a word wins. -/
def putRecord : List WordRecord → WordRecord → List WordRecord
  | [], r => [r]
  | x :: records, r => if x.surface = r.surface then r :: records else x :: putRecord records r

/-- One round of the loop over the lines. -/
def addTsvLine (maxEntries : ℕ) (records : List WordRecord) (text : Bytes) : List WordRecord :=
  let line := trim text
  if maxEntries ≤ records.length ∨ line = [] ∨ line.head? = some 0x23 then records
  else (parseTsvLine line).elim records (putRecord records)

/-- `kMaxEnglishDictionaryEntries`. -/
def maxEnglishDictionaryEntries : ℕ := 200000

/-- **`ParseEnglishTsv`**, with the default bound. -/
def parseEnglishTsv (text : Bytes) : List WordRecord :=
  let text := if text.take 3 = [0xEF, 0xBB, 0xBF] then text.drop 3 else text
  (Bytes.pieces 0x0a text).foldl (addTsvLine maxEnglishDictionaryEntries) []

/-- `kMaxDictionaryBytes`. -/
def maxDictionaryBytes : ℕ := 64 * 1024 * 1024

/-- `ReadEnglishTsvFile`, of a file that is there. -/
def readEnglishTsvFile (file : Bytes) : Option Bytes :=
  if maxDictionaryBytes < file.length then none else some file

/-! ## Keys -/

/-- A key is as long as its word. -/
@[simp] theorem length_englishLookupKey (word : Bytes) :
    (englishLookupKey word).length = word.length := List.length_map _

/-- A letter is in lower case or is not one. -/
theorem toLower_lt {c : UInt8} (h : c < 0x80) (hne : c ≠ 0) : toLower c < 0x80 ∧ toLower c ≠ 0 := by
  have hall : ∀ n : Fin 128, n ≠ 0 → toLower (UInt8.ofNat n) < 0x80 ∧ toLower (UInt8.ofNat n) ≠ 0 := by
    decide
  have hlt : c.toNat < 128 := UInt8.lt_iff_toNat_lt.mp h
  have hpos : (⟨c.toNat, hlt⟩ : Fin 128) ≠ 0 := by
    intro hzero
    have htoNat : c.toNat = 0 := congrArg Fin.val hzero
    exact hne (UInt8.toNat_inj.mp htoNat)
  have hc := hall ⟨c.toNat, hlt⟩ hpos
  rwa [UInt8.ofNat_toNat] at hc

/-- Octets outside of ASCII stay. -/
theorem toLower_of_ge {c : UInt8} (h : 0x80 ≤ c) : toLower c = c := by
  unfold toLower
  rw [if_neg]
  simp only [Bool.and_eq_true, decide_eq_true_eq, not_and, not_le]
  intro _
  exact lt_of_lt_of_le (by decide) h

/-- A word in lower case is text like the word. -/
theorem isScalar_map_toLower {s : Bytes} (h : isScalar s = true) (hzero : 0 ∉ s) :
    isScalar (s.map toLower) = true := by
  have hge : ∀ c : UInt8, isTrailing c = true → toLower c = c := by
    intro c hc
    unfold isTrailing at hc
    rw [Bool.and_eq_true, decide_eq_true_eq] at hc
    exact toLower_of_ge hc.1
  have hlead : ∀ a c : UInt8, 0x80 ≤ a → a ≤ c → toLower c = c :=
    fun a c ha hac => toLower_of_ge (ha.trans hac)
  rcases isScalar_cases h with ⟨a, rfl, ha⟩ | ⟨a, b, rfl, ha, -, hb⟩ | ⟨a, b, c, rfl, ha, -, hb, hc, -⟩
    | ⟨a, b, c, d, rfl, ha, -, hb, hc, hd, -⟩
  · have hne : a ≠ 0 := fun hzero' => hzero (List.mem_singleton.mpr hzero'.symm)
    exact decide_eq_true (toLower_lt ha hne).1
  · rw [List.map_cons, List.map_cons, List.map_nil, hlead 0xc2 a (by decide) ha, hge b hb]
    exact h
  · rw [List.map_cons, List.map_cons, List.map_cons, List.map_nil, hlead 0xe0 a (by decide) ha,
      hge b hb, hge c hc]
    exact h
  · rw [List.map_cons, List.map_cons, List.map_cons, List.map_cons, List.map_nil,
      hlead 0xf0 a (by decide) ha, hge b hb, hge c hc, hge d hd]
    exact h

/-- **The key of a valid word is valid.** -/
theorem isValidUtf8_englishLookupKey {word : Bytes} (h : isValidUtf8 word = true) :
    isValidUtf8 (englishLookupKey word) = true := by
  obtain ⟨hvalid, hzero⟩ := isValidUtf8_iff.mp h
  refine isValidUtf8_iff.mpr ⟨?_, fun hmem => ?_⟩
  · clear h
    induction hvalid with
    | nil => exact .nil
    | @cons scalar text hscalar _ ih =>
      rw [List.mem_append, not_or] at hzero
      unfold englishLookupKey at ih ⊢
      rw [List.map_append]
      exact .cons (isScalar_map_toLower hscalar hzero.1) (ih hzero.2)
  · obtain ⟨c, hc, hlower⟩ := List.mem_map.mp hmem
    have hne : c ≠ 0 := fun heq => hzero (heq ▸ hc)
    rcases lt_or_ge c 0x80 with hlt | hge
    · exact (toLower_lt hlt hne).2 hlower
    · exact hne ((toLower_of_ge hge).symm.trans hlower)

/-! ## Records -/

/-- **A record of a word**, under the key of the word. -/
structure WordRecord.OfWord (r : WordRecord) : Prop where
  key : r.key = englishLookupKey r.surface
  surface_ne : r.surface ≠ []
  surface_length : r.surface.length ≤ 0xFFFF
  surface_valid : isValidUtf8 r.surface = true

/-- A line that is read gives a record of a word. -/
theorem ofWord_of_parseTsvLine {line : Bytes} {r : WordRecord} (h : parseTsvLine line = some r) :
    r.OfWord := by
  unfold parseTsvLine at h
  dsimp only at h
  split at h
  · cases h
  split at h
  · cases h
  · rename_i hsurface
    cases h
    rw [not_or, not_or, not_lt, Bool.not_eq_false] at hsurface
    exact ⟨rfl, hsurface.1, hsurface.2.1, hsurface.2.2⟩

/-- The records when one is put among them. -/
theorem mem_putRecord {records : List WordRecord} {r r' : WordRecord}
    (h : r' ∈ putRecord records r) : r' = r ∨ r' ∈ records := by
  induction records with
  | nil => exact Or.inl (List.mem_singleton.mp h)
  | cons x records ih =>
    unfold putRecord at h
    split at h
    · exact (List.mem_cons.mp h).imp_right (List.mem_cons_of_mem x)
    · rcases List.mem_cons.mp h with rfl | h
      · exact Or.inr List.mem_cons_self
      · exact (ih h).imp_right (List.mem_cons_of_mem x)

/-- Each word still comes once. -/
theorem nodup_putRecord {records : List WordRecord} (h : (records.map (·.surface)).Nodup)
    (r : WordRecord) : ((putRecord records r).map (·.surface)).Nodup := by
  induction records with
  | nil => exact List.nodup_singleton _
  | cons x records ih =>
    rw [List.map_cons, List.nodup_cons] at h
    unfold putRecord
    split
    · rename_i heq
      rw [List.map_cons, List.nodup_cons, ← heq]
      exact h
    · rename_i hne
      rw [List.map_cons, List.nodup_cons]
      refine ⟨fun hmem => ?_, ih h.2⟩
      obtain ⟨r', hr', hsurface⟩ := List.mem_map.mp hmem
      rcases mem_putRecord hr' with rfl | hold
      · exact hne hsurface.symm
      · exact h.1 (hsurface ▸ List.mem_map_of_mem hold)

/-- **What a TSV gives: records of words, each word once.** -/
theorem parseEnglishTsv_spec (text : Bytes) :
    (∀ r ∈ parseEnglishTsv text, r.OfWord) ∧ ((parseEnglishTsv text).map (·.surface)).Nodup := by
  unfold parseEnglishTsv
  dsimp only
  generalize (if text.take 3 = [0xEF, 0xBB, 0xBF] then text.drop 3 else text) = body
  induction Bytes.pieces 0x0a body using List.reverseRecOn with
  | nil => exact ⟨by simp, List.nodup_nil⟩
  | append_singleton lines line ih =>
    rw [List.foldl_append, List.foldl_cons, List.foldl_nil]
    set records := lines.foldl (addTsvLine maxEnglishDictionaryEntries) []
    unfold addTsvLine
    dsimp only
    split
    · exact ih
    · cases hparse : parseTsvLine (trim line) with
      | none => exact ih
      | some r =>
        refine ⟨fun r' hr' => ?_, nodup_putRecord ih.2 r⟩
        rcases mem_putRecord hr' with rfl | hold
        · exact ofWord_of_parseTsvLine hparse
        · exact ih.1 r' hold

end AzooKey.Host.English

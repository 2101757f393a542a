import AzooKey.Lib.WindowReader

/-!
# The header of a model file

`ParseGgufHeader` reads the first bytes of a file that comes from anywhere: the fixed
header and then one key with its value after the other, as long as the window holds
them. The results are that no number in the file leads the reader out of the window
(`parseGgufHeader_runs`), that what stands in the window is read as the keys and values
it consists of (`parseKeyValues_spec`), and that a defect that is found in a window is
one of every longer window (`parseGgufHeader_of_invalid`).
-/

namespace AzooKey.Host

open WindowReader

/-- `kGgufHeaderWindow`. -/
def ggufHeaderWindow : ℕ := 4096

/-- `kMaxGgufCount`. -/
def maxGgufCount : ℕ := 1000000

/-- What `LocalModelEntry` holds of the header. -/
structure LocalModelEntry where
  valid : Bool := false
  invalidReason : String := ""
  modelFamily : Bytes := []
  quantization : String := ""
  nParams : ℕ := 0
deriving DecidableEq

/-! ## The reader -/

/-- `GgufReader::ReadU32`. -/
def readU32 (data : Bytes) : Reader ℕ := readLe 4 data

/-- `GgufReader::ReadU64`. -/
def readU64 (data : Bytes) : Reader ℕ := readLe 8 data

/-- `GgufReader::ReadString`. -/
def readString (data : Bytes) : Reader Bytes := do
  let length ← readU64 data
  readBytes length data

namespace GgufType

/-! `GgufType`. -/

@[match_pattern] abbrev kU8 : ℕ := 0
@[match_pattern] abbrev kI8 : ℕ := 1
@[match_pattern] abbrev kU16 : ℕ := 2
@[match_pattern] abbrev kI16 : ℕ := 3
@[match_pattern] abbrev kU32 : ℕ := 4
@[match_pattern] abbrev kI32 : ℕ := 5
@[match_pattern] abbrev kF32 : ℕ := 6
@[match_pattern] abbrev kBool : ℕ := 7
@[match_pattern] abbrev kString : ℕ := 8
@[match_pattern] abbrev kArray : ℕ := 9
@[match_pattern] abbrev kU64 : ℕ := 10
@[match_pattern] abbrev kI64 : ℕ := 11
@[match_pattern] abbrev kF64 : ℕ := 12

end GgufType

open GgufType

/-- `ScalarSize`. -/
def scalarSize : ℕ → Option ℕ
  | kU8 | kI8 | kBool => some 1
  | kU16 | kI16 => some 2
  | kU32 | kI32 | kF32 => some 4
  | kU64 | kI64 | kF64 => some 8
  | _ => none

/-- The loop of `SkipValue` over the strings of an array. -/
def skipStrings (data : Bytes) : ℕ → Reader Unit
  | 0 => pure ()
  | count + 1 => do
    let _ ← readString data
    skipStrings data count

/-- The elements of an array in `SkipValue`. -/
def skipElements (elementType count : ℕ) (data : Bytes) : Reader Unit :=
  match scalarSize elementType with
  | some size =>
    if count > ggufHeaderWindow then failure
    else do
      let bytes ← checkedMul count size
      skip bytes data
  | none =>
    if elementType ≠ kString ∨ count > ggufHeaderWindow then failure
    else skipStrings data count

/-- `SkipValue`. -/
def skipValue (type : ℕ) (data : Bytes) : Reader Unit :=
  match scalarSize type with
  | some size => skip size data
  | none =>
    if type = kString then do
      let _ ← readString data
      return ()
    else if type ≠ kArray then failure
    else do
      let elementType ← readU32 data
      let count ← readU64 data
      skipElements elementType count data

/-- `kNames` of `QuantizationName`. -/
def quantizationNames : List (ℕ × String) :=
  [(0, "F32"), (1, "F16"), (2, "Q4_0"), (3, "Q4_1"), (7, "Q8_0"),
    (8, "Q5_0"), (9, "Q5_1"), (10, "Q2_K"), (11, "Q3_K_S"), (12, "Q3_K_M"),
    (13, "Q3_K_L"), (14, "Q4_K_S"), (15, "Q4_K_M"), (16, "Q5_K_S"), (17, "Q5_K_M"),
    (18, "Q6_K"), (32, "BF16")]

/-- `QuantizationName`. -/
def quantizationName (fileType : ℕ) : String :=
  ((quantizationNames.find? (fun name => name.1 = fileType)).map Prod.snd).getD ""

/-- `MarkInvalid`. -/
def LocalModelEntry.markInvalid (entry : LocalModelEntry) (reason : String) : LocalModelEntry :=
  { entry with valid := false, invalidReason := reason }

/-! ## The header -/

/-- The entry and `has_architecture`, as they are between two keys. -/
structure ParseState where
  entry : LocalModelEntry
  hasArchitecture : Bool := false

/-- The value of a key, in the loop of `ParseGgufHeader`. -/
def parseValue (st : ParseState) (key : Bytes) (type : ℕ) (data : Bytes) : Reader ParseState :=
  if key = utf8 "general.architecture" ∧ type = kString then do
    let family ← readString data
    return ⟨{ st.entry with modelFamily := family }, true⟩
  else if key = utf8 "general.file_type" ∧ type = kU32 then do
    let fileType ← readU32 data
    return { st with entry := { st.entry with quantization := quantizationName fileType } }
  else if key = utf8 "general.parameter_count" ∧ type = kU64 then do
    let nParams ← readU64 data
    return { st with entry := { st.entry with nParams := nParams } }
  else do
    skipValue type data
    return st

/-- A key and its value. -/
def parseKeyValue (st : ParseState) (data : Bytes) : Reader ParseState := do
  let key ← readString data
  let type ← readU32 data
  parseValue st key type data

/-- The loop, with whether it came to its end: a reader that gives up breaks it, and
leaves what the loop has set. -/
def parseKeyValues (data : Bytes) : ℕ → ParseState → Faulting ℕ (Bool × ParseState)
  | 0, st => pure (true, st)
  | n + 1, st => do
    match ← (parseKeyValue st data).run with
    | none => return (false, st)
    | some st => parseKeyValues data n st

/-- The counts of the header. -/
def readCounts (data : Bytes) : Reader (ℕ × ℕ) := do
  let tensorCount ← readU64 data
  let kvCount ← readU64 data
  return (tensorCount, kvCount)

/-- `ParseGgufHeader` behind the magic. -/
def parseBody (data : Bytes) (entry : LocalModelEntry) : Faulting ℕ LocalModelEntry := do
  let version := (← (readU32 data).run).getD 0
  if version ≠ 2 ∧ version ≠ 3 then return entry.markInvalid "unsupported_version"
  match ← (readCounts data).run with
  | none => return entry.markInvalid "truncated_header"
  | some (tensorCount, kvCount) =>
    if tensorCount = 0 ∨ tensorCount > maxGgufCount ∨ kvCount > maxGgufCount then
      return entry.markInvalid "invalid_header"
    let (parsedAll, st) ← parseKeyValues data kvCount ⟨entry, false⟩
    if parsedAll ∧ ¬ st.hasArchitecture then return st.entry.markInvalid "missing_metadata"
    return { st.entry with valid := true }

/-- `size >= 4 && std::memcmp(data, "GGUF", 4) != 0`. -/
def magicDiffers (window : Bytes) : Option Bool :=
  if 4 ≤ window.length then (bytesAt window 4 0).map (fun r => decide (r.1 ≠ utf8 "GGUF"))
  else some false

/-- **`ParseGgufHeader`.** -/
def parseGgufHeader (window : Bytes) (entry : LocalModelEntry) : Option LocalModelEntry := do
  if ← magicDiffers window then return entry.markInvalid "magic_mismatch"
  if window.length < 8 then return entry.markInvalid "truncated_header"
  let (entry, _) ← parseBody (window.drop 4) entry 0
  return entry

/-! ## The texts of the format -/

/-- A string, with its size in front. -/
def stringText (text : Bytes) : Bytes := LittleEndian.encode 8 text.length ++ text

/-- The texts of the elements of arrays. -/
inductive IsElements : ℕ → ℕ → Bytes → Prop
  /-- Numbers. -/
  | scalars {elementType count size : ℕ} {bytes : Bytes} (hsize : scalarSize elementType = some size)
      (hlength : bytes.length = count * size) : IsElements elementType count bytes
  /-- Strings. -/
  | strings (texts : List Bytes) : IsElements kString texts.length (texts.flatMap stringText)

/-- The texts of values of a type. -/
inductive IsValue : ℕ → Bytes → Prop
  /-- A number. -/
  | scalar {type size : ℕ} {bytes : Bytes} (hsize : scalarSize type = some size)
      (hlength : bytes.length = size) : IsValue type bytes
  /-- A string. -/
  | string (text : Bytes) : IsValue kString (stringText text)
  /-- An array. -/
  | array {elementType count : ℕ} {elements : Bytes} (h : IsElements elementType count elements) :
      IsValue kArray (LittleEndian.encode 4 elementType ++ (LittleEndian.encode 8 count ++ elements))

/-- The text of a key and a value. -/
def IsKeyValue (text : Bytes) : Prop :=
  ∃ key type value, text = stringText key ++ (LittleEndian.encode 4 type ++ value)
    ∧ IsValue type value

/-- The text of an architecture. -/
def architectureText (family : Bytes) : Bytes :=
  stringText (utf8 "general.architecture")
    ++ (LittleEndian.encode 4 kString ++ stringText family)

/-! ## What the readers read -/

/-- A number in four bytes. -/
theorem reads_readU32 : Reads readU32 (fun a text => text = LittleEndian.encode 4 a) :=
  (reads_readLe 4).imp (fun a text h => by
    rw [h.2, LittleEndian.encode_decode_of_length h.1])

/-- A number in eight bytes. -/
theorem reads_readU64 : Reads readU64 (fun a text => text = LittleEndian.encode 8 a) :=
  (reads_readLe 8).imp (fun a text h => by
    rw [h.2, LittleEndian.encode_decode_of_length h.1])

/-- A string. -/
theorem reads_readString : Reads readString (fun a text => text = stringText a) := by
  refine (reads_readU64.bind (fun length => reads_readBytes length)).imp (fun a text h => ?_)
  obtain ⟨length, first, second, rfl, rfl, rfl, rfl⟩ := h
  rfl

/-- Strings one after the other. -/
theorem reads_skipStrings (count : ℕ) : Reads (fun data => skipStrings data count)
    (fun _ text => ∃ texts : List Bytes, texts.length = count ∧ text = texts.flatMap stringText) := by
  induction count with
  | zero =>
    refine (Reads.pure ()).imp (fun _ text h => ?_)
    exact ⟨[], rfl, h.2⟩
  | succ count ih =>
    refine (reads_readString.bind (fun _ => ih)).imp (fun _ text h => ?_)
    obtain ⟨a, first, second, rfl, rfl, texts, rfl, rfl⟩ := h
    exact ⟨a :: texts, rfl, rfl⟩

/-- The sizes of numbers are small. -/
theorem scalarSize_le {type size : ℕ} (h : scalarSize type = some size) : size ≤ 8 := by
  unfold scalarSize at h
  split at h <;> cases h <;> decide

/-- The elements of an array are passed over as a whole, and their size is computed
without a loss. -/
theorem reads_skipElements (elementType count : ℕ) : Reads (skipElements elementType count)
    (fun _ text => IsElements elementType count text) := by
  unfold skipElements
  split
  · next size hsize =>
    by_cases hcount : count > ggufHeaderWindow
    · simp only [if_pos hcount]
      exact Reads.fail _
    · simp only [if_neg hcount]
      have hfits : count * size < 2 ^ 64 := by
        have hmul := Nat.mul_le_mul (Nat.le_of_not_lt hcount) (scalarSize_le hsize)
        unfold ggufHeaderWindow at hmul
        omega
      exact (Reads.checkedMul hfits (reads_skip (count * size))).imp
        (fun _ text h => .scalars hsize h)
  · split
    · exact Reads.fail _
    · next htype =>
      have hstring : elementType = kString := not_not.mp (fun h => htype (Or.inl h))
      refine (reads_skipStrings count).imp (fun _ text h => ?_)
      obtain ⟨texts, rfl, rfl⟩ := h
      rw [hstring]
      exact .strings texts

/-- **A value is passed over as a whole.** -/
theorem reads_skipValue (type : ℕ) :
    Reads (skipValue type) (fun _ text => IsValue type text) := by
  unfold skipValue
  split
  · next size hsize => exact (reads_skip size).imp (fun _ text h => .scalar hsize h)
  · split
    · next htype =>
      subst htype
      refine (reads_readString.bind (fun _ => Reads.pure ())).imp (fun _ text h => ?_)
      obtain ⟨a, first, second, rfl, rfl, -, rfl⟩ := h
      rw [List.append_nil]
      exact .string a
    · split
      · exact Reads.fail _
      · next htype =>
        have harray : type = kArray := not_not.mp htype
        refine (reads_readU32.bind (fun elementType => reads_readU64.bind
          (fun count => reads_skipElements elementType count))).imp (fun _ text h => ?_)
        obtain ⟨elementType, first, rest, rfl, rfl, count, second, elements, rfl, rfl, helements⟩ := h
        rw [harray]
        exact .array helements

/-- A reader with an answer for what it has read. -/
theorem reads_return {α β : Type} {m : Bytes → Reader α} {E : α → Bytes → Prop} (hm : Reads m E)
    (g : α → β) : Reads (fun data => do return g (← m data))
      (fun b text => ∃ a, E a text ∧ b = g a) := by
  refine (hm.bind (fun a => Reads.pure (g a))).imp (fun b text h => ?_)
  obtain ⟨a, first, second, rfl, hE, rfl, rfl⟩ := h
  rw [List.append_nil]
  exact ⟨a, hE, rfl⟩

/-- A value is read as a whole, and the name of the family is only changed by the value
of an architecture. -/
theorem reads_parseValue (st : ParseState) (key : Bytes) (type : ℕ) :
    Reads (parseValue st key type) (fun st' value => IsValue type value
      ∧ (st'.entry.modelFamily = st.entry.modelFamily
        ∨ key = utf8 "general.architecture" ∧ type = kString
          ∧ value = stringText st'.entry.modelFamily)) := by
  unfold parseValue
  split
  · next h =>
    refine (reads_return reads_readString _).imp (fun st' value hvalue => ?_)
    obtain ⟨family, rfl, rfl⟩ := hvalue
    rw [h.2]
    exact ⟨.string family, Or.inr ⟨h.1, rfl, rfl⟩⟩
  · split
    · next h =>
      refine (reads_return reads_readU32 _).imp (fun st' value hvalue => ?_)
      obtain ⟨fileType, rfl, rfl⟩ := hvalue
      rw [h.2]
      exact ⟨@IsValue.scalar _ 4 _ rfl (LittleEndian.length_encode 4 fileType), Or.inl rfl⟩
    · split
      · next h =>
        refine (reads_return reads_readU64 _).imp (fun st' value hvalue => ?_)
        obtain ⟨nParams, rfl, rfl⟩ := hvalue
        rw [h.2]
        exact ⟨@IsValue.scalar _ 8 _ rfl (LittleEndian.length_encode 8 nParams), Or.inl rfl⟩
      · refine (reads_return (reads_skipValue type) (fun _ => st)).imp (fun st' value hvalue => ?_)
        obtain ⟨-, hvalue, rfl⟩ := hvalue
        exact ⟨hvalue, Or.inl rfl⟩

/-- **A key and its value are read as a whole.** -/
theorem reads_parseKeyValue (st : ParseState) :
    Reads (parseKeyValue st) (fun st' text => IsKeyValue text
      ∧ (st'.entry.modelFamily = st.entry.modelFamily
        ∨ text = architectureText st'.entry.modelFamily)) := by
  refine (reads_readString.bind (fun key => reads_readU32.bind
    (fun type => reads_parseValue st key type))).imp (fun st' text h => ?_)
  obtain ⟨key, first, rest, rfl, rfl, type, second, value, rfl, rfl, hvalue, hfamily⟩ := h
  refine ⟨⟨key, type, value, rfl, hvalue⟩, hfamily.imp id (fun h => ?_)⟩
  obtain ⟨rfl, rfl, rfl⟩ := h
  rfl

/-- What the loop has read: whole keys and values, and the name of the family is that
of one of them or the one before. -/
def LoopReads (st st' : ParseState) (text : Bytes) : Prop :=
  ∃ kvs : List Bytes, text = kvs.flatten ∧ (∀ kv ∈ kvs, IsKeyValue kv)
    ∧ (st'.entry.modelFamily = st.entry.modelFamily
      ∨ architectureText st'.entry.modelFamily ∈ kvs)

/-- **The loop stays in the window and reads whole keys and values.** -/
theorem parseKeyValues_spec {data : Bytes} (hdata : data.length < 2 ^ 64) (n : ℕ) (st : ParseState)
    {pos : ℕ} (hpos : pos ≤ data.length) :
    ∃ parsedAll st' pos' text rest, parseKeyValues data n st pos = some ((parsedAll, st'), pos')
      ∧ pos' ≤ data.length ∧ data.drop pos = text ++ rest ∧ LoopReads st st' text := by
  induction n generalizing st pos with
  | zero => exact ⟨true, st, pos, [], data.drop pos, rfl, hpos, rfl, [], rfl, by simp, Or.inl rfl⟩
  | succ n ih =>
    obtain ⟨r, pos₁, hrun, hpos₁⟩ := (reads_parseKeyValue st).runs data hdata pos hpos
    rw [parseKeyValues, Faulting.bind_of_eq_some hrun]
    cases r with
    | none =>
      exact ⟨false, st, pos₁, [], data.drop pos, rfl, hpos₁, rfl, [], rfl, by simp, Or.inl rfl⟩
    | some st₁ =>
      obtain ⟨-, text₁, hdrop₁, hkv, hfamily₁⟩ :=
        (reads_parseKeyValue st).consumes data pos st₁ pos₁ hpos hrun
      obtain ⟨parsedAll, st', pos', text, rest, hloop, hpos', hdrop, kvs, rfl, hkvs, hfamily⟩ :=
        ih st₁ hpos₁
      refine ⟨parsedAll, st', pos', text₁ ++ kvs.flatten, rest, hloop, hpos',
        by rw [hdrop₁, hdrop, List.append_assoc], text₁ :: kvs, rfl, ?_, ?_⟩
      · exact List.forall_mem_cons.mpr ⟨hkv, hkvs⟩
      · rcases hfamily with hfamily | hfamily
        · rw [hfamily]
          exact hfamily₁.imp id (fun h => List.mem_cons.mpr (Or.inl h.symm))
        · exact Or.inr (List.mem_cons_of_mem _ hfamily)

/-- A loop that comes to its end does so in a longer window. -/
theorem parseKeyValues_append {data : Bytes} (more : Bytes) {n : ℕ} {st st' : ParseState}
    {pos pos' : ℕ} (h : parseKeyValues data n st pos = some ((true, st'), pos')) :
    parseKeyValues (data ++ more) n st pos = some ((true, st'), pos') := by
  induction n generalizing st pos with
  | zero => exact h
  | succ n ih =>
    rw [parseKeyValues] at h ⊢
    obtain ⟨r, pos₁, hrun, hrest⟩ := Faulting.exists_of_bind h
    cases r with
    | none => cases hrest
    | some st₁ =>
      rw [Faulting.bind_of_eq_some
        ((reads_parseKeyValue st).stable data more pos st₁ pos₁ hrun)]
      exact ih hrest

/-- The counts are sixteen bytes. -/
theorem reads_readCounts : Reads readCounts (fun counts text =>
    text = LittleEndian.encode 8 counts.1 ++ LittleEndian.encode 8 counts.2) := by
  refine (reads_readU64.bind (fun tensorCount => reads_return reads_readU64
    (fun kvCount => (tensorCount, kvCount)))).imp (fun counts text h => ?_)
  obtain ⟨tensorCount, first, second, rfl, rfl, kvCount, rfl, rfl⟩ := h
  rfl

/-! ## The header as a whole -/

/-- The name of the family is the one before, or that of one of the keys and values
behind the fixed header. -/
def FamilyFrom (window : Bytes) (entry entry' : LocalModelEntry) : Prop :=
  entry'.modelFamily = entry.modelFamily
    ∨ ∃ (header : Bytes) (kvs : List Bytes) (rest : Bytes), window = header ++ (kvs.flatten ++ rest) ∧ header.length = 24
      ∧ (∀ kv ∈ kvs, IsKeyValue kv) ∧ architectureText entry'.modelFamily ∈ kvs

/-- **The part behind the magic** is read without a fault. -/
theorem parseBody_spec {data : Bytes} (hdata : data.length < 2 ^ 64) {magic : Bytes}
    (hmagic : magic.length = 4) (entry : LocalModelEntry) :
    ∃ entry' pos, parseBody data entry 0 = some (entry', pos)
      ∧ FamilyFrom (magic ++ data) entry entry' := by
  obtain ⟨version, pos₁, hversion, hpos₁⟩ := reads_readU32.runs data hdata 0 (Nat.zero_le _)
  obtain ⟨counts, pos₂, hcounts, hpos₂⟩ := reads_readCounts.runs data hdata pos₁ hpos₁
  rw [parseBody, Faulting.bind_of_eq_some hversion]
  dsimp only
  split
  · exact ⟨_, pos₁, rfl, Or.inl rfl⟩
  · next hsupported =>
    rw [Faulting.bind_of_eq_some hcounts]
    cases counts with
    | none => exact ⟨_, pos₂, rfl, Or.inl rfl⟩
    | some counts =>
      obtain ⟨tensorCount, kvCount⟩ := counts
      dsimp only
      split
      · exact ⟨_, pos₂, rfl, Or.inl rfl⟩
      · obtain ⟨parsedAll, st', pos', text, rest, hloop, hpos', hdrop, kvs, rfl, hkvs, hfamily⟩ :=
          parseKeyValues_spec hdata kvCount ⟨entry, false⟩ hpos₂
        have hfrom : FamilyFrom (magic ++ data) entry st'.entry := by
          refine hfamily.imp id (fun hmem => ?_)
          cases version with
          | none => exact absurd ⟨by decide, by decide⟩ hsupported
          | some version =>
            obtain ⟨-, first, hfirst, rfl⟩ :=
              reads_readU32.consumes data 0 version pos₁ (Nat.zero_le _) hversion
            obtain ⟨-, second, hsecond, rfl⟩ :=
              reads_readCounts.consumes data pos₁ _ pos₂ hpos₁ hcounts
            refine ⟨magic ++ (LittleEndian.encode 4 version ++ (LittleEndian.encode 8 tensorCount
              ++ LittleEndian.encode 8 kvCount)), kvs, rest, ?_, ?_, hkvs, hmem⟩
            · rw [List.drop_zero] at hfirst
              rw [hfirst, hsecond, hdrop]
              simp only [List.append_assoc]
            · simp only [List.length_append, LittleEndian.length_encode, hmagic]
        rw [Faulting.bind_of_eq_some hloop]
        dsimp only
        split
        · exact ⟨_, pos', rfl, hfrom⟩
        · exact ⟨_, pos', rfl, hfrom⟩

/-- **No number in the file leads the reader out of the window**, and the name of the
family is only taken from a whole value. -/
theorem parseGgufHeader_runs (window : Window) (entry : LocalModelEntry) :
    ∃ entry', parseGgufHeader window.bytes entry = some entry'
      ∧ FamilyFrom window.bytes entry entry' := by
  have hdiffers : ∃ differs, magicDiffers window.bytes = some differs := by
    unfold magicDiffers
    split
    · next h => rw [bytesAt, if_pos (by omega)]; exact ⟨_, rfl⟩
    · exact ⟨_, rfl⟩
  obtain ⟨differs, hdiffers⟩ := hdiffers
  unfold parseGgufHeader
  rw [hdiffers]
  show ∃ entry', (if differs then _ else _) = some entry' ∧ _
  split
  · exact ⟨_, rfl, Or.inl rfl⟩
  · split
    · exact ⟨_, rfl, Or.inl rfl⟩
    · next hlong =>
      obtain ⟨entry', pos, hrun, hfrom⟩ := parseBody_spec (window.drop 4).length_lt
        (show (window.bytes.take 4).length = 4 by rw [List.length_take]; omega) entry
      refine ⟨entry', ?_, ?_⟩
      · show (parseBody (window.bytes.drop 4) entry 0).bind _ = _
        rw [show window.bytes.drop 4 = (window.drop 4).bytes from rfl, hrun]
        rfl
      · rwa [show (window.drop 4).bytes = window.bytes.drop 4 from rfl, List.take_append_drop]
          at hfrom

/-! ## Windows of different sizes -/

/-- A defect behind the magic is found in a longer window, too. -/
theorem parseBody_of_invalid {data : Bytes} (more : Bytes) (hlong : 20 ≤ data.length)
    (hdata : data.length < 2 ^ 64) {entry entry' : LocalModelEntry} {pos : ℕ}
    (h : parseBody data entry 0 = some (entry', pos)) (hinvalid : entry'.valid = false) :
    parseBody (data ++ more) entry 0 = some (entry', pos) := by
  obtain ⟨version, hversion⟩ := @run_readLe_of_le 4 0 data hdata (by omega)
  obtain ⟨tensorCount, htensor⟩ := @run_readLe_of_le 8 (0 + 4) data hdata (by omega)
  obtain ⟨kvCount, hkv⟩ := @run_readLe_of_le 8 (0 + 4 + 8) data hdata (by omega)
  have hcounts : (readCounts data).run (0 + 4) = some (some (tensorCount, kvCount), 0 + 4 + 8 + 8) := by
    rw [readCounts, readU64, run_bind_eq, htensor]
    show (readLe 8 data >>= fun kvCount => pure (tensorCount, kvCount) : Reader (ℕ × ℕ)).run _ = _
    rw [run_bind_eq, hkv]
    rfl
  rw [parseBody, Faulting.bind_of_eq_some (m := (readU32 data).run) hversion] at h
  rw [parseBody, Faulting.bind_of_eq_some (m := (readU32 (data ++ more)).run)
    (reads_readU32.stable data more _ _ _ hversion)]
  dsimp only at h ⊢
  by_cases hsupported : (some version).getD 0 ≠ 2 ∧ (some version).getD 0 ≠ 3
  · rw [if_pos hsupported] at h ⊢
    exact h
  · rw [if_neg hsupported] at h ⊢
    rw [Faulting.bind_of_eq_some hcounts] at h
    rw [Faulting.bind_of_eq_some (reads_readCounts.stable data more _ _ _ hcounts)]
    dsimp only at h ⊢
    by_cases hrange : tensorCount = 0 ∨ tensorCount > maxGgufCount ∨ kvCount > maxGgufCount
    · rw [if_pos hrange] at h ⊢
      exact h
    · rw [if_neg hrange] at h ⊢
      obtain ⟨⟨parsedAll, st'⟩, pos', hloop, hrest⟩ := Faulting.exists_of_bind h
      dsimp only at hrest
      -- only a loop that came to its end leads to a defect
      by_cases hmissing : parsedAll ∧ ¬ st'.hasArchitecture
      · obtain ⟨rfl, -⟩ := hmissing
        rw [Faulting.bind_of_eq_some (parseKeyValues_append more hloop)]
        exact hrest
      · rw [if_neg hmissing] at hrest
        cases hrest
        cases hinvalid

/-- The magic is found where it is. -/
theorem magicDiffers_eq_some {window : Bytes} (h : 4 ≤ window.length) :
    magicDiffers window = some (decide (window.take 4 ≠ utf8 "GGUF")) := by
  rw [magicDiffers, if_pos h, bytesAt, if_pos (by omega)]
  rfl

/-- **A defect that is found in a window with the fixed header** is found in every
longer window, with the same entry. -/
theorem parseGgufHeader_of_invalid {window : Bytes} (more : Bytes) (hlong : 24 ≤ window.length)
    (hlt : window.length < 2 ^ 64) {entry entry' : LocalModelEntry}
    (h : parseGgufHeader window entry = some entry') (hinvalid : entry'.valid = false) :
    parseGgufHeader (window ++ more) entry = some entry' := by
  have htake : (window ++ more).take 4 = window.take 4 :=
    List.take_append_of_le_length (by omega)
  have hdrop : (window ++ more).drop 4 = window.drop 4 ++ more :=
    List.drop_append_of_le_length (by omega)
  unfold parseGgufHeader at h ⊢
  rw [magicDiffers_eq_some (by rw [List.length_append]; omega), htake, hdrop]
  rw [magicDiffers_eq_some (by omega)] at h
  simp only [Option.bind_eq_bind, Option.bind_some] at h ⊢
  by_cases hmagic : decide (window.take 4 ≠ utf8 "GGUF") = true
  · rw [if_pos hmagic] at h ⊢
    exact h
  · rw [if_neg hmagic, if_neg (by omega)] at h
    rw [if_neg hmagic, if_neg (by rw [List.length_append]; omega)]
    obtain ⟨⟨entry₁, pos⟩, hbody, hrest⟩ := Option.bind_eq_some_iff.mp h
    cases hrest
    rw [parseBody_of_invalid more (by rw [List.length_drop]; omega)
      (by rw [List.length_drop]; omega) hbody hinvalid]
    rfl

/-- **The verdict on a header.** The reader stays in every window and comes to an end;
the family is only taken from a whole value; and a header that is valid with a window is
valid with every beginning of it that holds the fixed header. -/
theorem parseGgufHeader_spec (window : Window) (entry : LocalModelEntry) :
    ∃ entry', parseGgufHeader window.bytes entry = some entry'
      ∧ FamilyFrom window.bytes entry entry'
      ∧ (entry'.valid = true → ∀ n, 24 ≤ (window.take n).bytes.length →
          ∃ cut, parseGgufHeader (window.take n).bytes entry = some cut ∧ cut.valid = true) := by
  obtain ⟨entry', hrun, hfamily⟩ := parseGgufHeader_runs window entry
  refine ⟨entry', hrun, hfamily, fun hvalid n hn => ?_⟩
  obtain ⟨cut, hcut, -⟩ := parseGgufHeader_runs (window.take n) entry
  refine ⟨cut, hcut, ?_⟩
  by_contra hinvalid
  have hwhole := parseGgufHeader_of_invalid (window.bytes.drop n) hn (window.take n).length_lt hcut
    (Bool.eq_false_iff.mpr hinvalid)
  rw [show (window.take n).bytes = window.bytes.take n from rfl, List.take_append_drop, hrun]
    at hwhole
  cases hwhole
  exact hinvalid hvalid

/-- A header with its architecture. -/
example : parseGgufHeader (utf8 "GGUF" ++ (LittleEndian.encode 4 3 ++ (LittleEndian.encode 8 1
    ++ (LittleEndian.encode 8 1 ++ architectureText (utf8 "gpt2"))))) {}
    = some { valid := true, modelFamily := utf8 "gpt2" } := by
  rfl

end AzooKey.Host

import AzooKey.Lib.Escapes
import AzooKey.Lib.Getline
import AzooKey.Lib.ParseNumber

/-!
# What the text of the learning stores is made of

The stores under `learning/src` keep their tables as tab separated text: the
escapes of a field, the tokens of a field that holds two numbers, the counters
that stop at their maximum, and the policy for a row that an import finds
already there. Each source file has its own copy of these functions.
-/

namespace AzooKey.Learning

/-! ## Fields -/

/-- The octets that `EscapeTsvField` escapes: the backslash, the tab, the two
line ends and the number sign. -/
def tsvEscapes : Escapes where
  pairs := [(0x5c, 0x5c), (0x09, 0x74), (0x0a, 0x6e), (0x0d, 0x72), (0x23, 0x23)]
  backslash := by decide
  letters := by decide

/-- `EscapeTsvField`. -/
def escapeTsvField (value : Bytes) : Bytes := tsvEscapes.escape value

/-- `UnescapeTsvField`. -/
def unescapeTsvField (value : Bytes) : Bytes := tsvEscapes.unescape value

/-- **A field reads back.** -/
theorem unescape_escapeTsvField (value : Bytes) :
    unescapeTsvField (escapeTsvField value) = value :=
  tsvEscapes.unescape_escape value

/-- A field holds no separator. -/
theorem not_mem_escapeTsvField (value : Bytes) :
    0x09 ∉ escapeTsvField value ∧ 0x0a ∉ escapeTsvField value :=
  ⟨tsvEscapes.not_mem_escape (by decide) (by decide) (by decide) value,
    tsvEscapes.not_mem_escape (by decide) (by decide) (by decide) value⟩

/-- A line that starts with a field is no comment, and is not empty if the field
is not. -/
theorem head?_escapeTsvField (value rest : Bytes) (h : value ≠ []) :
    escapeTsvField value ++ rest ≠ [] ∧ (escapeTsvField value ++ rest).head? ≠ some 0x23 := by
  have hne : escapeTsvField value ≠ [] := fun h' => h (tsvEscapes.escape_eq_nil.mp h')
  refine ⟨fun h' => hne (List.append_eq_nil_iff.mp h').1, ?_⟩
  rw [List.head?_append_of_ne_nil _ hne]
  exact tsvEscapes.head_escape (by decide) (by decide) value

/-- The digits of a number hold no separator. -/
theorem not_mem_decimalDigits (n : ℕ) : 0x09 ∉ decimalDigits n ∧ 0x0a ∉ decimalDigits n :=
  ⟨fun h => absurd (isDigitByte_of_mem_decimalDigits h) (by decide),
    fun h => absurd (isDigitByte_of_mem_decimalDigits h) (by decide)⟩

/-! ## Tokens -/

/-- `IsAsciiWhitespace`. -/
def isAsciiWhitespace (ch : UInt8) : Bool :=
  ch = 0x20 || ch = 0x09 || ch = 0x0a || ch = 0x0d || ch = 0x0c || ch = 0x0b

/-- `TrimLeadingAsciiWhitespace`. -/
def trimLeadingAsciiWhitespace (value : Bytes) : Bytes := value.dropWhile isAsciiWhitespace

/-- `ConsumeAsciiToken`: the token, and the input behind it. -/
def consumeAsciiToken (input : Bytes) : Option (Bytes × Bytes) :=
  let input := trimLeadingAsciiWhitespace input
  if input = [] then none
  else some (input.takeWhile (fun ch => !isAsciiWhitespace ch),
    input.dropWhile (fun ch => !isAsciiWhitespace ch))

/-- A digit is no white space. -/
theorem not_isAsciiWhitespace {c : UInt8} (h : isDigitByte c = true) :
    isAsciiWhitespace c = false := by
  unfold isAsciiWhitespace
  simp only [Bool.or_eq_false_iff, decide_eq_false_iff_not]
  refine ⟨⟨⟨⟨⟨?_, ?_⟩, ?_⟩, ?_⟩, ?_⟩, ?_⟩ <;> rintro rfl <;> exact absurd h (by decide)

/-- **A token is consumed up to the white space behind it.** -/
theorem consumeAsciiToken_append {token rest : Bytes} (hne : token ≠ [])
    (htoken : ∀ c ∈ token, isAsciiWhitespace c = false)
    (hrest : ∀ c ∈ rest.head?, isAsciiWhitespace c = true) :
    consumeAsciiToken (token ++ rest) = some (token, rest) := by
  have htrim : trimLeadingAsciiWhitespace (token ++ rest) = token ++ rest := by
    obtain ⟨c, t, rfl⟩ := List.exists_cons_of_ne_nil hne
    exact List.dropWhile_cons_of_neg (by rw [htoken c List.mem_cons_self]; simp)
  have hpos : ∀ c ∈ token, (!isAsciiWhitespace c) = true := fun c hc => by rw [htoken c hc]; rfl
  unfold consumeAsciiToken
  simp only [htrim]
  rw [if_neg (fun h => hne (List.append_eq_nil_iff.mp h).1), List.takeWhile_append_of_pos hpos,
    List.dropWhile_append_of_pos hpos]
  cases rest with
  | nil => simp
  | cons c rest =>
    have hc := hrest c rfl
    rw [List.takeWhile_cons_of_neg (by simp [hc]), List.dropWhile_cons_of_neg (by simp [hc]),
      List.append_nil]

/-- White space before a token is skipped. -/
theorem consumeAsciiToken_space (input : Bytes) :
    consumeAsciiToken (0x20 :: input) = consumeAsciiToken input := by
  have htrim : trimLeadingAsciiWhitespace (0x20 :: input) = trimLeadingAsciiWhitespace input :=
    List.dropWhile_cons_of_pos (by decide)
  unfold consumeAsciiToken
  rw [htrim]

/-! ## Imports and counters -/

/-- `ImportConflictPolicy`. -/
inductive ImportConflictPolicy
  | merge
  | overwrite
  | keepBoth
deriving DecidableEq

/-- `ImportCounts`. -/
structure ImportCounts where
  imported : ℕ := 0
  skipped : ℕ := 0
  conflicts : ℕ := 0

/-- `std::min(sum, max)` of two 32-bit counts, summed in 64 bits. -/
def saturatingAdd (a b : UInt32) : UInt32 := UInt32.ofNat (min (a.toNat + b.toNat) (2 ^ 32 - 1))

/-- A 32-bit count after one more, which stays at its maximum. -/
def countUp (count : UInt32) : UInt32 := if count < 0xffffffff then count + 1 else count

end AzooKey.Learning

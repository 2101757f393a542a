import AzooKey.Lib.Utf8

/-!
# Counting and erasing code points

In a well-formed text each code point has one octet that is no trailing one, so
that counting these octets counts the code points (`codePoints`), and erasing
the trailing octets at the end of a text and one more erases the last code point
(`eraseLast_append`).
-/

/-- The number of code points of a text. -/
def codePoints (text : Bytes) : ℕ := text.countP (fun c => !isTrailing c)

/-- A text without its last code point. -/
def eraseLast (text : Bytes) : Bytes := ((text.reverse.dropWhile isTrailing).drop 1).reverse

@[simp] theorem codePoints_nil : codePoints [] = 0 := rfl

@[simp] theorem codePoints_append (s t : Bytes) :
    codePoints (s ++ t) = codePoints s + codePoints t := List.countP_append

/-- A sequence is a lead octet and trailing octets. -/
theorem exists_lead_of_isScalar {s : Bytes} (h : isScalar s = true) :
    ∃ lead tail, s = lead :: tail ∧ isTrailing lead = false ∧ ∀ b ∈ tail, isTrailing b = true := by
  obtain ⟨lead, tail, rfl⟩ := List.exists_cons_of_ne_nil (ne_nil_of_isScalar h)
  refine ⟨lead, tail, rfl, (ValidUtf8.of_isScalar h).not_isTrailing_head, fun b hb => ?_⟩
  rcases isScalar_cases h with ⟨a, heq, -⟩ | ⟨a, b₁, heq, -, -, h₁⟩ |
    ⟨a, b₁, b₂, heq, -, -, h₁, h₂, -⟩ | ⟨a, b₁, b₂, b₃, heq, -, -, h₁, h₂, h₃, -⟩
  all_goals
    rw [(List.cons.inj heq).2] at hb
    simp only [List.mem_cons, List.not_mem_nil, or_false] at hb
  · rw [hb]
    exact h₁
  · rcases hb with rfl | rfl
    exacts [h₁, h₂]
  · rcases hb with rfl | rfl | rfl
    exacts [h₁, h₂, h₃]

/-- A sequence is one code point. -/
theorem codePoints_of_isScalar {s : Bytes} (h : isScalar s = true) : codePoints s = 1 := by
  obtain ⟨lead, tail, rfl, hlead, htail⟩ := exists_lead_of_isScalar h
  have hzero : codePoints tail = 0 := List.countP_eq_zero.mpr (by simpa using htail)
  show codePoints ([lead] ++ tail) = 1
  rw [codePoints_append, hzero]
  simp [codePoints, hlead]

set_option maxRecDepth 10000 in
/-- A text of octets below `0x80` has a code point for each. -/
theorem codePoints_of_ascii {text : Bytes} (h : ∀ c ∈ text, c < 0x80) :
    codePoints text = text.length := by
  refine List.countP_eq_length.mpr (fun c hc => ?_)
  have hlow : ∀ c : UInt8, c < 0x80 → (!isTrailing c) = true := by decide
  exact hlow c (h c hc)

/-- Without code points there is no text. -/
theorem ValidUtf8.codePoints_eq_zero {text : Bytes} (h : ValidUtf8 text) :
    codePoints text = 0 ↔ text = [] := by
  refine ⟨fun hzero => ?_, fun hnil => by rw [hnil]; rfl⟩
  by_contra hne
  obtain ⟨scalar, rest, rfl, hscalar, -⟩ := h.exists_scalar hne
  rw [codePoints_append, codePoints_of_isScalar hscalar] at hzero
  exact absurd hzero (by simp)

/-- A text that is not empty ends with a sequence. -/
theorem ValidUtf8.exists_last {text : Bytes} (h : ValidUtf8 text) (hne : text ≠ []) :
    ∃ rest scalar, text = rest ++ scalar ∧ isScalar scalar = true ∧ ValidUtf8 rest := by
  induction h with
  | nil => exact absurd rfl hne
  | @cons scalar text hscalar htext ih =>
    by_cases hnil : text = []
    · exact ⟨[], scalar, by rw [hnil]; simp, hscalar, .nil⟩
    · obtain ⟨rest, last, rfl, hlast, hrest⟩ := ih hnil
      exact ⟨scalar ++ rest, last, by rw [List.append_assoc], hlast, .cons hscalar hrest⟩

/-- **Erasing takes the last sequence.** -/
theorem eraseLast_append {rest scalar : Bytes} (h : isScalar scalar = true) :
    eraseLast (rest ++ scalar) = rest := by
  obtain ⟨lead, tail, rfl, hlead, htail⟩ := exists_lead_of_isScalar h
  have hdrop : (rest ++ lead :: tail).reverse.dropWhile isTrailing = lead :: rest.reverse := by
    have hreverse : (rest ++ lead :: tail).reverse = tail.reverse ++ lead :: rest.reverse := by
      simp
    rw [hreverse, List.dropWhile_append_of_pos (by simpa using htail),
      List.dropWhile_cons_of_neg (by simp [hlead])]
  unfold eraseLast
  rw [hdrop, List.drop_one, List.tail_cons, List.reverse_reverse]

/-- **Erasing leaves a text with one code point fewer.** -/
theorem ValidUtf8.codePoints_eraseLast {text : Bytes} (h : ValidUtf8 text) (hne : text ≠ []) :
    ValidUtf8 (eraseLast text) ∧ codePoints (eraseLast text) + 1 = codePoints text := by
  obtain ⟨rest, scalar, rfl, hscalar, hrest⟩ := h.exists_last hne
  rw [eraseLast_append hscalar, codePoints_append, codePoints_of_isScalar hscalar]
  exact ⟨hrest, rfl⟩

/-- **A text is cut between code points** where what follows does not begin with a
trailing octet. -/
theorem ValidUtf8.cut {a b : Bytes} (h : ValidUtf8 (a ++ b))
    (hb : ∀ c ∈ b.head?, isTrailing c = false) : ValidUtf8 a ∧ ValidUtf8 b := by
  generalize htext : a ++ b = text at h
  induction h generalizing a with
  | nil =>
    obtain ⟨rfl, rfl⟩ := List.append_eq_nil_iff.mp htext
    exact ⟨.nil, .nil⟩
  | @cons scalar rest hscalar hrest ih =>
    obtain ⟨a', rfl, rfl⟩ | ⟨c, rfl, rfl⟩ := List.append_eq_append_iff.mp htext
    · -- inside the first sequence every octet but the first is a trailing one
      cases a with
      | nil => exact ⟨.nil, .cons hscalar hrest⟩
      | cons first tail =>
        cases a' with
        | nil =>
          rw [List.append_nil] at hscalar
          exact ⟨.of_isScalar hscalar, hrest⟩
        | cons next tail' =>
          obtain ⟨lead, trailing, heq, -, htrailing⟩ := exists_lead_of_isScalar hscalar
          rw [List.cons_append, List.cons.injEq] at heq
          have hnext := htrailing next (by rw [← heq.2]; simp)
          rw [hb next rfl] at hnext
          cases hnext
    · obtain ⟨hc, hb'⟩ := ih rfl
      exact ⟨.cons hscalar hc, hb'⟩

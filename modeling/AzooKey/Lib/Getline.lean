import AzooKey.Lib.Bytes

/-!
# Reading a text piece by piece

`getline` reads from a text up to an octet that is taken and not kept, as
`std::getline` reads from a string stream. It fails where nothing is left to
read, so a text that ends with the octet has no empty piece behind it. The
loop `while (getline)` delivers the `pieces` of the text
(`pieces_of_getline`).

A writer that ends each of its pieces with the octet, and keeps the octet out
of them, gets them back: `getline_append` for one piece, `pieces_flatMap` for
all, and `readFields_joinFields` for the fields of a line.
-/

namespace Bytes

/-- `std::getline` on a string stream: the piece up to the octet, and what is
left to read. -/
def getline (c : UInt8) : Bytes → Option (Bytes × Bytes)
  | [] => none
  | b :: text => some ((breakAt c (b :: text)).getD (b :: text, []))

/-- The cut is at the first occurrence. -/
theorem breakAt_append {c : UInt8} {s : Bytes} (h : c ∉ s) (t : Bytes) :
    breakAt c (s ++ c :: t) = some (s, t) := by
  induction s with
  | nil => rw [List.nil_append, breakAt, if_pos rfl]
  | cons b s ih =>
    have hb : b ≠ c := fun hb => h (hb ▸ List.mem_cons_self)
    rw [List.cons_append, breakAt, if_neg hb, ih (fun hc => h (List.mem_cons_of_mem _ hc))]
    rfl

/-- Without an occurrence there is no cut. -/
theorem breakAt_eq_none {c : UInt8} {s : Bytes} (h : c ∉ s) : breakAt c s = none := by
  induction s with
  | nil => rfl
  | cons b s ih =>
    have hb : b ≠ c := fun hb => h (hb ▸ List.mem_cons_self)
    rw [breakAt, if_neg hb, ih (fun hc => h (List.mem_cons_of_mem _ hc))]
    rfl

/-- **A piece that ends with the octet is read back.** -/
theorem getline_append {c : UInt8} {s : Bytes} (h : c ∉ s) (t : Bytes) :
    getline c (s ++ c :: t) = some (s, t) := by
  have hcut := breakAt_append h t
  cases s with
  | nil => rw [List.nil_append] at hcut ⊢; rw [getline, hcut]; rfl
  | cons b s => rw [List.cons_append] at hcut ⊢; rw [getline, hcut]; rfl

/-- The last piece is read to the end of the text. -/
theorem getline_last {c : UInt8} {s : Bytes} (h : c ∉ s) (hne : s ≠ []) :
    getline c s = some (s, []) := by
  obtain ⟨b, t, rfl⟩ := List.exists_cons_of_ne_nil hne
  rw [getline, breakAt_eq_none h]
  rfl

/-- Cut a string at the last occurrence of an octet, as `rfind` finds it: what
stands before it and what stands after it. -/
def breakAtLast (c : UInt8) (s : Bytes) : Bytes × Bytes :=
  ((s.reverse.dropWhile (· ≠ c)).tail.reverse, (s.reverse.takeWhile (· ≠ c)).reverse)

/-- The cut is at the last occurrence. -/
theorem breakAtLast_append {c : UInt8} (s : Bytes) {t : Bytes} (h : c ∉ t) :
    breakAtLast c (s ++ c :: t) = (s, t) := by
  have hpos : ∀ b ∈ t.reverse, decide (b ≠ c) = true := by
    intro b hb
    exact decide_eq_true (fun heq => h (heq ▸ List.mem_reverse.mp hb))
  have hreverse : (s ++ c :: t).reverse = t.reverse ++ c :: s.reverse := by simp
  unfold breakAtLast
  rw [hreverse, List.dropWhile_append_of_pos hpos, List.takeWhile_append_of_pos hpos,
    List.dropWhile_cons_of_neg (by simp), List.takeWhile_cons_of_neg (by simp), List.tail_cons,
    List.append_nil, List.reverse_reverse, List.reverse_reverse]

/-- One turn of `while (getline)`. -/
theorem pieces_of_getline {c : UInt8} {text line rest : Bytes}
    (h : getline c text = some (line, rest)) : pieces c text = line :: pieces c rest := by
  induction text generalizing line with
  | nil => exact absurd h (by simp [getline])
  | cons b text ih =>
    rw [getline] at h
    by_cases hb : b = c
    · rw [breakAt, if_pos hb] at h
      obtain ⟨rfl, rfl⟩ := Prod.mk.inj (Option.some.inj h)
      rw [pieces, if_pos hb]
    · rw [breakAt, if_neg hb] at h
      rw [pieces, if_neg hb]
      cases text with
      | nil =>
        obtain ⟨rfl, rfl⟩ := Prod.mk.inj (Option.some.inj h)
        rfl
      | cons d text =>
        cases hcut : breakAt c (d :: text) with
        | none =>
          rw [hcut] at h
          obtain ⟨rfl, rfl⟩ := Prod.mk.inj (Option.some.inj h)
          rw [ih (by rw [getline, hcut, Option.getD_none])]
        | some p =>
          rw [hcut] at h
          obtain ⟨rfl, rfl⟩ := Prod.mk.inj (Option.some.inj h)
          rw [ih (by rw [getline, hcut, Option.getD_some])]

/-- **Lines that end with the octet are read back.** -/
theorem pieces_flatMap {c : UInt8} {lines : List Bytes} (h : ∀ line ∈ lines, c ∉ line) :
    pieces c (lines.flatMap (fun line => line ++ [c])) = lines := by
  induction lines with
  | nil => rfl
  | cons line lines ih =>
    rw [List.flatMap_cons, List.append_assoc, List.singleton_append,
      pieces_of_getline (getline_append (h line List.mem_cons_self) _),
      ih (fun l hl => h l (List.mem_cons_of_mem _ hl))]

/-! ## Fields of a line -/

/-- So many fields that end with a separator, and one that runs to the end of
the line. -/
def readFields (separator : UInt8) : ℕ → Bytes → Option (List Bytes)
  | 0, line => (getline 0x0a line).map (fun p => [p.1])
  | n + 1, line =>
    (getline separator line).bind (fun p => (readFields separator n p.2).map (p.1 :: ·))

/-- The line of some fields and a last one. -/
def joinFields (separator : UInt8) (fields : List Bytes) (last : Bytes) : Bytes :=
  fields.flatMap (fun field => field ++ [separator]) ++ last

/-- A joined line, one field at a time. -/
theorem joinFields_cons (separator : UInt8) (field : Bytes) (fields : List Bytes) (last : Bytes) :
    joinFields separator (field :: fields) last
      = field ++ separator :: joinFields separator fields last := by
  simp [joinFields]

/-- **Fields without separators are read back**, when the last is not empty. -/
theorem readFields_joinFields {separator : UInt8} {fields : List Bytes} {last : Bytes}
    (hfields : ∀ field ∈ fields, separator ∉ field) (hlast : 0x0a ∉ last) (hne : last ≠ []) :
    readFields separator fields.length (joinFields separator fields last)
      = some (fields ++ [last]) := by
  induction fields with
  | nil =>
    show (getline 0x0a last).map (fun p => [p.1]) = _
    rw [getline_last hlast hne]
    rfl
  | cons field fields ih =>
    rw [joinFields_cons, List.length_cons, readFields,
      getline_append (hfields field List.mem_cons_self), Option.bind_some,
      ih (fun f hf => hfields f (List.mem_cons_of_mem _ hf))]
    rfl

/-- An octet of a joined line is the separator or stands in a field. -/
theorem mem_joinFields {separator c : UInt8} {fields : List Bytes} {last : Bytes}
    (h : c ∈ joinFields separator fields last) :
    c = separator ∨ (∃ field ∈ fields, c ∈ field) ∨ c ∈ last := by
  rcases List.mem_append.mp h with h | h
  · obtain ⟨field, hfield, hc⟩ := List.mem_flatMap.mp h
    rcases List.mem_append.mp hc with hc | hc
    · exact Or.inr (Or.inl ⟨field, hfield, hc⟩)
    · exact Or.inl (List.mem_singleton.mp hc)
  · exact Or.inr (Or.inr h)

/-- An octet of fields with a separator between them is the separator or stands
in a field. -/
theorem mem_intercalate {separator c : UInt8} {fields : List Bytes}
    (h : c ∈ [separator].intercalate fields) : c = separator ∨ ∃ field ∈ fields, c ∈ field := by
  induction fields with
  | nil => exact absurd h List.not_mem_nil
  | cons field fields ih =>
    cases fields with
    | nil => exact Or.inr ⟨field, List.mem_cons_self, by simpa [List.intercalate] using h⟩
    | cons next fields =>
      have hcons : [separator].intercalate (field :: next :: fields)
          = field ++ separator :: [separator].intercalate (next :: fields) := by
        simp [List.intercalate]
      rw [hcons, List.mem_append, List.mem_cons] at h
      rcases h with h | rfl | h
      · exact Or.inr ⟨field, List.mem_cons_self, h⟩
      · exact Or.inl rfl
      · exact (ih h).imp id (fun ⟨f, hf, hc⟩ => ⟨f, List.mem_cons_of_mem _ hf, hc⟩)

/-! ## Lines with their ends -/

/-- The pieces of a text, each with the octet that ends it. -/
def segments (c : UInt8) : Bytes → List Bytes
  | [] => []
  | b :: text =>
    if b = c then [b] :: segments c text
    else
      match segments c text with
      | [] => [[b]]
      | segment :: rest => (b :: segment) :: rest

/-- A segment without the octet that ends it. -/
def segmentText (c : UInt8) (segment : Bytes) : Bytes :=
  if segment.getLast? = some c then segment.dropLast else segment

/-- **The segments of a text**: each ends with the octet, the last perhaps
without it, and the octet occurs nowhere else. -/
inductive Segmented (c : UInt8) : List Bytes → Prop
  | nil : Segmented c []
  | last {line : Bytes} (hne : line ≠ []) (hc : c ∉ line) : Segmented c [line]
  | cons {line : Bytes} {rest : List Bytes} (hc : c ∉ line) (h : Segmented c rest) :
      Segmented c ((line ++ [c]) :: rest)

/-- A segment that ends with the octet is the first. -/
theorem segments_append {c : UInt8} {line : Bytes} (hc : c ∉ line) (text : Bytes) :
    segments c (line ++ c :: text) = (line ++ [c]) :: segments c text := by
  induction line with
  | nil => rw [List.nil_append, segments, if_pos rfl, List.nil_append]
  | cons b line ih =>
    have hb : b ≠ c := fun hb => hc (hb ▸ List.mem_cons_self)
    rw [List.cons_append, segments, if_neg hb, ih (fun h => hc (List.mem_cons_of_mem _ h))]
    rfl

/-- A text without the octet is one segment. -/
theorem segments_of_not_mem {c : UInt8} {line : Bytes} (hne : line ≠ []) (hc : c ∉ line) :
    segments c line = [line] := by
  induction line with
  | nil => exact absurd rfl hne
  | cons b line ih =>
    have hb : b ≠ c := fun hb => hc (hb ▸ List.mem_cons_self)
    rw [segments, if_neg hb]
    cases line with
    | nil => rfl
    | cons d line => rw [ih (List.cons_ne_nil _ _) (fun h => hc (List.mem_cons_of_mem _ h))]

/-- **Segments are those of the text that they make up.** -/
theorem Segmented.segments_flatten {c : UInt8} {l : List Bytes} (h : Segmented c l) :
    segments c l.flatten = l := by
  induction h with
  | nil => rfl
  | last hne hc =>
    rw [List.flatten_singleton]
    exact segments_of_not_mem hne hc
  | cons hc _ ih =>
    rw [List.flatten_cons, List.append_assoc, List.singleton_append, segments_append hc, ih]

/-- The segments of a text are such. -/
theorem segmented_segments (c : UInt8) (text : Bytes) : Segmented c (segments c text) := by
  induction text with
  | nil => exact .nil
  | cons b text ih =>
    rw [segments]
    split
    · rename_i hb
      rw [hb]
      exact .cons List.not_mem_nil ih
    · rename_i hb
      have hcons : ∀ {line : Bytes}, c ∉ line → c ∉ b :: line :=
        fun hc h => (List.mem_cons.mp h).elim (fun h => hb h.symm) hc
      cases hrest : segments c text with
      | nil => exact .last (List.cons_ne_nil _ _) (hcons List.not_mem_nil)
      | cons segment rest =>
        rw [hrest] at ih
        cases ih with
        | last hne hc => exact .last (List.cons_ne_nil _ _) (hcons hc)
        | cons hc h => exact .cons (hcons hc) h

/-- Segments may be left out. -/
theorem Segmented.filter {c : UInt8} {l : List Bytes} (h : Segmented c l) (p : Bytes → Bool) :
    Segmented c (l.filter p) := by
  induction h with
  | nil => exact .nil
  | @last line hne hc =>
    cases hp : p line with
    | true =>
      rw [List.filter_cons_of_pos hp]
      exact .last hne hc
    | false =>
      rw [List.filter_cons_of_neg (by rw [hp]; exact Bool.false_ne_true)]
      exact .nil
  | @cons line rest hc _ ih =>
    cases hp : p (line ++ [c]) with
    | true =>
      rw [List.filter_cons_of_pos hp]
      exact .cons hc ih
    | false =>
      rw [List.filter_cons_of_neg (by rw [hp]; exact Bool.false_ne_true)]
      exact ih

/-- The end of a segment is not at its front. -/
theorem segmentText_cons {c b : UInt8} (hb : b ≠ c) (segment : Bytes) :
    segmentText c (b :: segment) = b :: segmentText c segment := by
  unfold segmentText
  cases segment with
  | nil => simp [hb]
  | cons d segment =>
    rw [List.getLast?_cons_cons, List.dropLast_cons_cons]
    split <;> rfl

/-- **The pieces of a text are its segments without their ends.** -/
theorem pieces_eq_map_segments (c : UInt8) (text : Bytes) :
    pieces c text = (segments c text).map (segmentText c) := by
  induction text with
  | nil => rfl
  | cons b text ih =>
    rw [pieces, segments, ih]
    by_cases hb : b = c
    · rw [if_pos hb, if_pos hb, List.map_cons, hb]
      simp [segmentText]
    · rw [if_neg hb, if_neg hb]
      cases segments c text with
      | nil => simp [segmentText, hb]
      | cons segment rest => simp [segmentText_cons hb]

end Bytes

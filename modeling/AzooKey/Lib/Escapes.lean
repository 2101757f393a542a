import AzooKey.Lib.Bytes

/-!
# Backslash escapes

A table of escapes gives some octets a letter. `escape` writes such an octet as
a backslash and its letter and any other octet as it is; `unescape` reads the
text back, and leaves a backslash alone that no letter of the table follows.

The table says of itself that the backslash has a letter and that no two
octets share one, so the text reads back (`unescape_escape`). An octet of the
table that is not a letter as well does not occur in it (`not_mem_escape`),
and no octet of the table but the backslash starts it (`head_escape`).
-/

/-- **A table of escapes**: octets and their letters. -/
structure Escapes where
  /-- The octets that are escaped, each with its letter. -/
  pairs : List (UInt8 × UInt8)
  /-- The backslash is escaped. -/
  backslash : 0x5c ∈ pairs.map Prod.fst
  /-- No two octets share a letter. -/
  letters : (pairs.map Prod.snd).Nodup

namespace Escapes

variable (table : Escapes)

/-- One octet, escaped if the table says so. -/
def escapeByte (c : UInt8) : Bytes :=
  match table.pairs.find? (fun p => p.1 = c) with
  | some p => [0x5c, p.2]
  | none => [c]

/-- **A text with its octets escaped.** -/
def escape (text : Bytes) : Bytes := text.flatMap table.escapeByte

/-- What a backslash and the octet after it stand for. -/
def unescapePair (d : UInt8) : Bytes :=
  match table.pairs.find? (fun p => p.2 = d) with
  | some p => [p.1]
  | none => [0x5c, d]

/-- **The text that an escaped text stands for.** -/
def unescape : Bytes → Bytes
  | [] => []
  | [c] => [c]
  | c :: d :: rest =>
    if c = 0x5c then table.unescapePair d ++ unescape rest else c :: unescape (d :: rest)

/-- An octet other than the backslash stands for itself. -/
theorem unescape_cons_of_ne {c : UInt8} (hc : c ≠ 0x5c) (text : Bytes) :
    table.unescape (c :: text) = c :: table.unescape text := by
  cases text with
  | nil => simp [unescape]
  | cons d text => rw [unescape, if_neg hc]

/-- A letter stands for its octet. -/
theorem unescapePair_letter {p : UInt8 × UInt8} (hp : p ∈ table.pairs) :
    table.unescapePair p.2 = [p.1] := by
  unfold unescapePair
  cases hfound : table.pairs.find? (fun q => q.2 = p.2) with
  | none => exact absurd (List.find?_eq_none.mp hfound p hp) (by simp)
  | some q =>
    have hletter : q.2 = p.2 := by simpa using List.find?_some hfound
    have heq : q = p :=
      List.inj_on_of_nodup_map table.letters (List.mem_of_find?_eq_some hfound) hp hletter
    rw [heq]

/-- **An escaped text reads back.** -/
theorem unescape_escape (text : Bytes) : table.unescape (table.escape text) = text := by
  induction text with
  | nil => simp [escape, unescape]
  | cons c text ih =>
    have hcons : table.escape (c :: text) = table.escapeByte c ++ table.escape text :=
      List.flatMap_cons
    rw [hcons]
    unfold escapeByte
    cases hfound : table.pairs.find? (fun p => p.1 = c) with
    | some p =>
      have hc : p.1 = c := by simpa using List.find?_some hfound
      show table.unescape (0x5c :: p.2 :: table.escape text) = _
      rw [unescape, if_pos rfl, table.unescapePair_letter (List.mem_of_find?_eq_some hfound), hc, ih]
      rfl
    | none =>
      have hc : c ≠ 0x5c := by
        rintro rfl
        obtain ⟨p, hp, heq⟩ := List.mem_map.mp table.backslash
        exact absurd (List.find?_eq_none.mp hfound p hp) (by simpa using heq)
      show table.unescape (c :: table.escape text) = _
      rw [table.unescape_cons_of_ne hc, ih]

/-- **An octet of the table does not occur in an escaped text**, unless it is
the backslash or a letter. -/
theorem not_mem_escape {c : UInt8} (hc : c ∈ table.pairs.map Prod.fst) (hne : c ≠ 0x5c)
    (hletter : c ∉ table.pairs.map Prod.snd) (text : Bytes) : c ∉ table.escape text := by
  obtain ⟨q, hq, rfl⟩ := List.mem_map.mp hc
  intro hmem
  obtain ⟨d, -, hd⟩ := List.mem_flatMap.mp hmem
  unfold escapeByte at hd
  split at hd
  · rename_i p hp
    rcases List.mem_cons.mp hd with hd | hd
    · exact hne hd
    · refine hletter (List.mem_map.mpr ⟨p, List.mem_of_find?_eq_some hp, ?_⟩)
      exact (List.mem_singleton.mp hd).symm
  · rename_i hnone
    exact absurd (List.find?_eq_none.mp hnone q hq) (by simpa using List.mem_singleton.mp hd)

/-- **An escaped text does not start with an octet of the table**, unless it is
the backslash. -/
theorem head_escape {c : UInt8} (hc : c ∈ table.pairs.map Prod.fst) (hne : c ≠ 0x5c)
    (text : Bytes) : (table.escape text).head? ≠ some c := by
  cases text with
  | nil => simp [escape]
  | cons d text =>
    show (table.escapeByte d ++ table.escape text).head? ≠ some c
    unfold escapeByte
    split
    · exact fun h => hne (Option.some.inj h).symm
    · rename_i hnone
      obtain ⟨q, hq, rfl⟩ := List.mem_map.mp hc
      exact fun h => absurd (List.find?_eq_none.mp hnone q hq) (by simpa using (Option.some.inj h).symm)

/-- Only the empty text is escaped to the empty text. -/
theorem escape_eq_nil {text : Bytes} : table.escape text = [] ↔ text = [] := by
  constructor
  · intro h
    rw [← table.unescape_escape text, h, unescape]
  · rintro rfl
    rfl

/-- Only the empty text stands for the empty text. -/
theorem unescape_ne_nil {text : Bytes} (h : text ≠ []) : table.unescape text ≠ [] := by
  have hpair : ∀ d, table.unescapePair d ≠ [] := by
    intro d
    unfold unescapePair
    split <;> exact List.cons_ne_nil _ _
  obtain ⟨c, rest, rfl⟩ := List.exists_cons_of_ne_nil h
  cases rest with
  | nil =>
    rw [unescape]
    exact List.cons_ne_nil _ _
  | cons d rest =>
    rw [unescape]
    split
    · exact fun h' => hpair d (List.append_eq_nil_iff.mp h').1
    · exact List.cons_ne_nil _ _

end Escapes

import AzooKey.Lib.Bytes

/-!
# Files that are written in place

A file is its bytes; a file that does not exist is the empty one. A writer
makes a sequence of writes, each of which happens as a whole or not at all: it
puts bytes at an offset, cuts the file, or replaces it by another. It may stop
between any two of them, so that the states of a file are those after a prefix
of the writes (`stopped`).

The rules say what a write does to a file whose parts are known: the parts
before and behind the place that is written stay.
-/

namespace RawFile

/-- A file that is extended with zeros. -/
def padTo (n : ℕ) (file : Bytes) : Bytes := file ++ List.replicate (n - file.length) 0

/-- A write. -/
inductive Write
  | writeAt (offset : ℕ) (data : Bytes)
  | truncate (size : ℕ)
  | replace (data : Bytes)

/-- The file after a write. -/
def Write.apply (file : Bytes) : Write → Bytes
  | .writeAt offset data => (padTo offset file).take offset ++ data ++ file.drop (offset + data.length)
  | .truncate size => (padTo size file).take size
  | .replace data => data

/-- The file after all of some writes. -/
def after (file : Bytes) (writes : List Write) : Bytes := writes.foldl Write.apply file

/-- **The file when the writer stops after the first `n` writes.** -/
def stopped (file : Bytes) (writes : List Write) (n : ℕ) : Bytes := after file (writes.take n)

/-- Bytes at an offset, if the file has them. -/
def readAt (file : Bytes) (offset n : ℕ) : Option Bytes :=
  if offset + n ≤ file.length then some ((file.drop offset).take n) else none

section Rules

variable {file : Bytes}

/-- Writing over a part of the file. -/
theorem apply_writeAt (front middle back data : Bytes) (hfile : file = front ++ middle ++ back)
    (hlength : data.length = middle.length) :
    (Write.writeAt front.length data).apply file = front ++ data ++ back := by
  subst hfile
  have hpad : padTo front.length (front ++ middle ++ back) = front ++ middle ++ back := by
    have hzero : front.length - (front ++ middle ++ back).length = 0 := by
      rw [List.length_append, List.length_append]
      omega
    rw [padTo, hzero, List.replicate_zero, List.append_nil]
  show (padTo front.length (front ++ middle ++ back)).take front.length ++ data
    ++ (front ++ middle ++ back).drop (front.length + data.length) = _
  rw [hpad, List.append_assoc front, List.take_left' rfl, ← List.append_assoc front, hlength,
    List.drop_left' (by rw [List.length_append])]

/-- Writing at the end of the file. -/
theorem apply_writeAt_end (file data : Bytes) : (Write.writeAt file.length data).apply file = file ++ data := by
  have hpad : padTo file.length file = file := by
    rw [padTo, Nat.sub_self, List.replicate_zero, List.append_nil]
  show (padTo file.length file).take file.length ++ data
    ++ file.drop (file.length + data.length) = _
  rw [hpad, List.take_length, List.drop_eq_nil_of_le (Nat.le_add_right _ _), List.append_nil]

/-- Cutting the file. -/
theorem apply_truncate (front back : Bytes) (hfile : file = front ++ back) :
    (Write.truncate front.length).apply file = front := by
  subst hfile
  have hpad : padTo front.length (front ++ back) = front ++ back := by
    have hzero : front.length - (front ++ back).length = 0 := by
      rw [List.length_append]
      omega
    rw [padTo, hzero, List.replicate_zero, List.append_nil]
  show (padTo front.length (front ++ back)).take front.length = front
  rw [hpad, List.take_left' rfl]

/-- Cutting a file, or extending it, gives the size. -/
theorem length_apply_truncate (file : Bytes) (size : ℕ) :
    ((Write.truncate size).apply file).length = size := by
  show ((padTo size file).take size).length = size
  rw [List.length_take, padTo, List.length_append, List.length_replicate]
  omega

/-- What is written can be read, and the bytes behind it stay. -/
theorem drop_apply_writeAt (file : Bytes) (offset : ℕ) (data : Bytes) :
    ((Write.writeAt offset data).apply file).drop offset
      = data ++ file.drop (offset + data.length) := by
  have hlength : ((padTo offset file).take offset).length = offset := by
    rw [List.length_take, padTo, List.length_append, List.length_replicate]
    omega
  show ((padTo offset file).take offset ++ data ++ file.drop (offset + data.length)).drop offset = _
  rw [List.append_assoc, List.drop_left' hlength]

/-- The first write, then the others. -/
@[simp] theorem after_cons (file : Bytes) (w : Write) (writes : List Write) :
    after file (w :: writes) = after (w.apply file) writes := rfl

/-- No write. -/
@[simp] theorem after_nil (file : Bytes) : after file [] = file := rfl

/-- Some writes, then others. -/
theorem after_append (file : Bytes) (ws ws' : List Write) :
    after file (ws ++ ws') = after (after file ws) ws' := List.foldl_append

/-- A writer that has made all its writes has finished. -/
theorem stopped_of_le {writes : List Write} {n : ℕ} (h : writes.length ≤ n) :
    stopped file writes n = after file writes := by
  rw [stopped, List.take_of_length_le h]

/-- A writer that stops before its first write. -/
@[simp] theorem stopped_zero (writes : List Write) : stopped file writes 0 = file := by
  rw [stopped, List.take_zero, after_nil]

/-- A writer that stops after its first write. -/
@[simp] theorem stopped_cons_succ (w : Write) (writes : List Write) (n : ℕ) :
    stopped file (w :: writes) (n + 1) = stopped (w.apply file) writes n := by
  rw [stopped, List.take_succ_cons, after_cons, stopped]

/-- A writer that has nothing to write. -/
@[simp] theorem stopped_nil (n : ℕ) : stopped file [] n = file := by
  rw [stopped, List.take_nil, after_nil]

end Rules

end RawFile

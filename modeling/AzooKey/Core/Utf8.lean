import AzooKey.Lib.Bytes

/-!
# UTF-8 readers and writers of the core

`core/src/Utf8.cpp`: one scalar is decoded from the front of a byte string,
or appended to its end. A position in the source's `string_view` is the list
of the bytes from that position on, so that an advanced offset is a shorter
list; scalars are natural numbers.
-/

namespace AzooKey.Core

/-- What `DecodeNextUtf8` reports: its return value, the codepoint it stores,
and the bytes from the offset it stores. -/
structure Decoded where
  ok : Bool
  codepoint : ℕ
  rest : Bytes
deriving DecidableEq, Repr

/-- The width and the value bits of a lead byte. -/
def leadByte (first : UInt8) : Option (ℕ × ℕ) :=
  if first &&& 0xe0 = 0xc0 then some (2, (first &&& 0x1f).toNat)
  else if first &&& 0xf0 = 0xe0 then some (3, (first &&& 0x0f).toNat)
  else if first &&& 0xf8 = 0xf0 then some (4, (first &&& 0x07).toNat)
  else none

/-- Fold the value bits of continuation bytes into a value, refusing any
other byte. -/
def continuationBytes (value : ℕ) : Bytes → Option ℕ
  | [] => some value
  | byte :: bytes =>
    if byte &&& 0xc0 ≠ 0x80 then none
    else continuationBytes ((value <<< 6) ||| (byte &&& 0x3f).toNat) bytes

/-- The values a sequence of the given width may not encode: overlong forms,
surrogates, and what lies past the last scalar. -/
def outsideWidth (width value : ℕ) : Bool :=
  (width == 2 && value < 0x80) || (width == 3 && value < 0x800)
    || (width == 4 && value < 0x10000) || 0x10ffff < value
    || (0xd800 ≤ value && value ≤ 0xdfff)

/-- **Decode one scalar.** Invalid input is reported as such, consumes one
byte and stores that byte as the codepoint; at the end of the input nothing
is stored. -/
def decodeNextUtf8 : Bytes → Option Decoded
  | [] => none
  | first :: rest =>
    if first < 0x80 then some ⟨true, first.toNat, rest⟩
    else
      match leadByte first with
      | none => some ⟨false, first.toNat, rest⟩
      | some (width, value) =>
        if rest.length < width - 1 then some ⟨false, first.toNat, rest⟩
        else
          match continuationBytes value (rest.take (width - 1)) with
          | none => some ⟨false, first.toNat, rest⟩
          | some value =>
            if outsideWidth width value then some ⟨false, first.toNat, rest⟩
            else some ⟨true, value, rest.drop (width - 1)⟩

/-- Decoding moves forward. -/
theorem decodeNextUtf8_rest_lt {input : Bytes} {d : Decoded}
    (h : decodeNextUtf8 input = some d) : d.rest.length < input.length := by
  cases input with
  | nil => exact absurd h (by simp [decodeNextUtf8])
  | cons first rest =>
    have key : d.rest.length ≤ rest.length := by
      simp only [decodeNextUtf8] at h
      repeat' split at h
      all_goals
        obtain rfl := Option.some.inj h
        simp [List.length_drop]
    rw [List.length_cons]
    omega

/-- The bytes `AppendUtf8` appends for a codepoint. -/
def encodeUtf8 (codepoint : ℕ) : Bytes :=
  if codepoint ≤ 0x7f then [UInt8.ofNat codepoint]
  else if codepoint ≤ 0x7ff then
    [UInt8.ofNat (0xc0 ||| ((codepoint >>> 6) &&& 0x1f)),
      UInt8.ofNat (0x80 ||| (codepoint &&& 0x3f))]
  else if codepoint ≤ 0xffff then
    [UInt8.ofNat (0xe0 ||| ((codepoint >>> 12) &&& 0x0f)),
      UInt8.ofNat (0x80 ||| ((codepoint >>> 6) &&& 0x3f)),
      UInt8.ofNat (0x80 ||| (codepoint &&& 0x3f))]
  else
    [UInt8.ofNat (0xf0 ||| ((codepoint >>> 18) &&& 0x07)),
      UInt8.ofNat (0x80 ||| ((codepoint >>> 12) &&& 0x3f)),
      UInt8.ofNat (0x80 ||| ((codepoint >>> 6) &&& 0x3f)),
      UInt8.ofNat (0x80 ||| (codepoint &&& 0x3f))]

/-- `AppendUtf8`: append one scalar. -/
def appendUtf8 (output : Bytes) (codepoint : ℕ) : Bytes := output ++ encodeUtf8 codepoint

end AzooKey.Core

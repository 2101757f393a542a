import AzooKey.Core.DictionaryText
import AzooKey.Ipc.Json
import AzooKey.Lib.Faulting
import AzooKey.Lib.InsertionSort

/-!
# The dictionary reader

`core/src/DoubleArrayTrie.cpp`: the reader of a dictionary image, a file that
nobody has checked. A read is a program over the reader's status that faults
outside of the image, so that a query is a program that may fault, and the
only state that a query can change is whether the dictionary is available and
what its last error was.

The numbers of the image are natural numbers: everything that is read is at
most 64 bits wide, and the source checks a range before it adds. The two
loops of the source whose end rests on the depth field of the nodes,
`ancestry` and `predictiveLoop`, are recursions on that depth.
-/

namespace AzooKey.Core.Dictionary

open Ipc Faulting

/-- The file: its size, and its bytes. -/
structure Image where
  size : ℕ
  data : ℕ → UInt8

/-- The part of the reader that a query can change. -/
structure Status where
  available : Bool
  error : String
deriving DecidableEq

/-- **A query**: it faults when it reads outside of the image. -/
abbrev Query := Faulting Status

/-- `Fail`. -/
def fail (reason : String) : Query Unit := fun _ => some ((), ⟨false, reason⟩)

/-- `return Fail(reason)`, where an answer was expected. -/
def failWith {α : Type} (reason : String) : Query (Option α) := fail reason >>= fun _ => pure none

/-- `IsAvailable`. -/
def isAvailable : Query Bool := fun s => some (s.available, s)

/-! ## Reading the image -/

/-- `data[off]`. -/
def Image.byte (image : Image) (off : ℕ) : Query UInt8 :=
  fun s => if off < image.size then some (image.data off, s) else none

/-- The bytes of a `string_view`. -/
def Image.bytes (image : Image) : ℕ → ℕ → Query Bytes
  | _, 0 => pure []
  | off, n + 1 => do
    let b ← image.byte off
    let bs ← image.bytes (off + 1) n
    pure (b :: bs)

/-- A number whose lowest byte comes first. -/
def littleEndian : Bytes → ℕ
  | [] => 0
  | b :: bytes => b.toNat + 256 * littleEndian bytes

/-- `Read`. -/
def Image.read (image : Image) (off n : ℕ) : Query ℕ :=
  image.bytes off n >>= fun bytes => pure (littleEndian bytes)

/-- `U32`. -/
def Image.u32 (image : Image) (off : ℕ) : Query ℕ := image.read off 4

/-- `UINT32_MAX`. -/
def uint32Max : ℕ := 0xffffffff

/-- `kNone`. -/
def noNode : ℕ := uint32Max

/-- `Range`. -/
def inRange (offset size total : ℕ) : Bool := offset ≤ total && size ≤ total - offset

/-! ## The reader -/

/-- `Section`. -/
structure Section where
  offset : ℕ
  size : ℕ

/-- `Impl`: the image, and what `Structure` finds in it. -/
structure Impl where
  image : Image
  layer : ℕ
  entries : ℕ
  keys : ℕ
  posCount : ℕ
  trie : Section
  keySection : Section
  refs : Section
  records : Section
  strings : Section
  metadata : Section
  /-- `surface_index`, when there is one. -/
  surfaceIndex : Option Section

/-- The number of nodes. -/
def Impl.nodeCount (d : Impl) : ℕ := d.trie.size / 16

/-- The number of references. -/
def Impl.refCount (d : Impl) : ℕ := d.refs.size / 8

/-- `Node`. -/
def Impl.node (d : Impl) (node field : ℕ) : Query ℕ :=
  d.image.u32 (d.trie.offset + node * 16 + field)

/-- A row of the section table. -/
def readSection (image : Image) (count : ℕ) (sections : List (Bytes × Section)) (i : ℕ) :
    Query (Option (List (Bytes × Section))) := do
  let off := 64 + i * 24
  let name ← image.bytes off 4
  let reserved ← image.u32 (off + 4)
  let offset ← image.read (off + 8) 8
  let length ← image.read (off + 16) 8
  if reserved ≠ 0 ∨ offset % 8 ≠ 0 ∨ offset < 64 + count * 24
      ∨ inRange offset length image.size = false then
    failWith "invalid section range"
  else if sections.any (fun s => s.1 = name) then failWith "duplicate section"
  else pure (some (sections ++ [(name, ⟨offset, length⟩)]))

/-- Two sections that follow one another by their offsets overlap. -/
def overlapping : List Section → Bool
  | a :: b :: rest => b.offset - a.offset < a.size || overlapping (b :: rest)
  | _ => false

/-- **`std::sort` by the offsets**: the same sections, in an order of their offsets.
Which of two sections at one offset comes first is left open. -/
structure SectionSort where
  sort : List Section → List Section
  perm : ∀ sections, (sort sections).Perm sections
  sorted : ∀ sections, (sort sections).Pairwise (fun a b => a.offset ≤ b.offset)

/-- The sort that keeps the order of the table. -/
def SectionSort.insertion : SectionSort where
  sort := List.insertionSort (fun a b => a.offset ≤ b.offset)
  perm := List.perm_insertionSort _
  sorted _ := pairwise_insertionSort_of_mem (fun a _ b _ => le_total a.offset b.offset)
    (fun _ _ _ _ _ _ hab hbc => le_trans hab hbc)

/-- The six sections that there must be, and the one that there may be. -/
def findSections (sections : List (Bytes × Section)) :
    Option (Section × Section × Section × Section × Section × Section) :=
  match sections.lookup (utf8 "TRIE"), sections.lookup (utf8 "KEYS"),
    sections.lookup (utf8 "EIDX"), sections.lookup (utf8 "ENTS"), sections.lookup (utf8 "STRS"),
    sections.lookup (utf8 "META") with
  | some trie, some keys, some refs, some records, some strings, some metadata =>
    some (trie, keys, refs, records, strings, metadata)
  | _, _, _, _, _, _ => none

/-- The sizes that do not fit. -/
def Impl.badSize (d : Impl) : Bool :=
  d.trie.size < 16 || d.trie.size % 16 ≠ 0 || uint32Max < d.trie.size / 16
    || d.keySection.size ≠ d.keys * 8 || d.refs.size % 8 ≠ 0 || d.records.size ≠ d.entries * 32
    || 1024 * 1024 < d.metadata.size || d.surfaceIndex.any (fun s => s.size ≠ d.entries * 4)

/-- The parts of speech that the metadata lists. -/
def posTable (text : Bytes) : Option (List Json.Value) :=
  ((Json.parse text).bind (fun v => v.getArray (utf8 "pos_table"))).filter
    (fun table => table.length ≠ 0 ∧ table.length ≤ 65536)

/-- `IsString`. -/
def isString : Json.Value → Bool
  | .string _ => true
  | _ => false

/-- `Structure`, from the sections on. -/
def Impl.structureRest (d : Impl) : Query (Option Impl) := do
  if d.badSize then failWith "invalid section size"
  else
    let text ← d.image.bytes d.metadata.offset d.metadata.size
    if !isValidUtf8 text then failWith "invalid metadata encoding"
    else
      match posTable text with
      | none => failWith "invalid pos table"
      | some table =>
        if !table.all isString then failWith "invalid pos value"
        else
          let parent ← d.node 0 4
          let id ← d.node 0 8
          let depth ← d.node 0 12
          if parent ≠ 0 ∨ id ≠ noNode ∨ depth ≠ 0 then failWith "invalid root"
          else fun _ => some (some { d with posCount := table.length }, ⟨true, ""⟩)

/-- **`Structure`**: the reader of an image, when the image has the form of a
dictionary. Whether sections at one offset overlap depends on the sort. -/
def structureOf (σ : SectionSort) (image : Image) : Query (Option Impl) :=
  if image.size < 64 then failWith "invalid header"
  else do
    let magic ← image.bytes 0 8
    let version ← image.read 8 2
    let header ← image.read 10 2
    let flags ← image.u32 12
    let reserved ← image.bytes 40 24
    let layer ← image.u32 16
    let entries ← image.u32 20
    let keys ← image.u32 24
    let count ← image.u32 28
    if magic ≠ utf8 "AZDIC1" ++ [0, 0] ∨ version ≠ 1 ∨ header ≠ 64 ∨ flags &&& 0xfffffffe ≠ 0 then
      failWith "invalid header"
    else if reserved.any (· ≠ 0) then failWith "reserved header bytes"
    else if 4 < layer then failWith "non-static layer"
    else if count < 6 ∨ 64 < count ∨ inRange 64 (count * 24) image.size = false then
      failWith "invalid section table"
    else
      let found ← foldUntil (readSection image count) (List.range count) []
      match found with
      | none => pure none
      | some sections =>
        if overlapping (σ.sort (sections.map Prod.snd)) then failWith "overlapping sections"
        else
          match findSections sections with
          | none => failWith "missing section"
          | some (trie, keySection, refs, records, strings, metadata) =>
            Impl.structureRest ⟨image, layer, entries, keys, 0, trie, keySection, refs, records,
              strings, metadata, sections.lookup (utf8 "SIDX")⟩

/-! ## Nodes and keys -/

/-- `PrefixMatch`. -/
structure PrefixMatch where
  keyLength : ℕ
  keyId : ℕ
  entryRefOff : ℕ
  entryCount : ℕ
deriving DecidableEq

/-- **`Step`.** -/
def Impl.step (d : Impl) (state : ℕ) (byte : UInt8) : Query (Option ℕ) := do
  let base ← d.node state 0
  let next := base + byte.toNat
  if d.nodeCount ≤ next then pure none
  else
    let check ← d.node next 4
    if check ≠ state then pure none
    else
      let depth ← d.node state 12
      let childDepth ← d.node next 12
      if depth = uint32Max ∨ childDepth ≠ depth + 1 then failWith "invalid trie depth"
      else pure (some next)

/-- **`Match`.** -/
def Impl.matchNode (d : Impl) (node : ℕ) : Query (Option PrefixMatch) := do
  let id ← d.node node 8
  if id = noNode then pure none
  else if d.keys ≤ id then failWith "invalid key id"
  else
    let offset ← d.image.u32 (d.keySection.offset + id * 8)
    let count ← d.image.u32 (d.keySection.offset + id * 8 + 4)
    if count = 0 ∨ inRange offset count d.refCount = false then failWith "invalid entry range"
    else
      let depth ← d.node node 12
      pure (some ⟨depth, id, offset, count⟩)

/-! ## Entries -/

/-- `MatchKind`. -/
inductive MatchKind
  | exact | alias | longVowelRelaxed
deriving DecidableEq

/-- `StaticDictionaryEntry`. -/
structure StaticDictionaryEntry where
  surface : Bytes
  reading : Bytes
  posId : ℕ
  categoryMask : ℕ
  cost : ℤ
  frequency : Double
  source : UInt8
  kind : MatchKind
deriving DecidableEq

/-- The stored frequency over 65535, as a double. -/
def frequencyOf (stored : ℕ) : Double := (roundBinary64 false (stored / 65535)).elim .nan .finite

/-- A 16-bit number in two's complement. -/
def signed16 (n : ℕ) : ℤ := if 32768 ≤ n then (n : ℤ) - 65536 else n

/-- `string_at` of `Record`, and the range check of `Surface`: the string whose
offset and length are stored. -/
def Impl.stringAt (d : Impl) (off : ℕ) : Query (Option Bytes) := do
  let offset ← d.image.u32 off
  let length ← d.image.u32 (off + 4)
  if length = 0 ∨ inRange offset length d.strings.size = false then failWith "invalid string range"
  else
    let text ← d.image.bytes (d.strings.offset + offset) length
    pure (some text)

/-- `Surface`. -/
def Impl.surface (d : Impl) (index : ℕ) : Query (Option Bytes) :=
  d.stringAt (d.records.offset + index * 32)

/-- `string_at` of `Record`. -/
def Impl.textAt (d : Impl) (off : ℕ) : Query (Option Bytes) := do
  let text ← d.stringAt off
  match text with
  | none => pure none
  | some text =>
    if !isValidUtf8 text then failWith "invalid entry encoding" else pure (some text)

/-- **`Record`.** The kind is the one of a fresh entry. -/
def Impl.record (d : Impl) (index : ℕ) : Query (Option StaticDictionaryEntry) :=
  if d.entries ≤ index then failWith "invalid entry index"
  else do
    let off := d.records.offset + index * 32
    let surface ← d.textAt off
    match surface with
    | none => pure none
    | some surface =>
      let reading ← d.textAt (off + 8)
      match reading with
      | none => pure none
      | some reading =>
        let posId ← d.image.read (off + 16) 2
        let categoryMask ← d.image.read (off + 18) 2
        let cost ← d.image.read (off + 20) 2
        let frequency ← d.image.read (off + 22) 2
        let source ← d.image.byte (off + 24)
        if d.posCount ≤ posId ∨ source.toNat ≠ d.layer ∨ 1023 < categoryMask then
          failWith "invalid entry metadata"
        else
          let reserved ← d.image.bytes (off + 26) 6
          if reserved.any (· ≠ 0) then failWith "reserved entry bytes"
          else
            pure (some ⟨surface, reading, posId, categoryMask, signed16 cost,
              frequencyOf frequency, source, .exact⟩)

/-- `SurfaceIndexAt`. -/
def Impl.surfaceIndexAt (d : Impl) (index : Section) (position : ℕ) : Query (Option (ℕ × Bytes)) := do
  let entry ← d.image.u32 (index.offset + position * 4)
  if d.entries ≤ entry then failWith "invalid surface index"
  else
    let surface ← d.surface entry
    pure (surface.map (fun s => (entry, s)))

/-- The comparison of the binary search: the bound lies behind the value. -/
def liesBehind (upper : Bool) (surface value : Bytes) : Bool :=
  if upper then !decide (surface < value) else decide (value < surface)

/-- The binary search of `FindSurface`, for the first position whose surface is
not before, or is after, the one that is looked for. -/
def Impl.bound (d : Impl) (index : Section) (surface : Bytes) (upper : Bool) (first count : ℕ) :
    Query (Option ℕ) :=
  if count = 0 then pure (some first)
  else do
    let found ← d.surfaceIndexAt index (first + count / 2)
    match found with
    | none => pure none
    | some (_, value) =>
      if liesBehind upper surface value then
        d.bound index surface upper (first + count / 2 + 1) (count - (count / 2 + 1))
      else d.bound index surface upper first (count / 2)
termination_by count

/-- A round of the loop of `FindSurface` over the positions that were found. -/
def Impl.surfaceRound (d : Impl) (index : Section) (surface : Bytes) (lower : ℕ)
    (acc : ℕ × List StaticDictionaryEntry) (position : ℕ) :
    Query (Option (ℕ × List StaticDictionaryEntry)) := do
  let found ← d.surfaceIndexAt index position
  match found with
  | none => pure none
  | some (entry, value) =>
    if value ≠ surface then failWith "surface index mismatch"
    else if lower < position ∧ entry ≤ acc.1 then failWith "invalid surface index order"
    else
      let record ← d.record entry
      pure (record.map (fun r => (entry, acc.2 ++ [{ r with kind := .exact }])))

/-- `FindSurface`. -/
def Impl.findSurface (d : Impl) (index : Section) (surface : Bytes) :
    Query (Option (List StaticDictionaryEntry)) := do
  let lower ← d.bound index surface false 0 d.entries
  match lower with
  | none => pure none
  | some lower =>
    let upper ← d.bound index surface true 0 d.entries
    match upper with
    | none => pure none
    | some upper =>
      if upper < lower then failWith "invalid surface index order"
      else
        let found ← foldUntil (d.surfaceRound index surface lower)
          (List.range' lower (upper - lower)) (0, [])
        pure (found.map Prod.snd)

/-! ## Queries -/

/-- **`ExactMatch`.** -/
def Impl.exactMatch (d : Impl) (key : Bytes) : Query (Option PrefixMatch) := do
  let available ← isAvailable
  if !available || key.isEmpty || !isValidUtf8 key then pure none
  else
    let state ← foldUntil d.step key 0
    match state with
    | none => pure none
    | some state => d.matchNode state

/-- The loop of `CommonPrefixSearch`. -/
def Impl.prefixLoop (d : Impl) (maximum : ℕ) : ℕ → Bytes → List PrefixMatch →
    Query (List PrefixMatch)
  | _, [], out => pure out
  | state, byte :: rest, out => do
    let next ← d.step state byte
    match next with
    | none => pure out
    | some next =>
      let found ← d.matchNode next
      match found with
      | none => d.prefixLoop maximum next rest out
      | some found =>
        if rest.head?.any (fun c => c &&& 0xc0 = 0x80) then
          fail "terminal inside UTF-8 character" >>= fun _ => pure out
        else if maximum ≠ 0 ∧ out.length + 1 = maximum then pure (out ++ [found])
        else d.prefixLoop maximum next rest (out ++ [found])

/-- An answer that is given up when the dictionary has become unavailable. -/
def clearUnlessAvailable {α : Type} (out : List α) : Query (List α) :=
  isAvailable >>= fun available => pure (if available then out else [])

/-- **`CommonPrefixSearch`.** -/
def Impl.commonPrefixSearch (d : Impl) (key : Bytes) (maximum : ℕ) : Query (List PrefixMatch) := do
  let available ← isAvailable
  if !available || key.isEmpty || !isValidUtf8 key then pure []
  else
    let out ← d.prefixLoop maximum 0 key []
    clearUnlessAvailable out

/-- `Visit`: a node, and what UTF-8 allows after the bytes that lead to it. -/
structure Visit where
  node : ℕ
  remaining : ℕ := 0
  low : UInt8 := 0x80
  high : UInt8 := 0xbf
deriving DecidableEq

/-- The visit of a child, before it advances. -/
def Visit.moveTo (v : Visit) (child : ℕ) : Visit := { v with node := child }

/-- `Advance`. -/
def Visit.advance (v : Visit) (byte : UInt8) : Option Visit :=
  if v.remaining ≠ 0 then
    if byte < v.low ∨ v.high < byte then none
    else some { v with remaining := v.remaining - 1, low := 0x80, high := 0xbf }
  else if byte < 0x80 then if byte ≠ 0 then some v else none
  else if 0xc2 ≤ byte ∧ byte ≤ 0xdf then some { v with remaining := 1 }
  else if 0xe0 ≤ byte ∧ byte ≤ 0xef then
    some { v with
      remaining := 2
      low := if byte = 0xe0 then 0xa0 else v.low
      high := if byte = 0xed then 0x9f else v.high }
  else if 0xf0 ≤ byte ∧ byte ≤ 0xf4 then
    some { v with
      remaining := 3
      low := if byte = 0xf0 then 0x90 else v.low
      high := if byte = 0xf4 then 0x8f else v.high }
  else none

/-- A round of the loop over the keys of a level. -/
def Impl.matchRound (d : Impl) (found : List PrefixMatch) (visit : Visit) :
    Query (List PrefixMatch) := do
  let next ← d.matchNode visit.node
  match next with
  | none => pure found
  | some next =>
    if found.getLast?.any (fun last => next.keyId ≤ last.keyId) then
      fail "invalid key order" >>= fun _ => pure (found ++ [next])
    else if visit.remaining ≠ 0 then
      fail "terminal inside UTF-8 character" >>= fun _ => pure (found ++ [next])
    else pure (found ++ [next])

/-- The bytes that a child can have. -/
def childBytes : List UInt8 := (List.range' 1 255).map UInt8.ofNat

/-- A round of the loop over the children of a level. -/
def Impl.childRound (d : Impl) (next : List Visit) (visit : Visit × UInt8) : Query (List Visit) := do
  let child ← d.step visit.1.node visit.2
  match child with
  | none => pure next
  | some child =>
    match (visit.1.moveTo child).advance visit.2 with
    | some v => pure (next ++ [v])
    | none =>
      fail "invalid trie key encoding" >>= fun _ => pure (next ++ [visit.1.moveTo child])

/-- The children of a level. -/
def Impl.children (d : Impl) (level : List Visit) : Query (List Visit) :=
  (level.flatMap (fun v => childBytes.map (fun b => (v, b)))).foldlM d.childRound []

/-- Matches are appended up to the maximum; the answer says whether it was
reached. -/
def pushMatches (maximum : ℕ) : List PrefixMatch → List PrefixMatch → List PrefixMatch × Bool
  | out, [] => (out, false)
  | out, m :: ms =>
    if maximum ≠ 0 ∧ out.length + 1 = maximum then (out ++ [m], true)
    else pushMatches maximum (out ++ [m]) ms

/-! ### What is read, and the walk of `PredictiveSearch` -/

/-- The bytes that stand at an offset. -/
def Image.slice (image : Image) : ℕ → ℕ → Bytes
  | _, 0 => []
  | off, n + 1 => image.data off :: image.slice (off + 1) n

/-- The number that stands at an offset. -/
def Image.value (image : Image) (off n : ℕ) : ℕ := littleEndian (image.slice off n)

/-- The field of a node. -/
def Impl.field (d : Impl) (node field : ℕ) : ℕ :=
  d.image.value (d.trie.offset + node * 16 + field) 4

/-- A read that does not fault reads what stands there. -/
theorem bytes_eq_some {image : Image} {off n : ℕ} {s s' : Status} {r : Bytes}
    (h : image.bytes off n s = some (r, s')) : r = image.slice off n ∧ s' = s := by
  induction n generalizing off r s s' with
  | zero =>
    cases h
    exact ⟨rfl, rfl⟩
  | succ n ih =>
    obtain ⟨b, s₁, hb, h⟩ := exists_of_bind h
    obtain ⟨bs, s₂, hbs, h⟩ := exists_of_bind h
    cases h
    unfold Image.byte at hb
    split at hb
    · cases hb
      obtain ⟨rfl, rfl⟩ := ih hbs
      exact ⟨rfl, rfl⟩
    · cases hb

/-- A field that does not fault. -/
theorem node_eq_some {d : Impl} {node field r : ℕ} {s s' : Status}
    (h : d.node node field s = some (r, s')) : r = d.field node field ∧ s' = s := by
  obtain ⟨bytes, s₁, hbytes, h⟩ := exists_of_bind h
  cases h
  obtain ⟨rfl, rfl⟩ := bytes_eq_some hbytes
  exact ⟨rfl, rfl⟩

/-- **What a step leads to**: a node of the trie whose parent is the state, one
level deeper. -/
theorem step_eq_some {d : Impl} {state child : ℕ} {byte : UInt8} {s s' : Status}
    (h : d.step state byte s = some (some child, s')) :
    child = d.field state 0 + byte.toNat ∧ child < d.nodeCount ∧ d.field child 4 = state
      ∧ d.field state 12 ≠ uint32Max ∧ d.field child 12 = d.field state 12 + 1 ∧ s' = s := by
  obtain ⟨base, s₁, hbase, h₁⟩ := exists_of_bind h
  obtain ⟨rfl, rfl⟩ := node_eq_some hbase
  dsimp only at h₁
  split at h₁
  · cases h₁
  · rename_i hlt
    obtain ⟨check, s₂, hcheck, h₂⟩ := exists_of_bind h₁
    obtain ⟨rfl, rfl⟩ := node_eq_some hcheck
    split at h₂
    · cases h₂
    · rename_i hstate
      obtain ⟨depth, s₃, hdepth, h₃⟩ := exists_of_bind h₂
      obtain ⟨rfl, rfl⟩ := node_eq_some hdepth
      obtain ⟨childDepth, s₄, hchild, h₄⟩ := exists_of_bind h₃
      obtain ⟨rfl, rfl⟩ := node_eq_some hchild
      split at h₄
      · cases h₄
      · rename_i hgood
        cases h₄
        rw [not_or, not_not] at hgood
        exact ⟨rfl, not_le.mp hlt, not_not.mp hstate, hgood.1, hgood.2, rfl⟩

/-- Advancing stays at the node. -/
theorem advance_node {v w : Visit} {byte : UInt8} (h : v.advance byte = some w) :
    w.node = v.node := by
  unfold Visit.advance at h
  split_ifs at h
  all_goals
    cases h
    rfl

/-- What a round of the loop over the children adds. -/
theorem childRound_eq_some {d : Impl} {next next' : List Visit} {p : Visit × UInt8} {s s' : Status}
    (h : d.childRound next p s = some (next', s')) :
    next' = next ∨ ∃ v, d.step p.1.node p.2 s = some (some v.node, s) ∧ next' = next ++ [v] := by
  obtain ⟨child, s₁, hchild, hrest⟩ := exists_of_bind h
  cases child with
  | none =>
    cases hrest
    exact Or.inl rfl
  | some child =>
    obtain ⟨-, -, -, -, -, rfl⟩ := step_eq_some hchild
    right
    dsimp only at hrest
    cases hadvance : (p.1.moveTo child).advance p.2 with
    | some v =>
      rw [hadvance] at hrest
      cases hrest
      exact ⟨v, by rw [advance_node hadvance]; exact hchild, rfl⟩
    | none =>
      rw [hadvance] at hrest
      cases hrest
      exact ⟨p.1.moveTo child, hchild, rfl⟩

/-- Every child that is visited lies one level below a node of its level. -/
theorem children_eq_some {d : Impl} {level next : List Visit} {s s' : Status}
    (h : d.children level s = some (next, s')) :
    ∀ v ∈ next, ∃ u ∈ level, d.field u.node 12 ≠ uint32Max
      ∧ d.field v.node 12 = d.field u.node 12 + 1 := by
  have hfold : ∀ (pairs : List (Visit × UInt8)) (acc : List Visit) (s : Status),
      (∀ p ∈ pairs, p.1 ∈ level) →
      (∀ v ∈ acc, ∃ u ∈ level, d.field u.node 12 ≠ uint32Max
        ∧ d.field v.node 12 = d.field u.node 12 + 1) →
      pairs.foldlM d.childRound acc s = some (next, s') →
      ∀ v ∈ next, ∃ u ∈ level, d.field u.node 12 ≠ uint32Max
        ∧ d.field v.node 12 = d.field u.node 12 + 1 := by
    intro pairs
    induction pairs with
    | nil =>
      intro acc s _ hacc h
      cases h
      exact hacc
    | cons p pairs ih =>
      intro acc s hpairs hacc h
      rw [List.foldlM_cons] at h
      obtain ⟨acc', s₁, hround, h⟩ := exists_of_bind h
      refine ih acc' s₁ (fun q hq => hpairs q (List.mem_cons_of_mem _ hq)) ?_ h
      obtain rfl | ⟨v, hstep, rfl⟩ := childRound_eq_some hround
      · exact hacc
      · intro w hw
        rcases List.mem_append.mp hw with hw | hw
        · exact hacc w hw
        · rw [List.mem_singleton.mp hw]
          obtain ⟨-, -, -, hne, hdepth, -⟩ := step_eq_some hstep
          exact ⟨p.1, hpairs p List.mem_cons_self, hne, hdepth⟩
  refine hfold _ [] s (fun p hp => ?_) (by simp) h
  obtain ⟨v, hv, hp⟩ := List.mem_flatMap.mp hp
  obtain ⟨b, -, rfl⟩ := List.mem_map.mp hp
  exact hv

/-- The levels that can still follow: the depth of a node is a 32-bit number. -/
def Impl.levelsLeft (d : Impl) (level : List Visit) : ℕ :=
  (level.map (fun v => 2 ^ 32 - d.field v.node 12)).foldr max 0

/-- The number that stands at an offset has as many bits as it has bytes. -/
theorem value_lt (image : Image) (off n : ℕ) : image.value off n < 256 ^ n := by
  unfold Image.value
  induction n generalizing off with
  | zero => simp [Image.slice, littleEndian]
  | succ n ih =>
    have hbyte := (image.data off).toNat_lt
    have hrest := ih (off + 1)
    rw [Image.slice, littleEndian, pow_succ]
    omega

/-- **The levels run out.** -/
theorem levelsLeft_lt {d : Impl} {level next : List Visit} {s s' : Status} (hlevel : level ≠ [])
    (h : d.children level s = some (next, s')) : d.levelsLeft next < d.levelsLeft level := by
  have hmax : ∀ {l : List Visit} {v : Visit}, v ∈ l →
      2 ^ 32 - d.field v.node 12 ≤ d.levelsLeft l := by
    intro l v hv
    unfold Impl.levelsLeft
    induction l with
    | nil => cases hv
    | cons u l ih =>
      rw [List.map_cons, List.foldr_cons]
      rcases List.mem_cons.mp hv with rfl | hv
      · exact le_max_left _ _
      · exact (ih hv).trans (le_max_right _ _)
  have hpos : 0 < d.levelsLeft level := by
    obtain ⟨v, tail, rfl⟩ := List.exists_cons_of_ne_nil hlevel
    have hlt : d.field v.node 12 < 256 ^ 4 := value_lt _ _ _
    exact lt_of_lt_of_le (by omega) (hmax List.mem_cons_self)
  have hnext := children_eq_some h
  have hbound : ∀ l : List Visit, (∀ v ∈ l, v ∈ next) → d.levelsLeft l < d.levelsLeft level := by
    intro l
    induction l with
    | nil => intro _; exact hpos
    | cons v l ih =>
      intro hl
      obtain ⟨u, hu, hne, hdepth⟩ := hnext v (hl v List.mem_cons_self)
      have hlt : d.field u.node 12 < 256 ^ 4 := value_lt _ _ _
      have hle := hmax hu
      have hne' : d.field u.node 12 ≠ 0xffffffff := hne
      refine max_lt ?_ (ih (fun w hw => hl w (List.mem_cons_of_mem _ hw)))
      show 2 ^ 32 - d.field v.node 12 < _
      omega
  exact hbound next (fun _ hv => hv)

/-- **The loop of `PredictiveSearch`**, level by level. Besides its answer it
tells which nodes it visited. -/
def Impl.predictiveLoop (d : Impl) (maximum : ℕ) (level : List Visit) (out : List PrefixMatch)
    (visited : List ℕ) (s : Status) : Option ((List PrefixMatch × List ℕ) × Status) :=
  if _hdone : level = [] ∨ s.available = false then
    some ((if s.available then out else [], visited), s)
  else
    match level.foldlM d.matchRound [] s with
    | none => none
    | some (found, s₁) =>
      let visited := visited ++ level.map Visit.node
      if s₁.available = false then some (([], visited), s₁)
      else if (pushMatches maximum out found).2 then
        some (((pushMatches maximum out found).1, visited), s₁)
      else
        match _h : d.children level s₁ with
        | none => none
        | some (next, s₂) =>
          d.predictiveLoop maximum next (pushMatches maximum out found).1 visited s₂
termination_by d.levelsLeft level
decreasing_by exact levelsLeft_lt (fun h => _hdone (Or.inl h)) _h

/-- `PredictiveSearch`, with the nodes that it visits. -/
def Impl.predictiveVisits (d : Impl) (key : Bytes) (maximum : ℕ) :
    Query (List PrefixMatch × List ℕ) := do
  let available ← isAvailable
  if !available || key.isEmpty || !isValidUtf8 key then pure ([], [])
  else
    let state ← foldUntil d.step key 0
    match state with
    | none => pure ([], [])
    | some state => d.predictiveLoop maximum [{ node := state }] [] []

/-- **`PredictiveSearch`.** -/
def Impl.predictiveSearch (d : Impl) (key : Bytes) (maximum : ℕ) : Query (List PrefixMatch) :=
  d.predictiveVisits key maximum >>= fun r => pure r.1

/-- A round of `ReadEntries`. -/
def Impl.entryRound (d : Impl) (refOff : ℕ) (out : List StaticDictionaryEntry) (i : ℕ) :
    Query (Option (List StaticDictionaryEntry)) := do
  let off := d.refs.offset + (refOff + i) * 8
  let kind ← d.image.byte (off + 4)
  let reserved ← d.image.bytes (off + 5) 3
  if 1 < kind ∨ reserved.any (· ≠ 0) then failWith "invalid entry reference"
  else
    let index ← d.image.u32 off
    let entry ← d.record index
    match entry with
    | none => failWith "invalid entry reference"
    | some entry =>
      pure (some (out ++ [{ entry with kind := if kind = 0 then .exact else .alias }]))

/-- **`ReadEntries`**, with its answer. -/
def Impl.readEntries (d : Impl) (m : PrefixMatch) : Query (Bool × List StaticDictionaryEntry) := do
  let available ← isAvailable
  if !available then pure (false, [])
  else if d.keys ≤ m.keyId ∨ inRange m.entryRefOff m.entryCount d.refCount = false then
    fail "invalid match range" >>= fun _ => pure (false, [])
  else
    let offset ← d.image.u32 (d.keySection.offset + m.keyId * 8)
    let count ← d.image.u32 (d.keySection.offset + m.keyId * 8 + 4)
    if offset ≠ m.entryRefOff ∨ count ≠ m.entryCount then
      fail "mismatched key references" >>= fun _ => pure (false, [])
    else
      let out ← foldUntil (d.entryRound m.entryRefOff) (List.range m.entryCount) []
      pure (out.elim (false, []) (fun out => (true, out)))

/-- A round of the scan of `LookupSurface`. -/
def Impl.scanRound (d : Impl) (surface : Bytes) (out : List StaticDictionaryEntry) (i : ℕ) :
    Query (Option (List StaticDictionaryEntry)) := do
  let offset ← d.image.u32 (d.records.offset + i * 32)
  let length ← d.image.u32 (d.records.offset + i * 32 + 4)
  if length = 0 ∨ inRange offset length d.strings.size = false then failWith "invalid string range"
  else if length ≠ surface.length then pure (some out)
  else
    let text ← d.image.bytes (d.strings.offset + offset) length
    if text ≠ surface then pure (some out)
    else
      let entry ← d.record i
      pure (entry.map (fun entry => out ++ [{ entry with kind := .exact }]))

/-- **`LookupSurface`.** -/
def Impl.lookupSurface (d : Impl) (surface : Bytes) : Query (List StaticDictionaryEntry) := do
  let available ← isAvailable
  if !available || surface.isEmpty || !isValidUtf8 surface then pure []
  else
    let out ← match d.surfaceIndex with
      | some index => d.findSurface index surface
      | none => foldUntil (d.scanRound surface) (List.range d.entries) []
    pure (out.getD [])

/-! ## Verification -/

/-- The hash of the content. -/
def contentHash (hash : UInt64) (bytes : Bytes) : UInt64 :=
  bytes.foldl (fun hash b => (hash ^^^ b.toUInt64) * 1099511628211) hash

/-- The bytes that lead to a node, in front of a key: the walk to the root. The
depth is the one of the node. -/
def Impl.ancestry (d : Impl) (depth current : ℕ) (key : Bytes) : Query (Option Bytes) :=
  if current = 0 then pure (some key)
  else do
    let up ← d.node current 4
    if d.nodeCount ≤ up then failWith "invalid trie ancestry"
    else
      let upDepth ← d.node up 12
      if upDepth < depth then
        let base ← d.node up 0
        d.ancestry upDepth up (UInt8.ofNat (current + (2 ^ 32 - base)) :: key)
      else failWith "invalid trie ancestry"
termination_by depth

/-- An entry that a key may not list. -/
def badEntry (key : Bytes) (entry : StaticDictionaryEntry) : Bool :=
  let normalized := normalizeReading entry.reading
  (entry.kind == .exact && key != normalized)
    || (entry.kind == .alias && (key == normalized || !(readingAliases normalized).contains key))

/-- The checks of `Verify` on a node with a key. `texts` are the keys that were
seen, by their number. -/
def Impl.verifyKey (d : Impl) (texts : List (Option Bytes)) (i depth : ℕ) (found : PrefixMatch) :
    Query (Option (List (Option Bytes))) := do
  if (texts.getD found.keyId none).isSome then failWith "duplicate key id"
  else
    let key ← d.ancestry depth i []
    match key with
    | none => pure none
    | some key =>
      if !isValidUtf8 key then failWith "invalid trie key encoding"
      else
        let entries ← d.readEntries found
        if !entries.1 then pure none
        else if entries.2.any (badEntry key) then failWith "key does not match entry reading"
        else pure (some (texts.set found.keyId (some key)))

/-- A round of the loop of `Verify` over the nodes. -/
def Impl.verifyNode (d : Impl) (texts : List (Option Bytes)) (i : ℕ) :
    Query (Option (List (Option Bytes))) := do
  let parent ← d.node i 4
  if parent = noNode then pure (some texts)
  else if d.nodeCount ≤ parent then failWith "invalid trie edge"
  else
    let parentCheck ← d.node parent 4
    let parentDepth ← d.node parent 12
    let depth ← d.node i 12
    let base ← d.node parent 0
    if parentCheck = noNode ∨ depth ≤ parentDepth ∨ i ≤ base ∨ 255 < i - base then
      failWith "invalid trie edge"
    else
      let child ← d.step parent (UInt8.ofNat (i - base))
      if child ≠ some i then failWith "invalid trie edge"
      else
        let found ← d.matchNode i
        let next ← match found with
          | none => pure (some texts)
          | some found => d.verifyKey texts i depth found
        let available ← isAvailable
        pure (if available then next else none)

/-- The keys come in increasing order. -/
def increasing : List Bytes → Bool
  | a :: b :: rest => a < b && increasing (b :: rest)
  | _ => true

/-- A round of the loop of `Verify` over the entries. -/
def Impl.verifyRecord (d : Impl) (_ : Unit) (i : ℕ) : Query (Option Unit) :=
  d.record i >>= fun entry => pure (entry.map (fun _ => ()))

/-- A round of the loop of `Verify` over the surface index: the entry and the
surface before. -/
def Impl.verifySurface (d : Impl) (index : Section) (previous : ℕ × Bytes) (position : ℕ) :
    Query (Option (ℕ × Bytes)) := do
  let found ← d.surfaceIndexAt index position
  match found with
  | none => pure none
  | some (entry, value) =>
    if position ≠ 0 ∧ (value < previous.2 ∨ value = previous.2 ∧ entry ≤ previous.1) then
      failWith "invalid surface index order"
    else pure (some (entry, value))

/-- A round of the loop of `Verify` over the references. -/
def Impl.verifyRef (d : Impl) (_ : Unit) (i : ℕ) : Query (Option Unit) := do
  let off := d.refs.offset + i * 8
  let entry ← d.image.u32 off
  let kind ← d.image.byte (off + 4)
  let reserved ← d.image.bytes (off + 5) 3
  if d.entries ≤ entry ∨ 1 < kind ∨ reserved.any (· ≠ 0) then failWith "invalid entry reference"
  else pure (some ())

/-- `Verify` after the keys. -/
def Impl.verifyTables (d : Impl) : Query Bool := do
  let records ← foldUntil d.verifyRecord (List.range d.entries) ()
  if records.isNone then pure false
  else
    let surfaces ← match d.surfaceIndex with
      | none => pure (some (0, []))
      | some index => foldUntil (d.verifySurface index) (List.range d.entries) (0, [])
    if surfaces.isNone then pure false
    else
      let refs ← foldUntil d.verifyRef (List.range d.refCount) ()
      pure refs.isSome

/-- **`Verify`.** -/
def Impl.verify (d : Impl) : Query Bool := do
  let available ← isAvailable
  if !available then pure false
  else
    let content ← d.image.bytes 64 (d.image.size - 64)
    let hash ← d.image.read 32 8
    if (contentHash 14695981039346656037 content).toNat ≠ hash then
      fail "content hash mismatch" >>= fun _ => pure false
    else
      let texts ← foldUntil d.verifyNode (List.range' 1 (d.nodeCount - 1))
        (List.replicate d.keys none)
      match texts with
      | none => pure false
      | some texts =>
        if texts.any Option.isNone then fail "unreachable key" >>= fun _ => pure false
        else if !increasing (texts.map (fun t => t.getD [])) then
          fail "invalid key order" >>= fun _ => pure false
        else d.verifyTables

/-- **`Load`** of an image: `Structure`, and `Verify` when that is asked for. -/
def load (σ : SectionSort) (image : Image) (verify : Bool) : Option (Option Impl × Status) :=
  (structureOf σ image >>= fun found =>
    match found with
    | none => pure none
    | some d => if verify then d.verify >>= fun ok => pure (if ok then some d else none)
        else pure (some d)) ⟨false, "not loaded"⟩

end AzooKey.Core.Dictionary

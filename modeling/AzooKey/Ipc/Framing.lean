import AzooKey.Ipc.Messages
import AzooKey.Lib.LittleEndian

/-!
# Frames on a pipe

A message is sent as a frame: its size in four bytes, and its text. The pipe
hands a frame on in parts that the reader has no say in. A part may end inside
of the size, and it may hold the end of one frame and the beginning of the next,
so that `ReadBytes` takes what it needs of a part and leaves the rest in the
pipe.

The frames of texts come out of the pipe as they went in, however they were cut
on the way, and after the last one the pipe is at its end. A size that no frame
may have is refused when only the size was taken from the pipe
(`frames_come_out_as_sent`).
-/

namespace AzooKey.Ipc

open LittleEndian

/-! ## The reader -/

/-- What a reader of the pipe meets: a part of the data, `ERROR_NO_DATA`, or an
end – it is stopped, its time is up, or the pipe fails. -/
inductive PipeEvent
  | data (chunk : Bytes)
  | noData
  | broken
deriving DecidableEq

/-- `kPipeBufferSize`. -/
def pipeBufferSize : ℕ := 64 * 1024

/-- `kMaxTransientReadNoDataRetries`. -/
def maxTransientReadNoDataRetries : ℕ := 100

/-- **`ReadBytes`**: what was read so far, the retries so far, and what the pipe
has. A part that is longer than what is asked for leaves its end in the pipe, as
`ERROR_MORE_DATA` says. -/
def readBytes (size : ℕ) (got : Bytes) (retries : ℕ) (pipe : List PipeEvent) :
    Option Bytes × List PipeEvent :=
  if size ≤ got.length then (some got, pipe)
  else
    match pipe with
    | [] => (none, [])
    | .broken :: rest => (none, rest)
    | .noData :: rest =>
      if got = [] ∨ maxTransientReadNoDataRetries < retries + 1 then (none, rest)
      else readBytes size got (retries + 1) rest
    | .data chunk :: rest =>
      if chunk = [] then (none, rest)
      else
        let room := min (size - got.length) pipeBufferSize
        if chunk.length ≤ room then readBytes size (got ++ chunk) 0 rest
        else readBytes size (got ++ chunk.take room) 0 (.data (chunk.drop room) :: rest)
termination_by (size - got.length, pipe.length)
decreasing_by
  · exact Prod.Lex.right _ (Nat.lt_succ_self _)
  · rename_i hempty _
    have hpos := List.length_pos_iff.mpr hempty
    refine Prod.Lex.left _ _ ?_
    rw [List.length_append]
    omega
  · have hroom : 0 < min (size - got.length) pipeBufferSize :=
      lt_min (by omega) (by decide)
    refine Prod.Lex.left _ _ ?_
    rw [List.length_append, List.length_take]
    omega

/-- `DecodeFrameLength`, and what `ReadFramedEnvelope` asks of the size of a
frame. -/
def decodeFrameLength (header : Bytes) (maxBytes : ℕ) : Option ℕ :=
  let size := decode header
  if size = 0 ∨ maxBytes < size then none else some size

/-- A frame that was read, or not: its text, the bytes that were allocated for
it, and what is left in the pipe. -/
structure FrameRead where
  text : Option Bytes
  allocated : ℕ
  rest : List PipeEvent
deriving DecidableEq

/-- The text of the next frame. -/
def readFrame (maxBytes : ℕ) (pipe : List PipeEvent) : FrameRead :=
  match readBytes 4 [] 0 pipe with
  | (none, rest) => ⟨none, 0, rest⟩
  | (some header, rest) =>
    match decodeFrameLength header maxBytes with
    | none => ⟨none, 0, rest⟩
    | some size =>
      let body := readBytes size [] 0 rest
      ⟨body.1, size, body.2⟩

/-- **`ReadFramedEnvelope`.** -/
def readFramedEnvelope (pipe : List PipeEvent) : Option Envelope × List PipeEvent :=
  let frame := readFrame maxFrameSize pipe
  (frame.text.bind deserialize, frame.rest)

/-- The answers to `n` reads, one after another, and what they leave. -/
def readFrames (maxBytes : ℕ) : ℕ → List PipeEvent → List (Option Bytes) × List PipeEvent
  | 0, pipe => ([], pipe)
  | n + 1, pipe =>
    let frame := readFrame maxBytes pipe
    let others := readFrames maxBytes n frame.rest
    (frame.text :: others.1, others.2)

/-- `DecodeLengthPrefixed`. The size and four are added in 32 bits. -/
def decodeLengthPrefixed (bytes : Bytes) : Option Bytes :=
  if bytes.length < 4 then none
  else
    let size := decode (bytes.take 4)
    if bytes.length ≠ (size + 4) % 2 ^ 32 then none
    else if size = 0 ∨ maxFrameSize < size then none
    else some (bytes.drop 4)

/-- `EncodeFrame`, of the proofreading session. -/
def encodeFrame (json : Bytes) (maxBytes : ℕ) : Option Bytes :=
  if json = [] ∨ maxBytes < json.length then none
  else some ((List.range 4).map (fun i => UInt8.ofNat (json.length >>> (8 * i))) ++ json)

/-! ## The size of a frame -/

/-- The size is written the lowest byte first. -/
theorem sizeBytes_eq (n : ℕ) :
    (List.range 4).map (fun i => UInt8.ofNat (n >>> (8 * i))) = encode 4 n := by
  have hrange : List.range 4 = [0, 1, 2, 3] := rfl
  rw [hrange]
  simp only [encode, List.map_cons, List.map_nil, Nat.shiftRight_eq_div_pow, Nat.div_div_eq_div_mul,
    Nat.mul_zero, Nat.pow_zero, Nat.div_one]

/-- **`EncodeLengthPrefixed`** writes the size and the text. -/
theorem encodeLengthPrefixed_eq {text : Bytes} (h : text.length ≤ maxFrameSize) :
    encodeLengthPrefixed text = some (encode 4 text.length ++ text) := by
  unfold encodeLengthPrefixed
  rw [if_neg (not_lt.mpr h), sizeBytes_eq]

/-- `EncodeFrame` writes the size and the text. -/
theorem encodeFrame_eq_some_iff {json frame : Bytes} {maxBytes : ℕ} :
    encodeFrame json maxBytes = some frame
      ↔ json ≠ [] ∧ json.length ≤ maxBytes ∧ frame = encode 4 json.length ++ json := by
  unfold encodeFrame
  rw [sizeBytes_eq]
  split
  · rename_i hbad
    refine iff_of_false (fun h => by cases h) ?_
    rintro ⟨hne, hle, -⟩
    rcases hbad with hnil | hlong
    · exact hne hnil
    · exact not_lt.mpr hle hlong
  · rename_i hgood
    rw [not_or, not_lt] at hgood
    rw [Option.some_inj]
    exact ⟨fun h => ⟨hgood.1, hgood.2, h.symm⟩, fun h => h.2.2.symm⟩

/-- **The size of a text comes back**, if it is one that a frame may have. -/
theorem decodeFrameLength_encode {n maxBytes : ℕ} (hpos : 0 < n) (hle : n ≤ maxBytes)
    (hmax : maxBytes < 2 ^ 32) : decodeFrameLength (encode 4 n) maxBytes = some n := by
  have hsize : decode (encode 4 n) = n := decode_encode_of_lt (by omega)
  unfold decodeFrameLength
  dsimp only
  rw [hsize, if_neg (by omega)]

/-- `kMaxFrameSize` is far below what four bytes hold. -/
theorem maxFrameSize_lt : maxFrameSize + 4 < 2 ^ 32 := by decide

/-- **`DecodeLengthPrefixed` is the inverse of `EncodeLengthPrefixed`** on texts
that are not empty and within the limit. -/
theorem decodeLengthPrefixed_eq_some_iff (bytes text : Bytes) :
    decodeLengthPrefixed bytes = some text
      ↔ text ≠ [] ∧ text.length ≤ maxFrameSize ∧ encodeLengthPrefixed text = some bytes := by
  have hmax := maxFrameSize_lt
  constructor
  · intro h
    unfold decodeLengthPrefixed at h
    split at h
    · cases h
    rename_i hfour
    dsimp only at h
    split at h
    · cases h
    rename_i hlength
    split at h
    · cases h
    rename_i hsize
    cases h
    rw [not_or, not_lt] at hsize
    rw [not_not, Nat.mod_eq_of_lt (by omega)] at hlength
    have hdrop : (bytes.drop 4).length = decode (bytes.take 4) := by
      rw [List.length_drop]
      omega
    have hle : (bytes.drop 4).length ≤ maxFrameSize := hdrop.le.trans hsize.2
    refine ⟨fun hnil => hsize.1 (by rw [← hdrop, hnil, List.length_nil]), hle, ?_⟩
    rw [encodeLengthPrefixed_eq hle, hdrop,
      encode_decode_of_length (List.length_take_of_le (not_lt.mp hfour)), List.take_append_drop]
  · rintro ⟨hne, hle, hencode⟩
    have hpos := List.length_pos_iff.mpr hne
    rw [encodeLengthPrefixed_eq hle, Option.some_inj] at hencode
    have htake : bytes.take 4 = encode 4 text.length := by
      rw [← hencode, List.take_left' (length_encode 4 _)]
    have hdrop : bytes.drop 4 = text := by
      rw [← hencode, List.drop_left' (length_encode 4 _)]
    have hlength : bytes.length = 4 + text.length := by
      rw [← hencode, List.length_append, length_encode]
    have hsize : decode (encode 4 text.length) = text.length := decode_encode_of_lt (by omega)
    unfold decodeLengthPrefixed
    dsimp only
    rw [if_neg (by omega), htake, hdrop, hsize, Nat.mod_eq_of_lt (by omega), if_neg (by omega),
      if_neg (by omega)]

/-! ## The parts of the data -/

/-- A pipe that has parts of the data, and then its end. -/
def parts (chunks : List Bytes) : List PipeEvent := chunks.map PipeEvent.data

/-- **`ReadBytes` takes the bytes that it is asked for**, across the parts, and
leaves the others, in parts again. -/
theorem readBytes_parts (size : ℕ) (got : Bytes) (retries : ℕ) {chunks : List Bytes}
    (hchunks : ∀ c ∈ chunks, c ≠ []) (henough : size ≤ got.length + chunks.flatten.length) :
    ∃ chunks', (∀ c ∈ chunks', c ≠ [])
      ∧ chunks'.flatten = chunks.flatten.drop (size - got.length)
      ∧ readBytes size got retries (parts chunks)
        = (some (got ++ chunks.flatten.take (size - got.length)), parts chunks') := by
  -- every part that is taken brings the reader nearer to the size
  induction hn : size - got.length using Nat.strong_induction_on
    generalizing got retries chunks with
  | _ n ih =>
    subst hn
    unfold readBytes
    by_cases hdone : size ≤ got.length
    · rw [if_pos hdone, Nat.sub_eq_zero_of_le hdone]
      exact ⟨chunks, hchunks, rfl, by rw [List.take_zero, List.append_nil]⟩
    rw [if_neg hdone]
    cases chunks with
    | nil =>
      rw [List.flatten_nil, List.length_nil] at henough
      omega
    | cons chunk rest =>
      have hne : chunk ≠ [] := hchunks chunk List.mem_cons_self
      have hpos := List.length_pos_iff.mpr hne
      have hrest : ∀ c ∈ rest, c ≠ [] := fun c hc => hchunks c (List.mem_cons_of_mem _ hc)
      rw [List.flatten_cons, List.length_append] at henough
      set room := min (size - got.length) pipeBufferSize with hroom
      have hroompos : 0 < room := lt_min (by omega) (by decide)
      have hroomle : room ≤ size - got.length := min_le_left _ _
      show ∃ chunks', _ ∧ _ ∧ (if chunk = [] then _ else
        if chunk.length ≤ room then _ else _) = _
      rw [if_neg hne]
      by_cases hfits : chunk.length ≤ room
      · -- the whole part is taken
        have hless : size - (got ++ chunk).length < size - got.length := by
          rw [List.length_append]
          omega
        have hleft : size - (got ++ chunk).length = size - got.length - chunk.length := by
          rw [List.length_append]
          omega
        obtain ⟨chunks', hchunks', hflatten, hread⟩ := ih _ hless _ 0 hrest
          (by rw [List.length_append]; omega) rfl
        refine ⟨chunks', hchunks', ?_, ?_⟩
        · have hnone : chunk.drop (size - got.length) = [] :=
            List.drop_eq_nil_of_le (hfits.trans hroomle)
          rw [hflatten, hleft, List.flatten_cons, List.drop_append, hnone, List.nil_append]
        · rw [if_pos hfits]
          refine hread.trans ?_
          have hwhole : chunk.take (size - got.length) = chunk :=
            List.take_of_length_le (hfits.trans hroomle)
          rw [hleft, List.flatten_cons, List.take_append, hwhole, List.append_assoc]
      · -- the part is longer than what is asked for
        have htake : (chunk.take room).length = room := List.length_take_of_le (by omega)
        have hless : size - (got ++ chunk.take room).length < size - got.length := by
          rw [List.length_append, htake]
          omega
        have hleft : size - (got ++ chunk.take room).length = size - got.length - room := by
          rw [List.length_append, htake]
          omega
        have hsplit : (chunk.drop room :: rest).flatten
            = (chunk :: rest).flatten.drop room := by
          rw [List.flatten_cons, List.flatten_cons, List.drop_append_of_le_length (by omega)]
        have hothers : ∀ c ∈ chunk.drop room :: rest, c ≠ [] := by
          intro c hc
          rcases List.mem_cons.mp hc with rfl | hc
          · rw [← List.length_pos_iff, List.length_drop]
            omega
          · exact hrest c hc
        obtain ⟨chunks', hchunks', hflatten, hread⟩ := ih _ hless _ 0 hothers
          (by rw [hsplit, List.length_drop, List.flatten_cons, List.length_append,
                List.length_append, htake]; omega) rfl
        refine ⟨chunks', hchunks', ?_, ?_⟩
        · rw [hflatten, hleft, hsplit, List.drop_drop]
          congr 1
          omega
        · rw [if_neg hfits]
          refine hread.trans ?_
          have hprefix : chunk.take room = (chunk :: rest).flatten.take room := by
            rw [List.flatten_cons, List.take_append_of_le_length (by omega)]
          rw [hleft, hsplit, hprefix, List.append_assoc, ← List.take_add,
            Nat.add_sub_cancel' hroomle]

/-- **One frame**: the text comes out of the parts, and the bytes behind it stay. -/
theorem readFrame_parts {maxBytes : ℕ} {text others : Bytes} {chunks : List Bytes}
    (hmax : maxBytes < 2 ^ 32) (hne : text ≠ []) (hle : text.length ≤ maxBytes)
    (hchunks : ∀ c ∈ chunks, c ≠ [])
    (hdata : chunks.flatten = encode 4 text.length ++ (text ++ others)) :
    ∃ chunks', (∀ c ∈ chunks', c ≠ []) ∧ chunks'.flatten = others
      ∧ readFrame maxBytes (parts chunks) = ⟨some text, text.length, parts chunks'⟩ := by
  have hheader := readBytes_parts 4 [] 0 hchunks (by simp [hdata])
  obtain ⟨behind, hbehind, hflatten, hread⟩ := hheader
  rw [List.length_nil, Nat.sub_zero, hdata, List.drop_left' (length_encode 4 _)] at hflatten
  rw [List.length_nil, Nat.sub_zero, hdata, List.take_left' (length_encode 4 _),
    List.nil_append] at hread
  have hbody := readBytes_parts text.length [] 0 hbehind (by simp [hflatten])
  obtain ⟨chunks', hchunks', hrest, htext⟩ := hbody
  rw [List.length_nil, Nat.sub_zero, hflatten, List.drop_left] at hrest
  rw [List.length_nil, Nat.sub_zero, hflatten, List.take_left, List.nil_append] at htext
  refine ⟨chunks', hchunks', hrest, ?_⟩
  unfold readFrame
  simp only [hread, decodeFrameLength_encode (List.length_pos_iff.mpr hne) hle hmax, htext]

/-- **The frames of texts, one after another**, and then the end of the pipe. -/
theorem readFrames_parts {maxBytes : ℕ} {texts chunks : List Bytes} (hmax : maxBytes < 2 ^ 32)
    (htexts : ∀ t ∈ texts, t ≠ [] ∧ t.length ≤ maxBytes) (hchunks : ∀ c ∈ chunks, c ≠ [])
    (hdata : chunks.flatten = texts.flatMap (fun t => encode 4 t.length ++ t)) :
    readFrames maxBytes (texts.length + 1) (parts chunks) = (texts.map some ++ [none], []) := by
  induction texts generalizing chunks with
  | nil =>
    have hnil : chunks = [] := by
      cases chunks with
      | nil => rfl
      | cons c rest =>
        have hall := List.flatten_eq_nil_iff.mp hdata c List.mem_cons_self
        exact absurd hall (hchunks c List.mem_cons_self)
    have hend : readFrame maxBytes [] = ⟨none, 0, []⟩ := by
      unfold readFrame readBytes
      rfl
    subst hnil
    show ((readFrame maxBytes []).text :: [], (readFrame maxBytes []).rest) = _
    rw [hend]
    rfl
  | cons text texts ih =>
    have htext := htexts text List.mem_cons_self
    rw [List.flatMap_cons, List.append_assoc] at hdata
    obtain ⟨chunks', hchunks', hrest, hread⟩ :=
      readFrame_parts hmax htext.1 htext.2 hchunks hdata
    have hothers := ih (fun t ht => htexts t (List.mem_cons_of_mem _ ht)) hchunks' hrest
    show ((readFrame maxBytes (parts chunks)).text
        :: (readFrames maxBytes (texts.length + 1) (readFrame maxBytes (parts chunks)).rest).1,
      (readFrames maxBytes (texts.length + 1) (readFrame maxBytes (parts chunks)).rest).2) = _
    rw [hread, hothers]
    rfl

/-- **A size that no frame may have is refused at once**: nothing is allocated,
and every byte behind the size stays in the pipe. -/
theorem readFrame_refused {maxBytes : ℕ} {header body : Bytes} {chunks : List Bytes}
    (hheader : header.length = 4) (hsize : decode header = 0 ∨ maxBytes < decode header)
    (hchunks : ∀ c ∈ chunks, c ≠ []) (hdata : chunks.flatten = header ++ body) :
    ∃ chunks', (∀ c ∈ chunks', c ≠ []) ∧ chunks'.flatten = body
      ∧ readFrame maxBytes (parts chunks) = ⟨none, 0, parts chunks'⟩ := by
  have hfour := readBytes_parts 4 [] 0 hchunks (by simp [hdata, hheader])
  obtain ⟨chunks', hchunks', hflatten, hread⟩ := hfour
  rw [List.length_nil, Nat.sub_zero, hdata, List.drop_left' hheader] at hflatten
  rw [List.length_nil, Nat.sub_zero, hdata, List.take_left' hheader, List.nil_append] at hread
  have hrefused : decodeFrameLength header maxBytes = none := if_pos hsize
  refine ⟨chunks', hchunks', hflatten, ?_⟩
  unfold readFrame
  simp only [hread, hrefused]

/-- **An envelope is read from the frame of its text**, whatever the parts. -/
theorem readFramedEnvelope_parts {text frame others : Bytes} {chunks : List Bytes} (hne : text ≠ [])
    (hframe : encodeLengthPrefixed text = some frame) (hchunks : ∀ c ∈ chunks, c ≠ [])
    (hdata : chunks.flatten = frame ++ others) :
    ∃ chunks', (∀ c ∈ chunks', c ≠ []) ∧ chunks'.flatten = others
      ∧ readFramedEnvelope (parts chunks) = (deserialize text, parts chunks') := by
  have hmax : maxFrameSize < 2 ^ 32 := (Nat.le_add_right _ 4).trans_lt maxFrameSize_lt
  have hle : text.length ≤ maxFrameSize := by
    by_contra hlarge
    unfold encodeLengthPrefixed at hframe
    rw [if_pos (not_le.mp hlarge)] at hframe
    cases hframe
  rw [encodeLengthPrefixed_eq hle] at hframe
  obtain rfl := Option.some.inj hframe
  rw [List.append_assoc] at hdata
  obtain ⟨chunks', hchunks', hrest, hread⟩ := readFrame_parts hmax hne hle hchunks hdata
  refine ⟨chunks', hchunks', hrest, ?_⟩
  unfold readFramedEnvelope
  rw [hread]
  rfl

/-- **No envelope is read behind a size that no frame may have.** -/
theorem readFramedEnvelope_refused {header body : Bytes} {chunks : List Bytes}
    (hheader : header.length = 4) (hsize : decode header = 0 ∨ maxFrameSize < decode header)
    (hchunks : ∀ c ∈ chunks, c ≠ []) (hdata : chunks.flatten = header ++ body) :
    ∃ chunks', (∀ c ∈ chunks', c ≠ []) ∧ chunks'.flatten = body
      ∧ readFramedEnvelope (parts chunks) = (none, parts chunks') := by
  obtain ⟨chunks', hchunks', hrest, hread⟩ := readFrame_refused hheader hsize hchunks hdata
  refine ⟨chunks', hchunks', hrest, ?_⟩
  unfold readFramedEnvelope
  rw [hread]
  rfl

/-! ## Every cut -/

/-- **The frames of texts come out as they were sent**, however the pipe cuts
them, and then it is at its end; a frame that is read as a whole is the frame of
its text; and a size that no frame may have is refused before anything behind it
is taken. The frames of a proofreading session differ in their limit only. -/
theorem frames_come_out_as_sent :
    (∀ texts frames chunks : List Bytes,
      (∀ t ∈ texts, t ≠ [] ∧ t.length ≤ maxFrameSize) →
      texts.mapM encodeLengthPrefixed = some frames →
      (∀ c ∈ chunks, c ≠ []) → chunks.flatten = frames.flatten →
      readFrames maxFrameSize (texts.length + 1) (parts chunks) = (texts.map some ++ [none], []))
    ∧ (∀ bytes text : Bytes, decodeLengthPrefixed bytes = some text
      ↔ text ≠ [] ∧ text.length ≤ maxFrameSize ∧ encodeLengthPrefixed text = some bytes)
    ∧ (∀ (header body : Bytes) (chunks : List Bytes), header.length = 4 →
      decode header = 0 ∨ maxFrameSize < decode header →
      (∀ c ∈ chunks, c ≠ []) → chunks.flatten = header ++ body →
      ∃ chunks', (∀ c ∈ chunks', c ≠ []) ∧ chunks'.flatten = body
        ∧ readFrame maxFrameSize (parts chunks) = ⟨none, 0, parts chunks'⟩)
    ∧ (∀ (json frame : Bytes) (maxBytes : ℕ), maxBytes < 2 ^ 32 →
      (encodeFrame json maxBytes = some frame
        ↔ json ≠ [] ∧ json.length ≤ maxBytes ∧ frame = encode 4 json.length ++ json)
      ∧ (encodeFrame json maxBytes = some frame →
        decodeFrameLength (frame.take 4) maxBytes = some json.length)) := by
  have hmax : maxFrameSize < 2 ^ 32 := (Nat.le_add_right _ 4).trans_lt maxFrameSize_lt
  refine ⟨?_, decodeLengthPrefixed_eq_some_iff, ?_, ?_⟩
  · intro texts frames chunks htexts hframes hchunks hdata
    have hsent : frames = texts.map (fun t => encode 4 t.length ++ t) := by
      clear hdata
      induction texts generalizing frames with
      | nil =>
        rw [List.mapM_nil] at hframes
        cases hframes
        rfl
      | cons text texts ih =>
        rw [List.mapM_cons, encodeLengthPrefixed_eq (htexts text List.mem_cons_self).2] at hframes
        cases hothers : texts.mapM encodeLengthPrefixed with
        | none => rw [hothers] at hframes; cases hframes
        | some others =>
          rw [hothers] at hframes
          cases hframes
          rw [List.map_cons,
            ih others (fun t ht => htexts t (List.mem_cons_of_mem _ ht)) hothers]
    rw [hsent, ← List.flatMap_def] at hdata
    exact readFrames_parts hmax htexts hchunks hdata
  · intro header body chunks hheader hsize hchunks hdata
    exact readFrame_refused hheader hsize hchunks hdata
  · intro json frame maxBytes hlt
    refine ⟨encodeFrame_eq_some_iff, fun h => ?_⟩
    obtain ⟨hne, hle, rfl⟩ := encodeFrame_eq_some_iff.mp h
    rw [List.take_left' (length_encode 4 _)]
    exact decodeFrameLength_encode (List.length_pos_iff.mpr hne) hle hlt

/-- Two texts, the second of them cut inside of its size. -/
theorem frames_come_out_as_sent_twoTexts :
    ([utf8 "a", utf8 "bc"] : List Bytes).mapM encodeLengthPrefixed
        = some [[1, 0, 0, 0, 0x61], [2, 0, 0, 0, 0x62, 0x63]]
      ∧ readFrames maxFrameSize 3 (parts [[1, 0, 0, 0, 0x61, 2, 0], [0, 0, 0x62], [0x63]])
        = ([some (utf8 "a"), some (utf8 "bc"), none], []) :=
  ⟨by decide, frames_come_out_as_sent.1 [utf8 "a", utf8 "bc"]
    [[1, 0, 0, 0, 0x61], [2, 0, 0, 0, 0x62, 0x63]]
    [[1, 0, 0, 0, 0x61, 2, 0], [0, 0, 0x62], [0x63]]
    (by decide) (by decide) (by decide) (by decide)⟩

end AzooKey.Ipc

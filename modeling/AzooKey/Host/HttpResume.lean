import AzooKey.Host.HttpDownloader
import AzooKey.Lib.ParseNumber

/-!
# Resumed downloads

`inference-host/src/HttpDownloader.cpp`: what an earlier call has left in the part
file is never an obstacle. A part that is too short is continued; if it was not
the beginning of the file, the result has the length of the file, and the next
call is told that there is nothing to add, sees that the hash is wrong, and
fetches the file anew (`safe_downloadTwice`).

The server is honest: it answers a request with the file, and a range of it with
the rest of the file, with status 416 when there is none, or with the file when
it knows no ranges. It may send the body in any blocks.
-/

namespace AzooKey.Host.HttpDownloader

open Interactive Learning

/-- The header of a range from an offset to the end of a file. -/
def contentRangeText (offset size : ℕ) : WideText :=
  wide (utf8 "bytes ") ++ wide (decimalDigits offset) ++ 0x2d :: wide (decimalDigits (size - 1))
    ++ 0x2f :: wide (decimalDigits size)

/-- **What an honest server answers**, to a request without or with a range. -/
def HonestAnswer (file : Bytes) : Option ℕ → Response → Prop
  | none, response => response.status = 200 ∧ response.rest = file
  | some offset, response =>
    (response.status = 200 ∧ response.rest = file)
      ∨ (offset < file.length ∧ response.status = 206
        ∧ response.contentRange = some (contentRangeText offset file.length)
        ∧ response.rest = file.drop offset)
      ∨ (file.length ≤ offset ∧ response.status = 416)

/-- What is not read yet of the body. -/
def World.rest (s : World) : Bytes := (s.response.map Response.rest).getD []

/-- A part of the body is read. -/
def World.readTo (s : World) (rest : Bytes) : World :=
  { s with response := s.response.map (fun response => { response with rest }) }

/-- **What the operations do when nothing fails** and the server is honest. -/
def honest (file : Bytes) (components : UrlComponents) :
    (op : DownloadOp) → World → op.Answer → World → Prop
  | .cancelled, s, (stop : Bool), s' => stop = false ∧ s' = s
  | .networkAllowed, s, (allowed : Bool), s' => allowed = true ∧ s' = s
  | .isRegularFile target, s, (answer : Bool), s' => answer = (s.get target).isSome ∧ s' = s
  | .exists_ target, s, (answer : Except String Bool), s' =>
    answer = .ok (s.get target).isSome ∧ s' = s
  | .fileSize target, s, (answer : Except String ℕ), s' =>
    (∀ content, s.get target = some content → answer = .ok content.length) ∧ s' = s
  | .readForSha256 target, s, (answer : Except String Bytes), s' =>
    (∀ content, s.get target = some content → answer = .ok content) ∧ s' = s
  | .createDirectories _, s, (answer : Except String Unit), s' => answer = .ok () ∧ s' = s
  | .crackUrl _, s, (answer : Except ℕ UrlComponents), s' => answer = .ok components ∧ s' = s
  | .openSession _, s, (answer : Except ℕ Unit), s' => answer = .ok () ∧ s' = s
  | .connect _ _, s, (answer : Except ℕ Unit), s' => answer = .ok () ∧ s' = s
  | .openRequest _ _, s, (answer : Except ℕ Unit), s' =>
    answer = .ok () ∧ s' = { s with range := none, response := none }
  | .addRange offset, s, (answer : Except ℕ Unit), s' =>
    answer = .ok () ∧ s' = { s with range := some offset }
  | .sendRequest, s, (answer : Except ℕ Unit), s' => answer = .ok () ∧ s' = s
  | .receiveResponse, s, (answer : Except ℕ Unit), s' =>
    answer = .ok () ∧ ∃ response, HonestAnswer file s.range response
      ∧ s' = { s with response := some response }
  | .queryStatus, s, (answer : Except ℕ ℕ), s' =>
    (∀ response, s.response = some response → answer = .ok response.status) ∧ s' = s
  | .queryContentRange, s, (answer : Option WideText), s' =>
    answer = s.response.bind Response.contentRange ∧ s' = s
  | .createPart append, s, (answer : Except ℕ Unit), s' =>
    answer = .ok () ∧ s' = { s with part := some (if append then s.part.getD [] else []) }
  | .seekEnd, s, (answer : Except ℕ Unit), s' => answer = .ok () ∧ s' = s
  | .queryDataAvailable, s, (answer : Except ℕ ℕ), s' =>
    (∃ available, answer = .ok available ∧ available ≤ s.rest.length
      ∧ (available = 0 → s.rest = [])) ∧ s' = s
  | .readData requested, s, (answer : Except ℕ Bytes), s' =>
    ∃ block rest, answer = .ok block ∧ s.rest = block ++ rest ∧ block.length ≤ requested
      ∧ (block = [] → requested = 0 ∨ s.rest = []) ∧ s' = s.readTo rest
  | .writeFile bytes, s, (answer : Except ℕ Unit), s' =>
    answer = .ok () ∧ s' = { s with part := some (s.part.getD [] ++ bytes) }
  | .flushFileBuffers, s, (answer : Except ℕ Unit), s' => answer = .ok () ∧ s' = s
  | .moveFile, s, (answer : Except ℕ Unit), s' =>
    (∀ content, s.part = some content →
        answer = .ok () ∧ s' = { s with destination := some content, part := none })
      ∧ (s.part = none → answer = .error 2 ∧ s' = s)

/-- Two calls, of which the second is made when the first fails. -/
def downloadTwice (request : HttpDownloadRequest) : Program HttpDownloadResult := do
  let first ← download request
  if first.status = .failed then download request else pure first

/-- An address that is not refused. -/
structure UrlComponents.Usable (components : UrlComponents) : Prop where
  scheme : components.scheme ≠ .other
  hostName : components.hostName ≠ []
  secure : components.scheme = .http → isLoopback components.hostName = true

/-- **Every call is answered.** -/
theorem honest_total (file : Bytes) (components : UrlComponents) (op : DownloadOp) (s : World) :
    ∃ answer s', honest file components op s answer s' := by
  cases op with
  | cancelled => exact ⟨false, s, rfl, rfl⟩
  | networkAllowed => exact ⟨true, s, rfl, rfl⟩
  | isRegularFile target => exact ⟨_, s, rfl, rfl⟩
  | exists_ target => exact ⟨_, s, rfl, rfl⟩
  | fileSize target =>
    refine ⟨(.ok ((s.get target).getD []).length : Except String ℕ), s, fun content h => ?_, rfl⟩
    rw [h]
    rfl
  | readForSha256 target =>
    refine ⟨(.ok ((s.get target).getD []) : Except String Bytes), s, fun content h => ?_, rfl⟩
    rw [h]
    rfl
  | createDirectories path => exact ⟨_, s, rfl, rfl⟩
  | crackUrl url => exact ⟨_, s, rfl, rfl⟩
  | openSession loopback => exact ⟨_, s, rfl, rfl⟩
  | connect host port => exact ⟨_, s, rfl, rfl⟩
  | openRequest path secure => exact ⟨_, _, rfl, rfl⟩
  | addRange offset => exact ⟨_, _, rfl, rfl⟩
  | sendRequest => exact ⟨_, s, rfl, rfl⟩
  | receiveResponse =>
    refine ⟨_, _, rfl, ⟨200, none, file⟩, ?_, rfl⟩
    cases s.range with
    | none => exact ⟨rfl, rfl⟩
    | some offset => exact Or.inl ⟨rfl, rfl⟩
  | queryStatus =>
    refine ⟨(.ok ((s.response.map Response.status).getD 0) : Except ℕ ℕ), s, fun response h => ?_, rfl⟩
    rw [h]
    rfl
  | queryContentRange => exact ⟨_, s, rfl, rfl⟩
  | createPart append => exact ⟨_, _, rfl, rfl⟩
  | seekEnd => exact ⟨_, s, rfl, rfl⟩
  | queryDataAvailable =>
    exact ⟨_, s, ⟨s.rest.length, rfl, le_refl _, List.eq_nil_of_length_eq_zero⟩, rfl⟩
  | readData requested =>
    refine ⟨_, _, s.rest.take requested, s.rest.drop requested, rfl,
      (List.take_append_drop _ _).symm, List.length_take_le _ _, fun h => ?_, rfl⟩
    exact List.take_eq_nil_iff.mp h
  | writeFile bytes => exact ⟨_, _, rfl, rfl⟩
  | flushFileBuffers => exact ⟨_, s, rfl, rfl⟩
  | moveFile =>
    cases hpart : s.part with
    | none =>
      refine ⟨(.error 2 : Except ℕ Unit), s, fun content h => ?_, fun _ => ⟨rfl, rfl⟩⟩
      rw [hpart] at h
      cases h
    | some content =>
      refine ⟨(.ok () : Except ℕ Unit), { s with destination := some content, part := none },
        fun content' h => ?_, fun h => ?_⟩
      · rw [hpart] at h
        cases h
        exact ⟨rfl, rfl⟩
      · rw [hpart] at h
        cases h

/-! ## The header of a range -/

/-- A digit is not refused as long as the number fits. -/
theorem startDigit_wide {start : ℕ} {c : UInt8} (hc : isDigitByte c = true)
    (hfits : start * 10 + (c.toNat - 0x30) ≤ uint64Max) :
    startDigit start c.toUInt16 = some (start * 10 + (c.toNat - 0x30)) := by
  have hvalue : c.toUInt16.toNat = c.toNat := UInt8.toNat_toUInt16 c
  unfold isDigitByte at hc
  simp only [Bool.and_eq_true, decide_eq_true_eq, UInt8.le_iff_toNat_le] at hc
  have hlow : ¬ (c.toUInt16 < 0x30 ∨ 0x39 < c.toUInt16) := by
    rw [UInt16.lt_iff_toNat_lt, UInt16.lt_iff_toNat_lt, hvalue]
    exact not_or.mpr ⟨not_lt.mpr hc.1, not_lt.mpr hc.2⟩
  have hroom : ¬ (uint64Max - (c.toNat - 0x30)) / 10 < start := by
    rw [not_lt, Nat.le_div_iff_mul_le (by norm_num)]
    omega
  unfold startDigit
  rw [if_neg hlow]
  dsimp only
  rw [hvalue, if_neg hroom]

/-- **Digits of a number that fits are read.** -/
theorem foldlM_startDigit {digits : Bytes} (hdigits : ∀ c ∈ digits, isDigitByte c = true)
    (hfits : digitsValue digits ≤ uint64Max) :
    (wide digits).foldlM startDigit 0 = some (digitsValue digits) := by
  induction digits using List.reverseRecOn with
  | nil => rfl
  | append_singleton digits c ih =>
    have hvalue : digitsValue (digits ++ [c]) = digitsValue digits * 10 + (c.toNat - 0x30) := by
      rw [digitsValue_append]
      simp [digitsValue]
    rw [hvalue] at hfits ⊢
    have hrest := ih (fun d hd => hdigits d (List.mem_append_left _ hd)) (by omega)
    have hlast : (wide [c]).foldlM startDigit (digitsValue digits)
        = some (digitsValue digits * 10 + (c.toNat - 0x30)) := by
      show (startDigit _ c.toUInt16).bind _ = _
      rw [startDigit_wide (hdigits c (by simp)) hfits]
      rfl
    unfold wide at hrest hlast ⊢
    rw [List.map_append, List.foldlM_append, hrest]
    exact hlast

/-- **The header of a range starts where the range does.** -/
theorem contentRangeStartsAt_contentRangeText {offset : ℕ} (size : ℕ) (hoffset : offset ≤ uint64Max) :
    contentRangeStartsAt (contentRangeText offset size) offset = true := by
  have hdash : ∀ ch ∈ wide (decimalDigits offset), decide (ch ≠ 0x2d) = true := by
    intro ch hch
    obtain ⟨c, hc, rfl⟩ := List.mem_map.mp hch
    have hdigit := isDigitByte_of_mem_decimalDigits hc
    unfold isDigitByte at hdigit
    simp only [Bool.and_eq_true, decide_eq_true_eq, UInt8.le_iff_toNat_le] at hdigit
    refine decide_eq_true (fun heq => ?_)
    have hvalue : c.toNat = 0x2d := by rw [← UInt8.toNat_toUInt16 c, heq]; rfl
    rw [hvalue] at hdigit
    exact absurd hdigit.1 (by decide)
  have hdrop : (contentRangeText offset size).drop 6 = wide (decimalDigits offset)
      ++ 0x2d :: (wide (decimalDigits (size - 1)) ++ 0x2f :: wide (decimalDigits size)) := by
    unfold contentRangeText
    simp only [List.append_assoc]
    rfl
  have htake : ((contentRangeText offset size).drop 6).takeWhile (· ≠ 0x2d)
      = wide (decimalDigits offset) := by
    rw [hdrop, List.takeWhile_append_of_pos hdash, List.takeWhile_cons]
    simp
  have hbegins : (wide (utf8 "bytes ")).isPrefixOf (contentRangeText offset size) = true := by
    rw [List.isPrefixOf_iff_prefix]
    unfold contentRangeText
    simp only [List.append_assoc]
    exact List.prefix_append _ _
  unfold contentRangeStartsAt
  rw [if_pos hbegins]
  dsimp only
  rw [htake, hdrop, if_neg, foldlM_startDigit (fun c hc => isDigitByte_of_mem_decimalDigits hc)
    (by rw [digitsValue_decimalDigits]; exact hoffset), digitsValue_decimalDigits]
  · exact beq_self_eq_true _
  · rintro (h | h)
    · have hlength := congrArg List.length h
      simp at hlength
    · exact decimalDigits_ne_nil offset (List.map_eq_nil_iff.mp h)

/-! ## Calls that nothing stops -/

/-- A program that ends, with a value or with an error. -/
abbrev Ends (file : Bytes) (components : UrlComponents) {α : Type} (Q : α → World → Prop)
    (E : String → World → Prop) (p : Attempt α) (s : World) : Prop :=
  SafeOr (honest file components) (fun _ => True) Q E p s

/-- A callback that stops nothing. -/
def NeverStops (file : Bytes) (components : UrlComponents) (cancelled : Program Bool) : Prop :=
  ∀ s, Safe (honest file components) (fun _ => True) (fun stop s' => stop = false ∧ s' = s) cancelled s

section Honest

variable {file : Bytes} {components : UrlComponents} {expected : Bytes} {maxBytes : ℕ}
  {α ε : Type} {E : String → World → Prop} {s : World}

/-- An operation. -/
theorem safe_honest (op : DownloadOp) {Q : op.Answer → World → Prop}
    (h : ∀ answer s', honest file components op s answer s' → Q answer s') :
    Safe (honest file components) (fun _ => True) Q (ask op) s :=
  .ask trivial (fun answer s' heffect => ⟨trivial, h answer s' heffect⟩)

/-- The callback of a request. -/
theorem neverStops_isCancelled (request : HttpDownloadRequest) :
    NeverStops file components request.isCancelled := by
  intro s
  unfold HttpDownloadRequest.isCancelled
  split
  · exact safe_honest .cancelled (fun _ _ h => h)
  · exact .pure trivial ⟨rfl, rfl⟩

/-- The privacy mode. -/
theorem neverStops_networkDisabled (request : HttpDownloadRequest) :
    NeverStops file components request.networkDisabled := by
  intro s
  unfold HttpDownloadRequest.networkDisabled
  split
  · refine Safe.bind (Q := fun allowed s' => allowed = true ∧ s' = s)
      (safe_honest .networkAllowed (fun _ _ h => h)) (fun allowed s' _ h => ?_)
    obtain ⟨rfl, rfl⟩ := h
    exact .pure trivial ⟨rfl, rfl⟩
  · exact .pure trivial ⟨rfl, rfl⟩

/-- Both of them. -/
theorem neverStops_withNetworkPolicy (request : HttpDownloadRequest) :
    NeverStops file components request.withNetworkPolicy := by
  intro s
  unfold HttpDownloadRequest.withNetworkPolicy
  refine (neverStops_isCancelled request s).bind (fun stop s' _ h => ?_)
  obtain ⟨rfl, rfl⟩ := h
  exact neverStops_networkDisabled request s'

/-- Nobody stops. -/
theorem ends_checkCancelled {cancelled : Program Bool}
    (hc : NeverStops file components cancelled) :
    Ends file components (fun _ s' => s' = s) E (checkCancelled cancelled) s := by
  refine SafeOr.bind (.lift (hc s)) (fun stop s' _ h => ?_)
  obtain ⟨rfl, rfl⟩ := h
  exact .pure trivial rfl

/-- A call that succeeds. -/
theorem ends_call {tell : ε → String} {p : Program (Except ε α)} {Q : α → World → Prop}
    (h : Safe (honest file components) (fun _ => True) (fun r s' => ∃ a, r = .ok a ∧ Q a s') p s) :
    Ends file components Q E (orError tell p) s := by
  refine .mapError (h.imp (fun r s' _ h => ?_))
  obtain ⟨a, rfl, hQ⟩ := h
  exact hQ

/-- A call that succeeds and says nothing. -/
theorem ends_step {tell : ε → String} {p : Program (Except ε Unit)} {s₁ : World}
    (h : Safe (honest file components) (fun _ => True) (fun r s' => r = .ok () ∧ s' = s₁) p s) :
    Ends file components (fun _ s' => s' = s₁) E (orError tell p) s :=
  ends_call (h.imp (fun _ _ _ h => ⟨(), h⟩))

/-- The hash of a file is compared. -/
theorem ends_fileMatches (target : Target) {content : Bytes} (hcontent : s.get target = some content)
    {cancelled : Program Bool} (hc : NeverStops file components cancelled) :
    Ends file components (fun check s' => s' = s ∧ check = (sha256Hex content == expected, "")) E
      (ExceptT.lift (fileMatches target expected cancelled)) s := by
  refine SafeOr.lift ?_
  unfold fileMatches
  refine Safe.bind (Q := fun r s' => r = .ok (sha256Hex content) ∧ s' = s) ?_ (fun r s' _ h => ?_)
  · have hread : Ends file components (fun actual s' => actual = sha256Hex content ∧ s' = s)
        (fun _ _ => False) (sha256File target cancelled) s := by
      unfold sha256File
      refine (ends_checkCancelled hc).bind (fun _ s' _ h => ?_)
      subst h
      refine SafeOr.bind (Q := fun read s'' => read = content ∧ s'' = s')
        (.mk (safe_honest (.readForSha256 target) (fun answer s'' h => ?_)))
        (fun read s'' _ h => ?_)
      · obtain ⟨hanswer, hs⟩ := h
        rw [hanswer content hcontent]
        exact ⟨rfl, hs⟩
      · obtain ⟨rfl, rfl⟩ := h
        exact .pure trivial ⟨rfl, rfl⟩
    refine Safe.imp hread (fun r s' _ h => ?_)
    cases r with
    | ok actual => exact ⟨congrArg Except.ok h.1, h.2⟩
    | error e => exact h.elim
  · obtain ⟨rfl, rfl⟩ := h
    exact .pure trivial ⟨rfl, rfl⟩

/-- The size of the part file. -/
theorem ends_regularFileSize :
    Ends file components (fun size s' => s' = s ∧ size = (s.part.getD []).length) E
      (regularFileSize .part) s := by
  unfold regularFileSize
  refine SafeOr.bind (Q := fun there s' => there = s.part.isSome ∧ s' = s)
    (ends_call (safe_honest (.exists_ .part) (fun _ _ h => ⟨_, h.1, rfl, h.2⟩)))
    (fun there s' _ h => ?_)
  obtain ⟨rfl, rfl⟩ := h
  cases hpart : s'.part with
  | none => exact .pure trivial ⟨rfl, rfl⟩
  | some content =>
    refine SafeOr.bind (Q := fun regular s'' => regular = true ∧ s'' = s')
      (.lift (safe_honest (.isRegularFile .part) (fun answer s'' h => ?_)))
      (fun regular s'' _ h => ?_)
    · obtain ⟨hanswer, hs⟩ := h
      exact ⟨hanswer.trans (by show s'.part.isSome = true; rw [hpart]; rfl), hs⟩
    · obtain ⟨rfl, rfl⟩ := h
      exact ends_call (safe_honest (.fileSize .part) (fun _ _ h =>
        ⟨_, h.1 content hpart, h.2, rfl⟩))

/-- **The body is written**, in whatever blocks it comes. -/
theorem ends_readResponse {initialSize : ℕ} {cancelled : Program Bool}
    (hc : NeverStops file components cancelled) {received available : ℕ} {content : Bytes}
    (hpart : s.part = some content) (havailable : available ≤ s.rest.length)
    (hroom : initialSize + received + s.rest.length ≤ maxBytes) :
    Ends file components (fun _ s' => s'.destination = s.destination
        ∧ s'.part = some (content ++ s.rest)) E
      (readResponse initialSize maxBytes cancelled received available) s := by
  induction received, available using readResponse.induct initialSize maxBytes
    generalizing s content with
  | case1 received ih =>
    rw [readResponse, dif_pos rfl]
    refine (ends_checkCancelled hc).bind (fun _ s' _ h => ?_)
    subst h
    refine SafeOr.bind (Q := fun available s'' => s'' = s' ∧ available ≤ s'.rest.length
        ∧ (available = 0 → s'.rest = []))
      (ends_call (safe_honest .queryDataAvailable (fun answer s'' h => ?_)))
      (fun available s'' _ h => ?_)
    · obtain ⟨⟨available, hanswer, hle, hnil⟩, hs⟩ := h
      exact ⟨available, hanswer, hs, hle, hnil⟩
    obtain ⟨rfl, hle, hnil⟩ := h
    split
    · rename_i hn
      refine (ends_checkCancelled hc).bind (fun _ s' _ h => ?_)
      subst h
      refine .pure trivial ⟨rfl, ?_⟩
      rw [hnil hn, List.append_nil, hpart]
    · rename_i hn
      exact ih available hn hpart hle hroom
  | case2 received available hne ih =>
    rw [readResponse, dif_neg hne]
    refine (ends_checkCancelled hc).bind (fun _ s' _ h => ?_)
    subst h
    refine SafeOr.bind (Q := fun block s'' => ∃ rest, s'.rest = block ++ rest ∧ block ≠ []
        ∧ s'' = s'.readTo rest)
      (ends_call (safe_honest (.readData (min available 65536)) (fun answer s'' h => ?_)))
      (fun block s'' _ h => ?_)
    · obtain ⟨block, rest, hanswer, hsplit, -, hsome, hs⟩ := h
      refine ⟨block, hanswer, rest, hsplit, fun hnil => ?_, hs⟩
      rcases hsome hnil with hzero | hempty
      · omega
      · rw [hempty] at havailable
        exact hne (Nat.le_zero.mp havailable)
    obtain ⟨rest, hsplit, hblock, hs⟩ := h
    have hrest : s''.rest = rest := by
      rw [hs]
      cases hresponse : s'.response with
      | none =>
        unfold World.rest at hsplit
        rw [hresponse] at hsplit
        exact absurd (List.append_eq_nil_iff.mp hsplit.symm).1 hblock
      | some response => simp [World.rest, World.readTo, hresponse]
    have hpart'' : s''.part = some content := by rw [hs]; exact hpart
    have hdestination : s''.destination = s'.destination := by
      rw [hs]
      rfl
    clear hs
    have hlength := congrArg List.length hsplit
    rw [List.length_append] at hlength
    refine (ends_checkCancelled hc).bind (fun _ s₃ _ h => ?_)
    subst h
    rw [dif_neg hblock]
    split
    · rename_i hfull
      exact absurd hfull (by omega)
    rename_i hfits
    refine SafeOr.bind (Q := fun _ s₄ =>
      s₄ = { s₃ with part := some (s₃.part.getD [] ++ block) })
      (ends_step (safe_honest (.writeFile block) (fun _ _ h => h))) (fun _ s₄ _ h => ?_)
    subst h
    have hwritten : ({ s₃ with part := some (s₃.part.getD [] ++ block) } : World).part
        = some (content ++ block) := by
      rw [hpart'']
      rfl
    refine SafeOr.imp (ih block hblock hfits hwritten ?_ ?_)
      (fun _ s₅ _ h => ⟨h.1.trans hdestination, ?_⟩) (fun _ _ _ h => h)
    · show _ ≤ s₃.rest.length
      rw [hrest]
      omega
    · show _ + s₃.rest.length ≤ _
      rw [hrest]
      omega
    · rw [h.2, hsplit, List.append_assoc]
      show some (content ++ (block ++ s₃.rest)) = _
      rw [hrest]

/-- The verified part file becomes the destination. -/
theorem ends_promotePartFile {content : Bytes} (hpart : s.part = some content) :
    Ends file components (fun _ s' => s'.destination = some content) E promotePartFile s := by
  refine ends_call (safe_honest .moveFile (fun answer s' h => ?_))
  obtain ⟨hanswer, hs⟩ := h.1 content hpart
  exact ⟨(), hanswer, by rw [hs]⟩

/-- What the part file holds in the end. -/
def assembled (file : Bytes) (isPartial : Bool) (part : Option Bytes) : Bytes :=
  if isPartial then part.getD [] ++ file.drop (part.getD []).length else file

/-- **The body is received**, and promoted when it is the file. -/
theorem ends_receiveBody (hfile : file.length ≤ maxBytes) {cancelled : Program Bool}
    (hc : NeverStops file components cancelled) {resumeOffset : ℕ} {isPartial : Bool}
    (hrest : s.rest = if isPartial then file.drop resumeOffset else file)
    (hresume : isPartial = true → resumeOffset = (s.part.getD []).length
      ∧ resumeOffset < file.length) :
    Ends file components (fun result _ => result.status = .downloaded)
      (fun _ s' => s'.destination = s.destination
        ∧ s'.part = some (assembled file isPartial s.part)
        ∧ sha256Hex (assembled file isPartial s.part) ≠ expected)
      (receiveBody expected maxBytes resumeOffset isPartial cancelled) s := by
  unfold receiveBody
  refine (ends_checkCancelled hc).bind (fun _ s₁ _ h => ?_)
  subst h
  refine SafeOr.bind (Q := fun _ s₂ => s₂ = { s₁ with
    part := some (if isPartial then s₁.part.getD [] else []) }) ?_ (fun _ s₂ _ h => ?_)
  · unfold openPartFile
    refine SafeOr.bind (ends_step (safe_honest (.createPart isPartial) (fun _ _ h => h)))
      (fun _ s₂ _ h => ?_)
    subst h
    cases isPartial with
    | true => exact ends_step (safe_honest .seekEnd (fun _ _ h => h))
    | false => exact .pure trivial rfl
  subst h
  refine SafeOr.bind (Q := fun _ s₃ => s₃.destination = s₁.destination
    ∧ s₃.part = some (assembled file isPartial s₁.part)) ?_ (fun received s₃ _ h => ?_)
  · unfold readResponseToFile
    refine SafeOr.bind (ends_readResponse hc (s := { s₁ with
      part := some (if isPartial then s₁.part.getD [] else []) }) rfl (Nat.zero_le _) ?_)
      (fun received s₃ _ h => ?_)
    · show _ + 0 + s₁.rest.length ≤ maxBytes
      rw [hrest]
      cases isPartial with
      | true =>
        have hlt := (hresume rfl).2
        show resumeOffset + 0 + (file.drop resumeOffset).length ≤ maxBytes
        rw [List.length_drop]
        omega
      | false =>
        show 0 + 0 + file.length ≤ maxBytes
        omega
    · refine SafeOr.bind (ends_step (safe_honest .flushFileBuffers (fun _ _ h => h)))
        (fun _ s₄ _ heq => ?_)
      subst heq
      refine .pure trivial ⟨h.1, h.2.trans (congrArg some ?_)⟩
      show (if isPartial then s₁.part.getD [] else []) ++ s₁.rest = _
      rw [hrest]
      cases isPartial with
      | true =>
        unfold assembled
        rw [if_pos rfl, if_pos rfl, if_pos rfl, (hresume rfl).1]
      | false => rfl
  · obtain ⟨hdestination, hpart⟩ := h
    refine SafeOr.bind (ends_fileMatches .part hpart hc) (fun check s₄ _ h => ?_)
    obtain ⟨rfl, rfl⟩ := h
    dsimp only
    split
    · refine (ends_checkCancelled hc).bind (fun _ s₅ _ h => ?_)
      subst h
      exact SafeOr.bind (ends_promotePartFile hpart) (fun _ _ _ _ => .pure trivial rfl)
    · rename_i hne
      exact .throw trivial ⟨hdestination, hpart, fun heq => hne (by rw [heq, beq_self_eq_true])⟩

/-- What a call that fails leaves: the destination, and a part file as long as
the file. -/
def Stuck (file : Bytes) (destination : Option Bytes) (s : World) : Prop :=
  s.destination = destination ∧ ∃ content, s.part = some content ∧ content.length = file.length

/-- The body of an answer. It is the file, unless the part file was not the
beginning of it. -/
theorem ends_receiveAnswer (hhash : sha256Hex file = expected) (hfile : file.length ≤ maxBytes)
    (hbound : maxBytes ≤ uint64Max) {cancelled : Program Bool}
    (hc : NeverStops file components cancelled) {resumeOffset : ℕ} {response : Response}
    (hresponse : s.response = some response)
    (hanswer : HonestAnswer file (if 0 < resumeOffset then some resumeOffset else none) response)
    (hsatisfied : response.status ≠ 416)
    (hresume : 0 < resumeOffset → resumeOffset = (s.part.getD []).length) :
    Ends file components (fun result _ => result.status = .downloaded)
      (fun _ s' => 0 < resumeOffset ∧ resumeOffset < file.length ∧ Stuck file s.destination s')
      (receiveAnswer expected maxBytes resumeOffset response.status cancelled) s := by
  have hrest : s.rest = response.rest := by
    unfold World.rest
    rw [hresponse]
    rfl
  -- the whole file cannot have the wrong hash
  have hwhole : response.status = 200 → response.rest = file →
      Ends file components (fun result _ => result.status = .downloaded)
        (fun _ s' => 0 < resumeOffset ∧ resumeOffset < file.length ∧ Stuck file s.destination s')
        (receiveAnswer expected maxBytes resumeOffset response.status cancelled) s := by
    intro hstatus hbody
    unfold receiveAnswer
    rw [hstatus, if_neg (by decide), if_pos rfl]
    refine SafeOr.imp (ends_receiveBody hfile hc (by rw [hrest, hbody]; rfl)
      (fun h => absurd h Bool.false_ne_true)) (fun _ _ _ h => h) (fun _ _ _ h => ?_)
    exact absurd hhash h.2.2
  by_cases hpositive : 0 < resumeOffset
  · rw [if_pos hpositive] at hanswer
    rcases hanswer with ⟨hstatus, hbody⟩ | ⟨hlt, hstatus, hrange, hbody⟩ | ⟨-, hstatus⟩
    · exact hwhole hstatus hbody
    · unfold receiveAnswer
      rw [hstatus, if_pos rfl]
      refine SafeOr.bind (Q := fun contentRange s' =>
        contentRange = some (contentRangeText resumeOffset file.length) ∧ s' = s)
        (.lift (safe_honest .queryContentRange (fun answer s' h => ?_))) (fun contentRange s' _ h => ?_)
      · obtain ⟨hheader, hs⟩ := h
        refine ⟨hheader.trans ?_, hs⟩
        rw [hresponse]
        exact hrange
      obtain ⟨rfl, rfl⟩ := h
      have hstarts := contentRangeStartsAt_contentRangeText file.length
        (show resumeOffset ≤ uint64Max by omega)
      rw [if_pos ⟨hpositive, hstarts⟩]
      refine SafeOr.imp (ends_receiveBody hfile hc (by rw [hrest, hbody]; rfl)
        (fun _ => ⟨hresume hpositive, hlt⟩)) (fun _ _ _ h => h) (fun _ _ _ h => ?_)
      refine ⟨hpositive, hlt, h.1, _, h.2.1, ?_⟩
      unfold assembled
      rw [if_pos rfl, ← hresume hpositive, List.length_append, List.length_drop,
        ← hresume hpositive]
      omega
    · exact absurd hstatus hsatisfied
  · rw [if_neg hpositive] at hanswer
    exact hwhole hanswer.1 hanswer.2

/-- What an attempt comes to: the file, or another attempt after a range that
cannot be satisfied. -/
def Advances (attempt : ℕ) (s : World) (result : Option HttpDownloadResult) (s' : World) : Prop :=
  (∃ r, result = some r ∧ r.status = .downloaded)
    ∨ (result = none ∧ attempt = 0 ∧ s'.part = s.part ∧ s'.destination = s.destination)

/-- What follows the request. -/
theorem ends_answered (hhash : sha256Hex file = expected) (hfile : file.length ≤ maxBytes)
    (hbound : maxBytes ≤ uint64Max) {cancelled : Program Bool}
    (hc : NeverStops file components cancelled) {attempt resumeOffset : ℕ} {response : Response}
    (hresponse : s.response = some response)
    (hanswer : HonestAnswer file (if 0 < resumeOffset then some resumeOffset else none) response)
    (hresume : 0 < resumeOffset → attempt = 0 ∧ resumeOffset = (s.part.getD []).length) :
    Ends file components (Advances attempt s)
      (fun _ s' => 0 < resumeOffset ∧ resumeOffset < file.length ∧ Stuck file s.destination s')
      (answered expected maxBytes attempt resumeOffset cancelled) s := by
  unfold answered
  refine SafeOr.bind (Q := fun status s' => status = response.status ∧ s' = s)
    (ends_call (safe_honest .queryStatus (fun answer s' h =>
      ⟨response.status, h.1 response hresponse, rfl, h.2⟩))) (fun status s' _ h => ?_)
  obtain ⟨rfl, rfl⟩ := h
  by_cases hunsatisfied : response.status = 416 ∧ 0 < resumeOffset
  · rw [if_pos hunsatisfied]
    obtain ⟨hattempt, hoffset⟩ := hresume hunsatisfied.2
    obtain ⟨content, hpart⟩ : ∃ content, s'.part = some content := by
      cases hpart : s'.part with
      | none =>
        rw [hpart] at hoffset
        exact absurd hunsatisfied.2 (by rw [hoffset]; exact lt_irrefl 0)
      | some content => exact ⟨content, rfl⟩
    unfold promoteComplete
    refine SafeOr.bind (Q := fun promoted s'' => promoted = true ∨ (promoted = false ∧ s'' = s'))
      ?_ (fun promoted s'' _ h => ?_)
    · refine SafeOr.bind (ends_fileMatches .part hpart hc) (fun check s'' _ h => ?_)
      obtain ⟨rfl, rfl⟩ := h
      dsimp only
      split
      · refine (ends_checkCancelled hc).bind (fun _ s₅ _ h => ?_)
        subst h
        exact SafeOr.bind (ends_promotePartFile hpart) (fun _ _ _ _ => .pure trivial (Or.inl rfl))
      · exact .pure trivial (Or.inr ⟨rfl, rfl⟩)
    · rcases h with rfl | ⟨rfl, rfl⟩
      · rw [if_pos rfl]
        exact .pure trivial (Or.inl ⟨_, rfl, rfl⟩)
      · rw [if_neg Bool.false_ne_true, if_pos hattempt]
        exact .pure trivial (Or.inr ⟨rfl, hattempt, rfl, rfl⟩)
  · rw [if_neg hunsatisfied]
    have hsatisfied : response.status ≠ 416 := by
      intro hstatus
      by_cases hpositive : 0 < resumeOffset
      · exact hunsatisfied ⟨hstatus, hpositive⟩
      · rw [if_neg hpositive] at hanswer
        exact absurd (hanswer.1.symm.trans hstatus) (by decide)
    exact SafeOr.bind (ends_receiveAnswer hhash hfile hbound hc hresponse hanswer hsatisfied
      (fun h => (hresume h).2)) (fun r _ _ h => .pure trivial (Or.inl ⟨r, rfl, h⟩))

/-- **One attempt.** -/
theorem ends_tryOnce (hhash : sha256Hex file = expected) (hfile : file.length ≤ maxBytes)
    (hbound : maxBytes ≤ uint64Max) {cancelled : Program Bool}
    (hc : NeverStops file components cancelled) (parsed : ParsedUrl) (attempt : ℕ)
    (hsize : (s.part.getD []).length ≤ maxBytes) :
    Ends file components (Advances attempt s)
      (fun _ s' => attempt = 0 ∧ (s.part.getD []).length < file.length
        ∧ Stuck file s.destination s')
      (tryOnce parsed expected maxBytes attempt cancelled) s := by
  unfold tryOnce
  refine (ends_checkCancelled hc).bind (fun _ s₁ _ h => ?_)
  subst h
  refine SafeOr.bind ends_regularFileSize (fun size s₂ _ h => ?_)
  obtain ⟨rfl, rfl⟩ := h
  rw [if_neg (not_lt.mpr hsize)]
  dsimp only
  generalize hoffset : (if attempt = 0 then (s₂.part.getD []).length else 0) = resumeOffset
  have hresume : 0 < resumeOffset → attempt = 0 ∧ resumeOffset = (s₂.part.getD []).length := by
    intro hpositive
    rw [← hoffset] at hpositive ⊢
    split at hpositive
    · exact ⟨‹_›, if_pos ‹_›⟩
    · exact absurd hpositive (lt_irrefl 0)
  refine SafeOr.bind (ends_step (safe_honest (.openRequest _ _) (fun _ _ h => h)))
    (fun _ s₃ _ h => ?_)
  subst h
  refine (ends_checkCancelled hc).bind (fun _ s₃ _ h => ?_)
  subst h
  refine SafeOr.bind (Q := fun _ s' => s' = { s₂ with
    range := if 0 < resumeOffset then some resumeOffset else none, response := none })
    ?_ (fun _ s₃ _ h => ?_)
  · unfold addRange
    split
    · exact ends_step (safe_honest (.addRange _) (fun _ _ h => h))
    · exact .pure trivial rfl
  subst h
  refine SafeOr.bind (Q := fun _ s' => ∃ response,
    HonestAnswer file (if 0 < resumeOffset then some resumeOffset else none) response
      ∧ s'.response = some response ∧ s'.part = s₂.part ∧ s'.destination = s₂.destination)
    ?_ (fun _ s₃ _ h => ?_)
  · unfold sendGetRequest
    refine (ends_checkCancelled hc).bind (fun _ s₃ _ h => ?_)
    subst h
    refine SafeOr.bind (ends_step (safe_honest .sendRequest (fun _ _ h => h))) (fun _ s₃ _ h => ?_)
    subst h
    refine (ends_checkCancelled hc).bind (fun _ s₃ _ h => ?_)
    subst h
    refine SafeOr.bind (Q := fun _ s' => ∃ response,
      HonestAnswer file (if 0 < resumeOffset then some resumeOffset else none) response
        ∧ s' = ⟨s₂.destination, s₂.part,
          if 0 < resumeOffset then some resumeOffset else none, some response⟩)
      (ends_call (safe_honest .receiveResponse (fun _ _ h => ⟨(), h.1, h.2⟩))) (fun _ s₃ _ h => ?_)
    obtain ⟨response, hanswer, hs⟩ := h
    refine SafeOr.imp (ends_checkCancelled hc) (fun _ s₄ _ heq => ?_) (fun _ _ _ h => h)
    rw [heq, hs]
    exact ⟨response, hanswer, rfl, rfl, rfl⟩
  · obtain ⟨response, hanswer, hresponse, hpart, hdestination⟩ := h
    rw [← hpart] at hresume
    refine SafeOr.imp (ends_answered hhash hfile hbound hc hresponse hanswer hresume)
      (fun result s₄ _ h => ?_) (fun _ s₄ _ h => ?_)
    · rcases h with h | ⟨hnone, hattempt, hpart', hdestination'⟩
      · exact Or.inl h
      · exact Or.inr ⟨hnone, hattempt, hpart'.trans hpart, hdestination'.trans hdestination⟩
    · obtain ⟨hpositive, hlt, hstuck⟩ := h
      obtain ⟨hattempt, heq⟩ := hresume hpositive
      rw [← hdestination, ← hpart, ← heq]
      exact ⟨hattempt, hlt, hstuck⟩

/-- **Both attempts.** -/
theorem ends_attempts (hhash : sha256Hex file = expected) (hfile : file.length ≤ maxBytes)
    (hbound : maxBytes ≤ uint64Max) {cancelled : Program Bool}
    (hc : NeverStops file components cancelled) (parsed : ParsedUrl)
    (hsize : (s.part.getD []).length ≤ maxBytes) :
    Ends file components (fun result _ => result.status = .downloaded)
      (fun _ s' => (s.part.getD []).length < file.length ∧ Stuck file s.destination s')
      (attempts parsed expected maxBytes cancelled 2 0) s := by
  rw [attempts]
  refine SafeOr.bind (SafeOr.imp (ends_tryOnce hhash hfile hbound hc parsed 0 hsize)
    (fun _ _ _ h => h) (fun _ _ _ h => h.2)) (fun result s₁ _ h => ?_)
  rcases h with ⟨r, rfl, hstatus⟩ | ⟨rfl, -, hpart, hdestination⟩
  · exact .pure trivial hstatus
  · -- the second attempt asks for the whole file
    show Ends file components _ _ (attempts parsed expected maxBytes cancelled 1 1) s₁
    rw [attempts]
    refine SafeOr.bind (SafeOr.imp (ends_tryOnce hhash hfile hbound hc parsed 1
      (by rw [hpart]; exact hsize)) (fun _ _ _ h => h)
      (fun _ _ _ h => absurd h.1 (by decide))) (fun result s₂ _ h => ?_)
    rcases h with ⟨r, rfl, hstatus⟩ | ⟨-, hattempt, -⟩
    · exact .pure trivial hstatus
    · exact absurd hattempt (by decide)

/-- **From the network.** -/
theorem ends_downloadFromNetwork (husable : components.Usable) (request : HttpDownloadRequest)
    (hhash : sha256Hex file = request.expected) (hfile : file.length ≤ request.maxBytes.toNat)
    (hsize : (s.part.getD []).length ≤ request.maxBytes.toNat) :
    Ends file components (fun result _ => result.status = .downloaded)
      (fun _ s' => (s.part.getD []).length < file.length ∧ Stuck file s.destination s')
      (downloadFromNetwork request request.expected) s := by
  have hc : NeverStops file components request.withNetworkPolicy :=
    neverStops_withNetworkPolicy request
  have hbound : request.maxBytes.toNat ≤ uint64Max := Nat.le_sub_one_of_lt request.maxBytes.toNat_lt
  unfold downloadFromNetwork
  refine (ends_checkCancelled (neverStops_isCancelled request)).bind (fun _ s₁ _ h => ?_)
  subst h
  refine SafeOr.bind (.lift (neverStops_networkDisabled request s₁)) (fun disabled s₂ _ h => ?_)
  obtain ⟨rfl, rfl⟩ := h
  rw [if_neg Bool.false_ne_true]
  dsimp only
  refine SafeOr.bind (Q := fun _ s' => s' = s₂) ?_ (fun _ s₃ _ h => ?_)
  · unfold createParent
    split
    · exact ends_step (safe_honest (.createDirectories _) (fun _ _ h => h))
    · exact .pure trivial rfl
  subst h
  refine SafeOr.bind (Q := fun _ s' => s' = s₃) ?_ (fun parsed s₄ _ h => ?_)
  · unfold parseUrl
    refine SafeOr.bind (Q := fun answer s' => answer = components ∧ s' = s₃)
      (ends_call (safe_honest (.crackUrl _) (fun _ _ h => ⟨components, h.1, rfl, h.2⟩)))
      (fun answer s' _ h => ?_)
    obtain ⟨rfl, rfl⟩ := h
    unfold parsedUrl
    rw [if_neg husable.scheme, if_neg husable.hostName]
    dsimp only
    rw [if_neg]
    · exact .pure trivial rfl
    · rintro ⟨hhttp, hloopback⟩
      rw [husable.secure hhttp] at hloopback
      exact absurd hloopback (by decide)
  subst h
  refine (ends_checkCancelled hc).bind (fun _ s₅ _ h => ?_)
  subst h
  refine SafeOr.bind (ends_step (safe_honest (.openSession _) (fun _ _ h => h))) (fun _ s₆ _ h => ?_)
  subst h
  refine (ends_checkCancelled hc).bind (fun _ s₇ _ h => ?_)
  subst h
  refine SafeOr.bind (ends_step (safe_honest (.connect _ _) (fun _ _ h => h))) (fun _ s₈ _ h => ?_)
  subst h
  exact ends_attempts hhash hfile hbound hc parsed hsize

/-- The destination holds the expected file. -/
def Valid (expected : Bytes) (destination : Option Bytes) : Prop :=
  ∃ content, destination = some content ∧ sha256Hex content = expected

/-- What one call comes to. -/
def Outcome (file expected : Bytes) (s : World) (result : HttpDownloadResult) (s' : World) : Prop :=
  (Valid expected s.destination ∧ result.status = .alreadyValid)
    ∨ (¬ Valid expected s.destination
      ∧ (result.status = .downloaded ∨ (result.status = .failed
        ∧ (s.part.getD []).length < file.length ∧ Stuck file s.destination s')))

/-- **One call.** It fails only with a part file that was too short. -/
theorem safe_download_honest (husable : components.Usable) {request : HttpDownloadRequest}
    (hvalid : request.isValid = true) (hhash : sha256Hex file = request.expected)
    (hfile : file.length ≤ request.maxBytes.toNat)
    (hsize : (s.part.getD []).length ≤ request.maxBytes.toNat) :
    Safe (honest file components) (fun _ => True) (Outcome file request.expected s)
      (download request) s := by
  have hnetwork : ¬ Valid request.expected s.destination →
      Ends file components (Outcome file request.expected s)
        (fun _ s' => ¬ Valid request.expected s.destination
          ∧ (s.part.getD []).length < file.length ∧ Stuck file s.destination s')
        (downloadFromNetwork request request.expected) s :=
    fun hnot => SafeOr.imp (ends_downloadFromNetwork husable request hhash hfile hsize)
      (fun _ _ _ h => Or.inr ⟨hnot, Or.inl h⟩) (fun _ _ _ h => ⟨hnot, h⟩)
  unfold download
  refine Safe.bind (Q := OnResult (Outcome file request.expected s)
    (fun _ s' => ¬ Valid request.expected s.destination
      ∧ (s.part.getD []).length < file.length ∧ Stuck file s.destination s')) ?_ (fun r s' _ h => ?_)
  · show Ends file components _ _ (downloadOrError request) s
    unfold downloadOrError
    rw [if_pos hvalid]
    refine (ends_checkCancelled (neverStops_isCancelled request)).bind (fun _ s₁ _ h => ?_)
    subst h
    refine SafeOr.bind (Q := fun regular s' => regular = s₁.destination.isSome ∧ s' = s₁)
      (.lift (safe_honest (.isRegularFile .destination) (fun _ _ h => h)))
      (fun regular s₂ _ h => ?_)
    obtain ⟨rfl, rfl⟩ := h
    by_cases hthere : s₂.destination.isSome = true
    · rw [if_pos hthere]
      obtain ⟨content, hdestination⟩ := Option.isSome_iff_exists.mp hthere
      have hiff : Valid request.expected s₂.destination ↔ sha256Hex content = request.expected := by
        constructor
        · rintro ⟨content', hcontent, h⟩
          rw [Option.some.inj (hdestination.symm.trans hcontent)]
          exact h
        · exact fun h => ⟨content, hdestination, h⟩
      refine SafeOr.bind (ends_fileMatches .destination hdestination
        (neverStops_isCancelled request)) (fun check s₃ _ h => ?_)
      obtain ⟨rfl, rfl⟩ := h
      dsimp only
      split
      · rename_i hmatch
        refine (ends_checkCancelled (neverStops_isCancelled request)).bind (fun _ s₄ _ h => ?_)
        subst h
        exact .pure trivial (Or.inl ⟨hiff.mpr (eq_of_beq hmatch), rfl⟩)
      · rename_i hmatch
        exact hnetwork (fun h => hmatch (by rw [hiff.mp h, beq_self_eq_true]))
    · rw [if_neg hthere]
      refine hnetwork ?_
      rintro ⟨content, hcontent, -⟩
      rw [hcontent] at hthere
      exact hthere rfl
  · cases r with
    | ok result => exact .pure trivial h
    | error message => exact .pure trivial (Or.inr ⟨h.1, Or.inr ⟨rfl, h.2⟩⟩)

/-- **Two calls.** A destination that is not valid is downloaded, whatever the part
file holds. -/
theorem safe_downloadTwice (husable : components.Usable) {request : HttpDownloadRequest}
    (hvalid : request.isValid = true) (hhash : sha256Hex file = request.expected)
    (hfile : file.length ≤ request.maxBytes.toNat)
    (hsize : (s.part.getD []).length ≤ request.maxBytes.toNat) :
    Safe (honest file components) (fun _ => True) (fun result _ =>
        (Valid request.expected s.destination ∧ result.status = .alreadyValid)
          ∨ (¬ Valid request.expected s.destination ∧ result.status = .downloaded))
      (downloadTwice request) s := by
  unfold downloadTwice
  refine Safe.bind (safe_download_honest husable hvalid hhash hfile hsize) (fun first s₁ _ h => ?_)
  rcases h with ⟨hthere, hstatus⟩ | ⟨hnot, hstatus | ⟨hstatus, -, hdestination, content, hpart, hlength⟩⟩
  · rw [if_neg (by rw [hstatus]; decide)]
    exact .pure trivial (Or.inl ⟨hthere, hstatus⟩)
  · rw [if_neg (by rw [hstatus]; decide)]
    exact .pure trivial (Or.inr ⟨hnot, hstatus⟩)
  · -- the part file has the length of the file now
    rw [if_pos hstatus]
    have hsize' : (s₁.part.getD []).length = file.length := by
      rw [hpart]
      exact hlength
    refine Safe.imp (safe_download_honest husable hvalid hhash hfile (by rw [hsize']; exact hfile))
      (fun second s₂ _ h => ?_)
    rw [← hdestination] at hnot ⊢
    rcases h with ⟨hthere, -⟩ | ⟨-, hdone | ⟨-, hshort, -⟩⟩
    · exact absurd hthere hnot
    · exact Or.inr ⟨hnot, hdone⟩
    · exact absurd hshort (by rw [hsize']; exact lt_irrefl _)

end Honest

/-! ## The results -/

/-- **`Download` is safe, and no part file is in its way.** Under any server and any
failure the destination is as it was or holds a verified content, and a call that
fails has left it alone. Under an honest server and without failures two calls
download the file, whatever the part file holds, unless it is there already. -/
theorem download_correct (request : HttpDownloadRequest) :
    (∀ s trace r, Runs mayFail (download request) s trace r →
      (∀ s' ∈ trace, Guarded s.destination request.expected request.maxBytes.toNat s')
        ∧ ∀ result, r = some result → result.status = .failed →
          ∀ last, trace.getLast? = some last → last.destination = s.destination)
    ∧ (request.isValid = true → ∀ file components, components.Usable →
      sha256Hex file = request.expected → file.length ≤ request.maxBytes.toNat →
      ∀ s : World, (s.part.getD []).length ≤ request.maxBytes.toNat →
        (∃ trace result, Runs (honest file components) (downloadTwice request) s trace (some result))
          ∧ ∀ trace result,
            Runs (honest file components) (downloadTwice request) s trace (some result) →
              (Valid request.expected s.destination → result.status = .alreadyValid)
                ∧ (¬ Valid request.expected s.destination → result.status = .downloaded)) := by
  constructor
  · intro s trace r hruns
    have hsafe := (safe_download rfl request).runs hruns
    refine ⟨hsafe.1, fun result hresult hfailed last hlast => ?_⟩
    obtain ⟨last', hlast', h⟩ := hsafe.2 result hresult
    obtain rfl := Option.some.inj (hlast.symm.trans hlast')
    rcases h with ⟨hstatus, -⟩ | ⟨-, h⟩
    · rw [hfailed] at hstatus
      cases hstatus
    · exact h
  · intro hvalid file components husable hhash hfile s hsize
    refine ⟨exists_runs (honest_total file components) _ s, fun trace result hruns => ?_⟩
    obtain ⟨-, -, h⟩ := ((safe_downloadTwice husable hvalid hhash hfile hsize).runs hruns).2 result rfl
    rcases h with ⟨hthere, hstatus⟩ | ⟨hnot, hstatus⟩
    · exact ⟨fun _ => hstatus, fun hnot => absurd hthere hnot⟩
    · exact ⟨fun hthere => absurd hthere hnot, fun _ => hstatus⟩

/-- A request for the text of the first test of SHA-256. -/
def abcRequest : HttpDownloadRequest where
  url := wide (utf8 "https://localhost/abc")
  destination := wide (utf8 "abc")
  expectedSha256 := utf8 "BA7816BF8F01CFEA414140DE5DAE2223B00361A396177A9CB410FF61F20015AD"
  maxBytes := 3

/-- Its address. -/
def abcComponents : UrlComponents where
  scheme := .https
  hostName := wide (utf8 "localhost")
  urlPath := wide (utf8 "/abc")
  extraInfo := []
  port := 443

/-- The address is not refused. -/
theorem usable_abcComponents : abcComponents.Usable :=
  ⟨by decide, by decide, fun h => absurd h (by decide)⟩

/-- The request is well formed, and asks for the text. -/
theorem abcRequest_spec : abcRequest.isValid = true
    ∧ sha256Hex (utf8 "abc") = abcRequest.expected := by
  decide +kernel

/-- A destination that is the file already is not downloaded, by any number of
calls. -/
theorem not_downloaded_valid :
    ¬ ∀ (request : HttpDownloadRequest) (file : Bytes) (components : UrlComponents) (s : World),
      request.isValid = true → components.Usable → sha256Hex file = request.expected →
      file.length ≤ request.maxBytes.toNat → (s.part.getD []).length ≤ request.maxBytes.toNat →
      ∀ trace result, Runs (honest file components) (downloadTwice request) s trace (some result) →
        result.status = .downloaded := by
  intro h
  have hsize : (utf8 "abc").length ≤ abcRequest.maxBytes.toNat := by decide
  obtain ⟨trace, result, hruns⟩ := exists_runs (honest_total (utf8 "abc") abcComponents)
    (downloadTwice abcRequest) ⟨some (utf8 "abc"), none, none, none⟩
  have hdownloaded := h abcRequest (utf8 "abc") abcComponents _ abcRequest_spec.1
    usable_abcComponents abcRequest_spec.2 hsize (Nat.zero_le _) trace result hruns
  obtain ⟨-, -, hresult⟩ := ((safe_downloadTwice usable_abcComponents abcRequest_spec.1
    abcRequest_spec.2 hsize (Nat.zero_le _)).runs hruns).2 result rfl
  rcases hresult with ⟨-, hstatus⟩ | ⟨hnot, -⟩
  · rw [hdownloaded] at hstatus
    cases hstatus
  · exact hnot ⟨_, rfl, abcRequest_spec.2⟩

/-- A part file of another file is no obstacle. -/
theorem download_correct_abc :
    ∃ trace result, Runs (honest (utf8 "abc") abcComponents) (downloadTwice abcRequest)
      ⟨none, some (utf8 "zz"), none, none⟩ trace (some result) ∧ result.status = .downloaded := by
  obtain ⟨⟨trace, result, hruns⟩, hall⟩ := (download_correct abcRequest).2 abcRequest_spec.1
    (utf8 "abc") abcComponents usable_abcComponents abcRequest_spec.2 (by decide)
    ⟨none, some (utf8 "zz"), none, none⟩ (by decide)
  refine ⟨trace, result, hruns, (hall trace result hruns).2 ?_⟩
  rintro ⟨content, hcontent, -⟩
  cases hcontent

end AzooKey.Host.HttpDownloader

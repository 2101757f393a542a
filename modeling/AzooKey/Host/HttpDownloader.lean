import AzooKey.Learning.Sha256
import AzooKey.Lib.Failing

/-!
# Verified downloads

`inference-host/src/HttpDownloader.cpp`: `Download` writes what the server sends
to `<destination>.part`, and renames that file to the destination when it has the
expected SHA-256. A part file that an earlier call has left is resumed with a
`Range` header.

The functions are programs over the two files and a connection. Every operation
may fail, the server may answer anything, the callbacks may change their minds,
and an operation on the part file that fails may leave anything in it. A rename
is atomic. The progress callback, the timeouts and the bytes of an open handle
that no operation reads are not modelled, and no other process touches the files.
-/

namespace AzooKey.Host.HttpDownloader

open Interactive Learning

/-- A wide text, in code units. -/
abbrev WideText := List UInt16

/-- An ASCII text as a wide text. -/
def wide (text : Bytes) : WideText := text.map UInt8.toUInt16

/-- The files of a download. -/
inductive Target
  | destination | part
deriving DecidableEq

/-- What a server has answered: the status, a header, and what is not read yet
of the body. -/
structure Response where
  status : ℕ
  contentRange : Option WideText
  rest : Bytes

/-- **The files, and the request in flight.** -/
structure World where
  destination : Option Bytes
  part : Option Bytes
  range : Option ℕ := none
  response : Option Response := none

/-- What a file holds. -/
def World.get (s : World) : Target → Option Bytes
  | .destination => s.destination
  | .part => s.part

/-- `HttpDownloadRequest`. The parent is `destination.parent_path()`; a callback
may be missing. -/
structure HttpDownloadRequest where
  url : WideText
  destination : WideText
  parent : WideText := []
  expectedSha256 : Bytes
  maxBytes : UInt64
  hasCancelled : Bool := false
  hasNetworkAllowed : Bool := false

/-- `HttpDownloadStatus`. -/
inductive HttpDownloadStatus
  | downloaded | alreadyValid | failed
deriving DecidableEq

/-- `HttpDownloadResult`. -/
structure HttpDownloadResult where
  status : HttpDownloadStatus := .failed
  resumed : Bool := false
  bytesReceived : ℕ := 0
  error : Option String := none

/-- `Failure`. -/
def failure (message : String) : HttpDownloadResult := { error := some message }

/-- The schemes that are told apart. -/
inductive Scheme
  | http | https | other
deriving DecidableEq

/-- `URL_COMPONENTS`. -/
structure UrlComponents where
  scheme : Scheme
  hostName : WideText
  urlPath : WideText
  extraInfo : WideText
  port : UInt16

/-- `ParsedUrl`. -/
structure ParsedUrl where
  host : WideText
  path : WideText
  port : UInt16
  secure : Bool
  loopback : Bool

/-- The operations. -/
inductive DownloadOp
  /-- `request.cancelled`. -/
  | cancelled
  /-- `request.network_allowed`. -/
  | networkAllowed
  /-- `is_regular_file`. -/
  | isRegularFile (target : Target)
  /-- `exists`. -/
  | exists_ (target : Target)
  /-- `file_size`. -/
  | fileSize (target : Target)
  /-- The loop of `Sha256File`: the whole file, or what has stopped it. -/
  | readForSha256 (target : Target)
  /-- `create_directories`. -/
  | createDirectories (path : WideText)
  /-- `WinHttpCrackUrl`. -/
  | crackUrl (url : WideText)
  /-- `OpenHttpSession`. -/
  | openSession (loopback : Bool)
  /-- `WinHttpConnect`. -/
  | connect (host : WideText) (port : UInt16)
  /-- `WinHttpOpenRequest`. -/
  | openRequest (path : WideText) (secure : Bool)
  /-- `WinHttpAddRequestHeaders` of `Range: bytes=<offset>-`. -/
  | addRange (offset : ℕ)
  /-- `WinHttpSendRequest`. -/
  | sendRequest
  /-- `WinHttpReceiveResponse`. -/
  | receiveResponse
  /-- `WinHttpQueryHeaders` of the status. -/
  | queryStatus
  /-- `QueryHeader` of `Content-Range`. -/
  | queryContentRange
  /-- `CreateFileW` of the part file, for appending or anew. -/
  | createPart (append : Bool)
  /-- `SetFilePointerEx` to the end of the part file. -/
  | seekEnd
  /-- `WinHttpQueryDataAvailable`. -/
  | queryDataAvailable
  /-- `WinHttpReadData`. -/
  | readData (requested : ℕ)
  /-- `WriteFile`. -/
  | writeFile (bytes : Bytes)
  /-- `FlushFileBuffers`. -/
  | flushFileBuffers
  /-- `MoveFileExW` of the part file to the destination. -/
  | moveFile

/-- What an operation answers. An error is a Windows error, or a text. -/
def DownloadOp.Answer : DownloadOp → Type
  | .cancelled | .networkAllowed | .isRegularFile _ => Bool
  | .exists_ _ => Except String Bool
  | .fileSize _ => Except String ℕ
  | .readForSha256 _ => Except String Bytes
  | .createDirectories _ => Except String Unit
  | .crackUrl _ => Except ℕ UrlComponents
  | .openSession _ | .connect _ _ | .openRequest _ _ | .addRange _ | .sendRequest
  | .receiveResponse | .createPart _ | .seekEnd | .writeFile _ | .flushFileBuffers
  | .moveFile => Except ℕ Unit
  | .queryStatus | .queryDataAvailable => Except ℕ ℕ
  | .queryContentRange => Option WideText
  | .readData _ => Except ℕ Bytes

/-- A program over the files and a connection. -/
abbrev Program := Interactive DownloadOp DownloadOp.Answer

/-- One that may fail with a message. -/
abbrev Attempt := Failing DownloadOp DownloadOp.Answer String

/-! ## The calls -/

/-- `request.cancelled`. -/
def cancelledCallback : Program Bool := ask DownloadOp.cancelled

/-- `request.network_allowed`. -/
def networkAllowedCallback : Program Bool := ask DownloadOp.networkAllowed

/-- `is_regular_file`. -/
def isRegularFile (target : Target) : Program Bool := ask (DownloadOp.isRegularFile target)

/-- `exists`. -/
def fileExists (target : Target) : Program (Except String Bool) := ask (DownloadOp.exists_ target)

/-- `file_size`. -/
def fileSize (target : Target) : Program (Except String ℕ) := ask (DownloadOp.fileSize target)

/-- The loop of `Sha256File`. -/
def readForSha256 (target : Target) : Program (Except String Bytes) :=
  ask (DownloadOp.readForSha256 target)

/-- `create_directories`. -/
def createDirectories (path : WideText) : Program (Except String Unit) :=
  ask (DownloadOp.createDirectories path)

/-- `WinHttpCrackUrl`. -/
def winHttpCrackUrl (url : WideText) : Program (Except ℕ UrlComponents) :=
  ask (DownloadOp.crackUrl url)

/-- `OpenHttpSession`. -/
def openHttpSession (loopback : Bool) : Program (Except ℕ Unit) :=
  ask (DownloadOp.openSession loopback)

/-- `WinHttpConnect`. -/
def winHttpConnect (host : WideText) (port : UInt16) : Program (Except ℕ Unit) :=
  ask (DownloadOp.connect host port)

/-- `WinHttpOpenRequest`. -/
def winHttpOpenRequest (path : WideText) (secure : Bool) : Program (Except ℕ Unit) :=
  ask (DownloadOp.openRequest path secure)

/-- `WinHttpAddRequestHeaders` of the range. -/
def winHttpAddRange (offset : ℕ) : Program (Except ℕ Unit) := ask (DownloadOp.addRange offset)

/-- `WinHttpSendRequest`. -/
def winHttpSendRequest : Program (Except ℕ Unit) := ask DownloadOp.sendRequest

/-- `WinHttpReceiveResponse`. -/
def winHttpReceiveResponse : Program (Except ℕ Unit) := ask DownloadOp.receiveResponse

/-- `WinHttpQueryHeaders` of the status. -/
def queryStatusNumber : Program (Except ℕ ℕ) := ask DownloadOp.queryStatus

/-- `QueryHeader` of `Content-Range`. -/
def queryContentRange : Program (Option WideText) := ask DownloadOp.queryContentRange

/-- `CreateFileW` of the part file. -/
def createPart (append : Bool) : Program (Except ℕ Unit) := ask (DownloadOp.createPart append)

/-- `SetFilePointerEx`. -/
def seekEnd : Program (Except ℕ Unit) := ask DownloadOp.seekEnd

/-- `WinHttpQueryDataAvailable`. -/
def winHttpQueryDataAvailable : Program (Except ℕ ℕ) := ask DownloadOp.queryDataAvailable

/-- `WinHttpReadData`. -/
def winHttpReadData (requested : ℕ) : Program (Except ℕ Bytes) :=
  ask (DownloadOp.readData requested)

/-- `WriteFile`. -/
def writeFile (bytes : Bytes) : Program (Except ℕ Unit) := ask (DownloadOp.writeFile bytes)

/-- `FlushFileBuffers`. -/
def flushFileBuffers : Program (Except ℕ Unit) := ask DownloadOp.flushFileBuffers

/-- `MoveFileExW`. -/
def moveFile : Program (Except ℕ Unit) := ask DownloadOp.moveFile

/-! ## The functions -/

/-- `WindowsError`. -/
def windowsError (operation : String) (error : ℕ) : String :=
  operation ++ " failed (Windows error " ++ toString error ++ ")"

/-- A call whose error is told with a text. -/
def orError {α ε : Type} (tell : ε → String) (p : Program (Except ε α)) : Attempt α :=
  ExceptT.mk (Except.mapError tell <$> p)

/-- A Windows call. -/
def orWindowsError {α : Type} (operation : String) (p : Program (Except ℕ α)) : Attempt α :=
  orError (windowsError operation) p

/-- `CheckCancelled`. -/
def checkCancelled (cancelled : Program Bool) : Attempt Unit := do
  if ← ExceptT.lift cancelled then throw "HTTP request cancelled" else pure ()

/-- `request.cancelled`, which may be missing. -/
def HttpDownloadRequest.isCancelled (request : HttpDownloadRequest) : Program Bool :=
  if request.hasCancelled then cancelledCallback else pure false

/-- `NetworkDisabled`. -/
def HttpDownloadRequest.networkDisabled (request : HttpDownloadRequest) : Program Bool :=
  if request.hasNetworkAllowed then
    networkAllowedCallback >>= fun allowed => pure (!allowed)
  else pure false

/-- `WithNetworkPolicy`. -/
def HttpDownloadRequest.withNetworkPolicy (request : HttpDownloadRequest) : Program Bool := do
  if ← request.isCancelled then pure true else request.networkDisabled

/-- `IsValidSha256`. -/
def isValidSha256 (value : Bytes) : Bool :=
  value.length = 64 && value.all (fun ch => (0x30 ≤ ch && ch ≤ 0x39) || (0x41 ≤ ch && ch ≤ 0x46)
    || (0x61 ≤ ch && ch ≤ 0x66))

/-- `LowerAscii`. -/
def lowerAscii (value : Bytes) : Bytes :=
  value.map (fun ch => if 0x41 ≤ ch ∧ ch ≤ 0x5a then ch + 0x20 else ch)

/-- `Sha256File`. -/
def sha256File (target : Target) (cancelled : Program Bool) : Attempt Bytes := do
  checkCancelled cancelled
  let content : Bytes ← ExceptT.mk (readForSha256 target)
  pure (sha256Hex content)

/-- **`FileMatches`**, with its error. -/
def fileMatches (target : Target) (expected : Bytes) (cancelled : Program Bool) :
    Program (Bool × String) := do
  match ← (sha256File target cancelled).run with
  | .ok actual => pure (actual == expected, "")
  | .error hashError => pure (false, hashError)

/-- `RegularFileSize`. -/
def regularFileSize (target : Target) : Attempt ℕ := do
  if ← orError (fun text => "probing file failed: " ++ text) (fileExists target) then
    let regular : Bool ← ExceptT.lift (isRegularFile target)
    if regular then
      orError (fun text => "reading download file size failed: " ++ text)
        (fileSize target)
    else throw "download path is not a regular file"
  else pure 0

/-- `towlower` of the C locale. -/
def toWideLower (ch : UInt16) : UInt16 := if 0x41 ≤ ch ∧ ch ≤ 0x5a then ch + 0x20 else ch

/-- The hosts of this machine. -/
def isLoopback (host : WideText) : Bool :=
  [wide (utf8 "localhost"), wide (utf8 "127.0.0.1"), wide (utf8 "::1"), wide (utf8 "[::1]")].contains
    (host.map toWideLower)

/-- What `ParseUrl` makes of the components. -/
def parsedUrl (components : UrlComponents) : Attempt ParsedUrl :=
  if components.scheme = .other then throw "download URL must use HTTP or HTTPS"
  else if components.hostName = [] then throw "download URL has no host"
  else
    let loopback := isLoopback components.hostName
    if components.scheme = .http ∧ !loopback then
      throw "cleartext HTTP downloads are only allowed for loopback tests"
    else
      pure
        { host := components.hostName
          path := (if components.urlPath = [] then wide (utf8 "/") else components.urlPath)
            ++ components.extraInfo
          port := components.port
          secure := components.scheme = .https
          loopback }

/-- `ParseUrl`. -/
def parseUrl (url : WideText) : Attempt ParsedUrl := do
  let components ← orWindowsError "parsing download URL" (winHttpCrackUrl url)
  parsedUrl components

/-- The largest number of 64 bits. -/
def uint64Max : ℕ := 2 ^ 64 - 1

/-- A digit of the start of a range. -/
def startDigit (start : ℕ) (ch : UInt16) : Option ℕ :=
  if ch < 0x30 ∨ 0x39 < ch then none
  else
    let digit := ch.toNat - 0x30
    if (uint64Max - digit) / 10 < start then none else some (start * 10 + digit)

/-- **`ContentRangeStartsAt`.** -/
def contentRangeStartsAt (value : WideText) (expected : ℕ) : Bool :=
  if (wide (utf8 "bytes ")).isPrefixOf value then
    let range := value.drop 6
    let digits := range.takeWhile (· ≠ 0x2d)
    if digits = range ∨ digits = [] then false else digits.foldlM startDigit 0 == some expected
  else false

/-- `OpenPartFile`. -/
def openPartFile (append : Bool) : Attempt Unit := do
  orWindowsError "opening partial download" (createPart append)
  if append then orWindowsError "seeking partial download" seekEnd else pure ()

/-- `SendGetRequest`. -/
def sendGetRequest (cancelled : Program Bool) : Attempt Unit := do
  checkCancelled cancelled
  orWindowsError "sending HTTP request" winHttpSendRequest
  checkCancelled cancelled
  orWindowsError "receiving HTTP response" winHttpReceiveResponse
  checkCancelled cancelled

/-- **`ReadResponse`**, with the sink of `ReadResponseToFile`: it asks how much is
available, and reads that in blocks. -/
def readResponse (initialSize maxBytes : ℕ) (cancelled : Program Bool) (received available : ℕ) :
    Attempt ℕ :=
  if _h : available = 0 then do
    checkCancelled cancelled
    let available : ℕ ← orWindowsError "querying HTTP response data"
      winHttpQueryDataAvailable
    if _hn : available = 0 then do
      checkCancelled cancelled
      pure received
    else readResponse initialSize maxBytes cancelled received available
  else do
    checkCancelled cancelled
    let block : Bytes ← orWindowsError "reading HTTP response"
      (winHttpReadData (min available 65536))
    checkCancelled cancelled
    if _hread : block = [] then throw "HTTP response ended before the advertised data was read"
    else if _hroom : maxBytes < initialSize ∨ maxBytes - initialSize < received
        ∨ maxBytes - initialSize - received < block.length then
      throw "HTTP response exceeds the configured maximum size"
    else do
      orWindowsError "writing partial download" (writeFile block)
      readResponse initialSize maxBytes cancelled (received + block.length)
        (available - block.length)
termination_by (maxBytes - initialSize - received, if available = 0 then 1 else 0)
decreasing_by
  · rw [_h, if_pos rfl, if_neg _hn]
    exact Prod.Lex.right _ (by norm_num)
  · refine Prod.Lex.left _ _ ?_
    have hpos := List.length_pos_iff.mpr _hread
    omega

/-- `ReadResponseToFile`. -/
def readResponseToFile (initialSize maxBytes : ℕ) (cancelled : Program Bool) : Attempt ℕ := do
  let received ← readResponse initialSize maxBytes cancelled 0 0
  orWindowsError "flushing partial download" flushFileBuffers
  pure received

/-- `PromotePartFile`. -/
def promotePartFile : Attempt Unit :=
  orWindowsError "promoting verified download" moveFile

/-- A part file that the server has nothing to add to: it is promoted when it is
the file, and says whether it was. -/
def promoteComplete (expected : Bytes) (cancelled : Program Bool) : Attempt Bool := do
  let check ← ExceptT.lift (fileMatches .part expected cancelled)
  if check.1 then do
    checkCancelled cancelled
    promotePartFile
    pure true
  else pure false

/-- The end of a download: the body is written, checked and promoted. -/
def receiveBody (expected : Bytes) (maxBytes resumeOffset : ℕ) (isPartial : Bool)
    (cancelled : Program Bool) : Attempt HttpDownloadResult := do
  checkCancelled cancelled
  openPartFile isPartial
  let received ← readResponseToFile (if isPartial then resumeOffset else 0) maxBytes cancelled
  let check ← ExceptT.lift (fileMatches .part expected cancelled)
  if check.1 then do
    checkCancelled cancelled
    promotePartFile
    pure { status := .downloaded, resumed := isPartial, bytesReceived := received }
  else
    throw (if check.2 = "" then "downloaded file SHA256 does not match expected value" else check.2)

/-- The answer of the server, but for a range that it cannot satisfy. -/
def receiveAnswer (expected : Bytes) (maxBytes resumeOffset status : ℕ) (cancelled : Program Bool) :
    Attempt HttpDownloadResult :=
  if status = 206 then do
    let contentRange : Option WideText ← ExceptT.lift queryContentRange
    if 0 < resumeOffset ∧ contentRange.any (contentRangeStartsAt · resumeOffset) then
      receiveBody expected maxBytes resumeOffset true cancelled
    else throw "HTTP partial response has an invalid Content-Range"
  else if status = 200 then receiveBody expected maxBytes resumeOffset false cancelled
  else throw ("HTTP download failed with status " ++ toString status)

/-- What follows the request of an attempt. There is no result when the next
attempt is to be made. -/
def answered (expected : Bytes) (maxBytes attempt resumeOffset : ℕ) (cancelled : Program Bool) :
    Attempt (Option HttpDownloadResult) := do
  let status : ℕ ← orWindowsError "reading HTTP status" queryStatusNumber
  if status = 416 ∧ 0 < resumeOffset then do
    if ← promoteComplete expected cancelled then
      pure (some { status := .downloaded, resumed := true })
    else if attempt = 0 then pure none
    else some <$> receiveAnswer expected maxBytes resumeOffset status cancelled
  else some <$> receiveAnswer expected maxBytes resumeOffset status cancelled

/-- The `Range` header, when there is something to resume. -/
def addRange (resumeOffset : ℕ) : Attempt Unit :=
  if 0 < resumeOffset then
    orWindowsError "adding HTTP Range header" (winHttpAddRange resumeOffset)
  else pure ()

/-- **One attempt.** -/
def tryOnce (parsed : ParsedUrl) (expected : Bytes) (maxBytes attempt : ℕ)
    (cancelled : Program Bool) : Attempt (Option HttpDownloadResult) := do
  checkCancelled cancelled
  let partSize ← regularFileSize .part
  if maxBytes < partSize then throw "partial download exceeds the configured maximum size"
  else do
    let resumeOffset := if attempt = 0 then partSize else 0
    orWindowsError "opening HTTP request" (winHttpOpenRequest parsed.path parsed.secure)
    checkCancelled cancelled
    addRange resumeOffset
    sendGetRequest cancelled
    answered expected maxBytes attempt resumeOffset cancelled

/-- The loop of `Download`, with the attempts that are left. -/
def attempts (parsed : ParsedUrl) (expected : Bytes) (maxBytes : ℕ) (cancelled : Program Bool) :
    ℕ → ℕ → Attempt HttpDownloadResult
  | 0, _ => throw "HTTP resume could not be restarted"
  | left + 1, attempt => do
    match ← tryOnce parsed expected maxBytes attempt cancelled with
    | some result => pure result
    | none => attempts parsed expected maxBytes cancelled left (attempt + 1)

/-- The directory of the destination. -/
def createParent (request : HttpDownloadRequest) : Attempt Unit :=
  if request.parent ≠ [] then
    orError (fun text => "creating download directory failed: " ++ text)
      (createDirectories request.parent)
  else pure ()

/-- `Download`, once the destination is known not to be the file. -/
def downloadFromNetwork (request : HttpDownloadRequest) (expected : Bytes) :
    Attempt HttpDownloadResult := do
  checkCancelled request.isCancelled
  if ← ExceptT.lift request.networkDisabled then throw "network disabled by privacy mode"
  else do
    let cancelled := request.withNetworkPolicy
    createParent request
    let parsed ← parseUrl request.url
    checkCancelled cancelled
    orWindowsError "opening WinHTTP session" (openHttpSession parsed.loopback)
    checkCancelled cancelled
    orWindowsError "opening WinHTTP connection" (winHttpConnect parsed.host parsed.port)
    attempts parsed expected request.maxBytes.toNat cancelled 2 0

/-- The fields of a request that are checked. -/
def HttpDownloadRequest.isValid (request : HttpDownloadRequest) : Bool :=
  request.url ≠ [] && request.destination ≠ [] && request.maxBytes ≠ 0
    && isValidSha256 request.expectedSha256

/-- The hash that the file must have. -/
def HttpDownloadRequest.expected (request : HttpDownloadRequest) : Bytes :=
  lowerAscii request.expectedSha256

/-- `Download`, with an error for each failure. -/
def downloadOrError (request : HttpDownloadRequest) : Attempt HttpDownloadResult := do
  if request.isValid then do
    checkCancelled request.isCancelled
    let regular : Bool ← ExceptT.lift (isRegularFile .destination)
    if regular then do
      let check ← ExceptT.lift (fileMatches .destination request.expected request.isCancelled)
      if check.1 then do
        checkCancelled request.isCancelled
        pure { status := .alreadyValid }
      else downloadFromNetwork request request.expected
    else downloadFromNetwork request request.expected
  else
    throw "download request requires an HTTP URL, destination, 64-character SHA256, and max_bytes"

/-- **`Download`.** -/
def download (request : HttpDownloadRequest) : Program HttpDownloadResult := do
  match ← (downloadOrError request).run with
  | .ok result => pure result
  | .error message => pure (failure message)

/-! ## What the operations do when anything may fail -/

/-- What follows from an answer, and what from an error. -/
def Told {ε α : Type} (ok : α → Prop) (error : Prop) : Except ε α → Prop
  | .ok a => ok a
  | .error _ => error

/-- The part file holds something else, or is gone. -/
def World.PartMayChange (s s' : World) : Prop := ∃ part, s' = { s with part }

/-- **What the operations do when anything may fail.** The connection is not
looked at: the server may answer anything. What is no regular file may be there
and be something else. -/
def mayFail : (op : DownloadOp) → World → op.Answer → World → Prop
  | .cancelled, s, (_ : Bool), s' => s' = s
  | .networkAllowed, s, (_ : Bool), s' => s' = s
  | .isRegularFile target, s, (answer : Bool), s' =>
    s' = s ∧ (answer = true → (s.get target).isSome = true)
  | .exists_ target, s, (answer : Except String Bool), s' =>
    s' = s ∧ Told (fun there => there = false → s.get target = none) True answer
  | .fileSize target, s, (answer : Except String ℕ), s' =>
    s' = s ∧ Told (fun size => ∃ content, s.get target = some content ∧ size = content.length) True
      answer
  | .readForSha256 target, s, (answer : Except String Bytes), s' =>
    s' = s ∧ Told (fun content => s.get target = some content) True answer
  | .createDirectories _, s, (_ : Except String Unit), s' => s' = s
  | .crackUrl _, s, (_ : Except ℕ UrlComponents), s' => s' = s
  | .openSession _, s, (_ : Except ℕ Unit), s' => s' = s
  | .connect _ _, s, (_ : Except ℕ Unit), s' => s' = s
  | .openRequest _ _, s, (_ : Except ℕ Unit), s' => s' = s
  | .addRange _, s, (_ : Except ℕ Unit), s' => s' = s
  | .sendRequest, s, (_ : Except ℕ Unit), s' => s' = s
  | .receiveResponse, s, (_ : Except ℕ Unit), s' => s' = s
  | .queryStatus, s, (_ : Except ℕ ℕ), s' => s' = s
  | .queryContentRange, s, (_ : Option WideText), s' => s' = s
  | .createPart append, s, (answer : Except ℕ Unit), s' =>
    Told (fun _ => s' = { s with part := some (if append then s.part.getD [] else []) })
      (s.PartMayChange s') answer
  | .seekEnd, s, (_ : Except ℕ Unit), s' => s' = s
  | .queryDataAvailable, s, (_ : Except ℕ ℕ), s' => s' = s
  | .readData requested, s, (answer : Except ℕ Bytes), s' =>
    s' = s ∧ Told (fun block => block.length ≤ requested) True answer
  | .writeFile bytes, s, (answer : Except ℕ Unit), s' =>
    Told (fun _ => ∃ content, s.part = some content ∧ s' = { s with part := some (content ++ bytes) })
      (s.PartMayChange s') answer
  | .flushFileBuffers, s, (answer : Except ℕ Unit), s' =>
    Told (fun _ => s' = s) (s.PartMayChange s') answer
  | .moveFile, s, (answer : Except ℕ Unit), s' =>
    Told (fun _ => ∃ content, s.part = some content
      ∧ s' = { s with destination := some content, part := none }) (s' = s) answer

/-! ## Safety -/

/-- A content that is the file, as far as the hash tells, and within the bound. -/
def Verified (expected : Bytes) (maxBytes : ℕ) (content : Bytes) : Prop :=
  sha256Hex content = expected ∧ content.length ≤ maxBytes

/-- The destination is as it was, or holds a verified content. -/
def Guarded (before : Option Bytes) (expected : Bytes) (maxBytes : ℕ) (s : World) : Prop :=
  s.destination = before
    ∨ ∃ content, s.destination = some content ∧ Verified expected maxBytes content

section Safety

variable {before : Option Bytes} {expected : Bytes} {maxBytes : ℕ} {α ε : Type} {s : World}
  {I : World → Prop}

/-- An operation that changes nothing. -/
theorem safe_ask (op : DownloadOp) (hop : ∀ answer s', mayFail op s answer s' → s' = s) (hI : I s) :
    Safe mayFail I (fun _ s' => s' = s) (ask op) s :=
  .ask hI (fun answer s' h => by
    obtain rfl := hop answer s' h
    exact ⟨hI, rfl⟩)

/-- A program that asks and changes nothing. -/
def Asks (p : Program Bool) : Prop :=
  ∀ {I : World → Prop} {s : World}, I s → Safe mayFail I (fun _ s' => s' = s) p s

/-- The callback changes nothing. -/
theorem asks_isCancelled (request : HttpDownloadRequest) : Asks request.isCancelled := by
  intro I s hI
  unfold HttpDownloadRequest.isCancelled
  by_cases hcallback : request.hasCancelled = true
  · rw [if_pos hcallback]
    exact safe_ask .cancelled (fun _ _ h => h) hI
  · rw [if_neg hcallback]
    exact .pure hI rfl

/-- So does the other. -/
theorem asks_networkDisabled (request : HttpDownloadRequest) : Asks request.networkDisabled := by
  intro I s hI
  unfold HttpDownloadRequest.networkDisabled
  by_cases hcallback : request.hasNetworkAllowed = true
  · rw [if_pos hcallback]
    exact Safe.bind (safe_ask .networkAllowed (fun _ _ h => h) hI) (fun _ s' hI' h => .pure hI' h)
  · rw [if_neg hcallback]
    exact .pure hI rfl

/-- And both of them. -/
theorem asks_withNetworkPolicy (request : HttpDownloadRequest) :
    Asks request.withNetworkPolicy := by
  intro I s hI
  unfold HttpDownloadRequest.withNetworkPolicy
  refine (asks_isCancelled request hI).bind (fun cancelled s' hI' h => ?_)
  subst h
  split
  · exact .pure hI' rfl
  · exact asks_networkDisabled request hI'

/-- **A program that leaves the destination**, unless it puts a verified content
there; it fails only before that. -/
abbrev Leaves (before : Option Bytes) (expected : Bytes) (maxBytes : ℕ) (Q : α → World → Prop)
    (p : Attempt α) (s : World) : Prop :=
  SafeOr mayFail (Guarded before expected maxBytes) Q (fun _ s' => s'.destination = before) p s

variable (hs : s.destination = before)

include hs

/-- Whether to stop. -/
theorem leaves_checkCancelled {cancelled : Program Bool} (hc : Asks cancelled) :
    Leaves before expected maxBytes (fun _ s' => s' = s) (checkCancelled cancelled) s := by
  refine (SafeOr.lift (hc (Or.inl hs))).bind (fun stop s' hI h => ?_)
  subst h
  split
  · exact .throw hI hs
  · exact .pure hI rfl

/-- A call that changes nothing. -/
theorem leaves_call {tell : ε → String} {p : Program (Except ε α)}
    (h : Safe mayFail (Guarded before expected maxBytes) (fun _ s' => s' = s) p s) :
    Leaves before expected maxBytes (fun _ s' => s' = s) (orError tell p) s := by
  refine .mapError (h.imp (fun r s' _ h => ?_))
  subst h
  cases r with
  | ok a => exact rfl
  | error e => exact hs

/-- A call that may change the part file. -/
theorem leaves_call_part {tell : ε → String} {p : Program (Except ε α)} {Q : α → World → Prop}
    (h : Safe mayFail (Guarded before expected maxBytes)
      (OnResult Q (fun _ s' => s.PartMayChange s')) p s) :
    Leaves before expected maxBytes Q (orError tell p) s := by
  refine .mapError (h.imp (fun r s' _ h => ?_))
  cases r with
  | ok a => exact h
  | error e =>
    obtain ⟨part, rfl⟩ := h
    exact hs

/-- A file is read for its hash. -/
theorem leaves_fileMatches (target : Target) {cancelled : Program Bool} (hc : Asks cancelled)
    (expected' : Bytes) :
    Leaves before expected maxBytes (fun check s' => s' = s
      ∧ (check.1 = true → ∃ content, s.get target = some content ∧ sha256Hex content = expected'))
      (ExceptT.lift (fileMatches target expected' cancelled)) s := by
  refine SafeOr.lift ?_
  unfold fileMatches sha256File
  refine Safe.bind (Q := OnResult (fun actual s' => s' = s
    ∧ ∃ content, s.get target = some content ∧ sha256Hex content = actual) (fun _ s' => s' = s))
    ?_ (fun r s' hI h => ?_)
  · refine Safe.imp (Q := OnResult (fun actual s' => s' = s
      ∧ ∃ content, s.get target = some content ∧ sha256Hex content = actual)
      (fun _ s' => s' = s)) ?_ (fun _ _ _ h => h)
    refine SafeOr.bind (Q := fun _ s' => s' = s) ?_ (fun _ s' hI h => ?_)
    · refine (SafeOr.lift (hc (Or.inl hs))).bind (fun stop s' hI h => ?_)
      split
      · exact .throw hI h
      · exact .pure hI h
    subst h
    refine SafeOr.bind (Q := fun content s'' => s'' = s' ∧ s'.get target = some content)
      (.mk (.ask hI (fun (answer : Except String Bytes) s''
        (h : s'' = s' ∧ Told (fun content => s'.get target = some content) True answer) => ?_)))
      (fun content s'' hI h => ?_)
    · obtain ⟨rfl, h⟩ := h
      refine ⟨hI, ?_⟩
      cases answer with
      | ok content => exact ⟨rfl, h⟩
      | error e => exact rfl
    · obtain ⟨rfl, h⟩ := h
      exact .pure hI ⟨rfl, content, h, rfl⟩
  · cases r with
    | ok actual =>
      obtain ⟨rfl, content, hcontent, hactual⟩ := h
      exact .pure hI ⟨rfl, fun heq => ⟨content, hcontent, hactual.trans (eq_of_beq heq)⟩⟩
    | error e =>
      subst h
      exact .pure hI ⟨rfl, fun heq => absurd heq Bool.false_ne_true⟩

/-- The size of the part file is known, or there is none. -/
theorem leaves_regularFileSize (target : Target) :
    Leaves before expected maxBytes
      (fun size s' => s' = s ∧ ((s.get target).getD []).length = size)
      (regularFileSize target) s := by
  unfold regularFileSize
  refine SafeOr.bind (Q := fun there s' => s' = s ∧ (there = false → s.get target = none))
    (.mapError (.ask (Or.inl hs) (fun (answer : Except String Bool) s'
      (h : s' = s ∧ Told (fun there => there = false → s.get target = none) True answer) => ?_)))
    (fun there s' hI h => ?_)
  · obtain ⟨rfl, h⟩ := h
    refine ⟨Or.inl hs, ?_⟩
    cases answer with
    | ok there => exact ⟨rfl, h⟩
    | error e => exact hs
  obtain ⟨rfl, hnone⟩ := h
  split
  · refine SafeOr.bind (Q := fun _ s'' => s'' = s')
      (.lift (safe_ask (.isRegularFile target) (fun _ _ h => h.1) hI)) (fun regular s'' hI h => ?_)
    subst h
    split
    · refine .mapError (.ask hI (fun (answer : Except String ℕ) s' (h : s' = s''
        ∧ Told (fun size => ∃ content, s''.get target = some content ∧ size = content.length) True
          answer) => ?_))
      obtain ⟨rfl, h⟩ := h
      refine ⟨hI, ?_⟩
      cases answer with
      | ok size =>
        obtain ⟨content, hcontent, rfl⟩ := h
        exact ⟨rfl, by rw [hcontent]; rfl⟩
      | error e => exact hs
    · exact .throw hI hs
  · rename_i hthere
    refine .pure hI ⟨rfl, ?_⟩
    rw [hnone (Bool.eq_false_iff.mpr hthere)]
    rfl

/-- The part file is opened: for appending as it is, and otherwise anew. -/
theorem leaves_openPartFile (append : Bool) :
    Leaves before expected maxBytes (fun _ s' => s'.destination = before
      ∧ s'.part = some (if append then s.part.getD [] else [])) (openPartFile append) s := by
  unfold openPartFile
  refine SafeOr.bind (Q := fun _ s' => s'.destination = before
      ∧ s'.part = some (if append then s.part.getD [] else []))
    (leaves_call_part hs (.ask (Or.inl hs) (fun (answer : Except ℕ Unit) s'
      (h : Told (fun _ => s' = { s with part := some (if append then s.part.getD [] else []) })
        (s.PartMayChange s') answer) => ?_))) (fun _ s' hI h => ?_)
  · cases answer with
    | ok _ =>
      obtain rfl : s' = _ := h
      exact ⟨Or.inl hs, hs, rfl⟩
    | error e =>
      obtain ⟨part, rfl⟩ := h
      exact ⟨Or.inl hs, part, rfl⟩
  cases append with
  | true =>
    refine (leaves_call h.1 (safe_ask .seekEnd (fun _ _ h => h) hI)).imp
      (fun _ s'' _ heq => ?_) (fun _ _ _ h => h)
    subst heq
    exact h
  | false => exact .pure hI h

/-- What is read and written fits into the bound. -/
theorem leaves_readResponse {initialSize : ℕ} {cancelled : Program Bool} (hc : Asks cancelled)
    {start : Bytes} {received available : ℕ} {body : Bytes}
    (hpart : s.part = some (start ++ body)) (hbody : body.length = received)
    (hroom : initialSize + received ≤ maxBytes) :
    Leaves before expected maxBytes (fun received' s' => s'.destination = before
        ∧ ∃ body', s'.part = some (start ++ body') ∧ body'.length = received'
          ∧ initialSize + received' ≤ maxBytes)
      (readResponse initialSize maxBytes cancelled received available) s := by
  induction received, available using readResponse.induct initialSize maxBytes generalizing s body with
  | case1 received ih =>
    rw [readResponse, dif_pos rfl]
    refine (leaves_checkCancelled hs hc).bind (fun _ s' hI h => ?_)
    subst h
    refine (leaves_call hs (safe_ask .queryDataAvailable (fun _ _ h => h) hI)).bind
      (fun available s' hI h => ?_)
    subst h
    split
    · refine (leaves_checkCancelled hs hc).bind (fun _ s' hI h => ?_)
      subst h
      exact .pure hI ⟨hs, body, hpart, hbody, hroom⟩
    · rename_i hn
      exact ih available hn hs hpart hbody hroom
  | case2 received available havailable ih =>
    rw [readResponse, dif_neg havailable]
    refine (leaves_checkCancelled hs hc).bind (fun _ s' hI h => ?_)
    subst h
    refine (leaves_call hs (safe_ask (.readData _) (fun _ _ h => h.1) hI)).bind
      (fun block s' hI h => ?_)
    subst h
    refine (leaves_checkCancelled hs hc).bind (fun _ s' hI h => ?_)
    subst h
    split
    · exact .throw hI hs
    rename_i hread
    split
    · exact .throw hI hs
    rename_i hfits
    refine SafeOr.bind (Q := fun _ s'' => s''.destination = before
      ∧ s''.part = some (start ++ (body ++ block))) (leaves_call_part hs (.ask hI
        (fun (answer : Except ℕ Unit) s'' (h : Told (fun _ => ∃ content, s'.part = some content
          ∧ s'' = { s' with part := some (content ++ block) }) (s'.PartMayChange s'') answer) => ?_)))
      (fun _ s'' hI h => ?_)
    · cases answer with
      | ok _ =>
        obtain ⟨content, hcontent, rfl⟩ := h
        rw [hpart] at hcontent
        rw [← Option.some.inj hcontent, List.append_assoc]
        exact ⟨Or.inl hs, hs, rfl⟩
      | error e =>
        obtain ⟨part, rfl⟩ := h
        exact ⟨Or.inl hs, part, rfl⟩
    · refine ih block hread hfits h.1 h.2 ?_ ?_
      · rw [List.length_append, hbody]
      · omega

/-- So is what is flushed. -/
theorem leaves_readResponseToFile {initialSize : ℕ} {cancelled : Program Bool}
    (hc : Asks cancelled) {start : Bytes} (hpart : s.part = some start)
    (hroom : initialSize ≤ maxBytes) :
    Leaves before expected maxBytes (fun received s' => s'.destination = before
        ∧ ∃ body, s'.part = some (start ++ body) ∧ body.length = received
          ∧ initialSize + received ≤ maxBytes)
      (readResponseToFile initialSize maxBytes cancelled) s := by
  unfold readResponseToFile
  have hempty : s.part = some (start ++ []) := by rw [hpart, List.append_nil]
  refine (leaves_readResponse hs hc hempty rfl hroom).bind
    (fun received s' hI h => ?_)
  refine SafeOr.bind (Q := fun _ s'' => s'' = s') (leaves_call_part h.1 (.ask hI
    (fun (answer : Except ℕ Unit) s'' (h' : Told (fun _ => s'' = s') (s'.PartMayChange s'') answer) =>
      ?_))) (fun _ s'' hI heq => ?_)
  · cases answer with
    | ok _ =>
      obtain rfl : s'' = s' := h'
      exact ⟨hI, rfl⟩
    | error e =>
      obtain ⟨part, rfl⟩ := h'
      exact ⟨hI, part, rfl⟩
  · subst heq
    exact .pure hI h

/-- **Only a verified part file is promoted.** -/
theorem leaves_promotePartFile {content : Bytes} (hpart : s.part = some content)
    (hverified : Verified expected maxBytes content) :
    Leaves before expected maxBytes
      (fun _ s' => ∃ content, s'.destination = some content ∧ Verified expected maxBytes content)
      promotePartFile s := by
  refine .mapError (.ask (Or.inl hs) (fun (answer : Except ℕ Unit) s' (h : Told (fun _ =>
    ∃ content, s.part = some content ∧ s' = { s with destination := some content, part := none })
    (s' = s) answer) => ?_))
  cases answer with
  | ok _ =>
    obtain ⟨content', hcontent, rfl⟩ := h
    rw [hpart] at hcontent
    obtain rfl := Option.some.inj hcontent
    exact ⟨Or.inr ⟨_, rfl, hverified⟩, content, rfl, hverified⟩
  | error e =>
    obtain rfl : s' = s := h
    exact ⟨Or.inl hs, hs⟩

/-- A part file to which nothing is added. -/
theorem leaves_promoteComplete {cancelled : Program Bool} (hc : Asks cancelled)
    (hsize : (s.part.getD []).length ≤ maxBytes) :
    Leaves before expected maxBytes (fun promoted s' => (promoted = false ∧ s' = s)
        ∨ (promoted = true ∧ ∃ content, s'.destination = some content
          ∧ Verified expected maxBytes content))
      (promoteComplete expected cancelled) s := by
  unfold promoteComplete
  refine (leaves_fileMatches hs .part hc expected).bind (fun check s' hI h => ?_)
  obtain ⟨rfl, hmatch⟩ := h
  split
  · rename_i hcheck
    obtain ⟨content, hpart, hhash⟩ := hmatch hcheck
    have hpart : s'.part = some content := hpart
    rw [hpart] at hsize
    refine (leaves_checkCancelled hs hc).bind (fun _ s'' hI h => ?_)
    subst h
    refine (leaves_promotePartFile hs hpart ⟨hhash, hsize⟩).bind (fun _ s' hI h => ?_)
    exact .pure hI (Or.inr ⟨rfl, h⟩)
  · exact .pure hI (Or.inl ⟨rfl, rfl⟩)

/-- **A body is promoted when it is verified.** -/
theorem leaves_receiveBody {cancelled : Program Bool} (hc : Asks cancelled) {resumeOffset : ℕ}
    {isPartial : Bool} (hresume : isPartial = true → (s.part.getD []).length = resumeOffset)
    (hroom : resumeOffset ≤ maxBytes) :
    Leaves before expected maxBytes (fun result s' => result.status = .downloaded
        ∧ ∃ content, s'.destination = some content ∧ Verified expected maxBytes content)
      (receiveBody expected maxBytes resumeOffset isPartial cancelled) s := by
  unfold receiveBody
  refine (leaves_checkCancelled hs hc).bind (fun _ s₁ hI h => ?_)
  subst h
  refine (leaves_openPartFile hs isPartial).bind (fun _ s₂ hI h => ?_)
  obtain ⟨hs₂, hpart⟩ := h
  have hlength : (if isPartial then s₁.part.getD [] else []).length
      = if isPartial then resumeOffset else 0 := by
    cases isPartial with
    | true => exact hresume rfl
    | false => rfl
  have hinitial : (if isPartial then resumeOffset else 0) ≤ maxBytes := by
    split
    · exact hroom
    · exact Nat.zero_le _
  refine (leaves_readResponseToFile hs₂ hc hpart hinitial).bind (fun received s₃ hI h => ?_)
  obtain ⟨hs₃, body, hpart₃, hbody, hfits⟩ := h
  refine (leaves_fileMatches hs₃ .part hc expected).bind (fun check s₄ hI h => ?_)
  obtain ⟨rfl, hmatch⟩ := h
  split
  · rename_i hcheck
    obtain ⟨content, hcontent, hhash⟩ := hmatch hcheck
    have hcontent : s₄.part = some content := hcontent
    have hsize : content.length ≤ maxBytes := by
      rw [← Option.some.inj (hpart₃.symm.trans hcontent), List.length_append, hlength, hbody]
      exact hfits
    refine (leaves_checkCancelled hs₃ hc).bind (fun _ s₅ hI h => ?_)
    subst h
    refine (leaves_promotePartFile hs₃ hcontent ⟨hhash, hsize⟩).bind
      (fun _ s₆ hI h => ?_)
    exact .pure hI ⟨rfl, h⟩
  · exact .throw hI hs₃

/-- An answer of the server. -/
theorem leaves_receiveAnswer {cancelled : Program Bool} (hc : Asks cancelled)
    {resumeOffset status : ℕ} (hresume : 0 < resumeOffset → (s.part.getD []).length = resumeOffset)
    (hroom : resumeOffset ≤ maxBytes) :
    Leaves before expected maxBytes (fun result s' => result.status = .downloaded
        ∧ ∃ content, s'.destination = some content ∧ Verified expected maxBytes content)
      (receiveAnswer expected maxBytes resumeOffset status cancelled) s := by
  unfold receiveAnswer
  split
  · refine SafeOr.bind (Q := fun _ s' => s' = s)
      (.lift (safe_ask .queryContentRange (fun _ _ h => h) (Or.inl hs))) (fun _ s' hI h => ?_)
    subst h
    split
    · rename_i hpositive
      exact leaves_receiveBody hs hc (fun _ => hresume hpositive.1) hroom
    · exact .throw hI hs
  · split
    · exact leaves_receiveBody hs hc (fun h => absurd h Bool.false_ne_true) hroom
    · exact .throw (Or.inl hs) hs

/-- What an attempt leaves: a verified destination, or everything for the next. -/
def AttemptDone (before : Option Bytes) (expected : Bytes) (maxBytes : ℕ)
    (result : Option HttpDownloadResult) (s : World) : Prop :=
  (result = none ∧ s.destination = before)
    ∨ ∃ r, result = some r ∧ r.status = .downloaded
      ∧ ∃ content, s.destination = some content ∧ Verified expected maxBytes content

/-- What follows the request. -/
theorem leaves_answered {cancelled : Program Bool} (hc : Asks cancelled)
    {attempt resumeOffset : ℕ} (hsize : (s.part.getD []).length ≤ maxBytes)
    (hresume : 0 < resumeOffset → (s.part.getD []).length = resumeOffset)
    (hroom : resumeOffset ≤ maxBytes) :
    Leaves before expected maxBytes (AttemptDone before expected maxBytes)
      (answered expected maxBytes attempt resumeOffset cancelled) s := by
  have hanswer : ∀ (status : ℕ) {s' : World}, s'.destination = before →
      (0 < resumeOffset → (s'.part.getD []).length = resumeOffset) →
      Leaves before expected maxBytes (AttemptDone before expected maxBytes)
        (some <$> receiveAnswer expected maxBytes resumeOffset status cancelled) s' := by
    intro status s' hs' hresume'
    refine SafeOr.bind (leaves_receiveAnswer hs' hc hresume' hroom) (fun r s'' hI h => ?_)
    exact .pure hI (Or.inr ⟨r, rfl, h⟩)
  unfold answered
  refine (leaves_call hs (safe_ask .queryStatus (fun _ _ h => h) (Or.inl hs))).bind
    (fun status s' hI h => ?_)
  subst h
  split
  · refine (leaves_promoteComplete hs hc hsize).bind (fun promoted s'' hI h => ?_)
    rcases h with ⟨rfl, rfl⟩ | ⟨rfl, h⟩
    · rw [if_neg Bool.false_ne_true]
      split
      · exact .pure hI (Or.inl ⟨rfl, hs⟩)
      · exact hanswer status hs hresume
    · rw [if_pos rfl]
      exact .pure hI (Or.inr ⟨_, rfl, rfl, h⟩)
  · exact hanswer status hs hresume

/-- One attempt. -/
theorem leaves_tryOnce (parsed : ParsedUrl) (attempt : ℕ) {cancelled : Program Bool}
    (hc : Asks cancelled) :
    Leaves before expected maxBytes (AttemptDone before expected maxBytes)
      (tryOnce parsed expected maxBytes attempt cancelled) s := by
  unfold tryOnce
  refine (leaves_checkCancelled hs hc).bind (fun _ s' hI h => ?_)
  subst h
  refine (leaves_regularFileSize hs .part).bind (fun size s'' hI h => ?_)
  obtain ⟨rfl, hsize⟩ := h
  have hsize : (s''.part.getD []).length = size := hsize
  split
  · exact .throw hI hs
  rename_i hbound
  dsimp only
  generalize hoffset : (if attempt = 0 then size else 0) = resumeOffset
  have hresume : 0 < resumeOffset → (s''.part.getD []).length = resumeOffset := by
    intro hpositive
    rw [← hoffset] at hpositive ⊢
    split at hpositive
    · rw [if_pos ‹_›, hsize]
    · exact absurd hpositive (lt_irrefl 0)
  have hroom : resumeOffset ≤ maxBytes := by
    rw [← hoffset]
    split
    · exact not_lt.mp hbound
    · exact Nat.zero_le _
  refine (leaves_call hs (safe_ask (.openRequest _ _) (fun _ _ h => h) hI)).bind
    (fun _ s' hI h => ?_)
  subst h
  refine (leaves_checkCancelled hs hc).bind (fun _ s'' hI h => ?_)
  subst h
  refine SafeOr.bind (Q := fun _ s' => s' = s'') ?_ (fun _ s' hI h => ?_)
  · unfold addRange
    split
    · exact leaves_call hs (safe_ask (.addRange _) (fun _ _ h => h) hI)
    · exact .pure hI rfl
  subst h
  refine SafeOr.bind (Q := fun _ s'' => s'' = s') ?_ (fun _ s'' hI h => ?_)
  · unfold sendGetRequest
    refine (leaves_checkCancelled hs hc).bind (fun _ s'' hI h => ?_)
    subst h
    refine (leaves_call hs (safe_ask .sendRequest (fun _ _ h => h) hI)).bind (fun _ s' hI h => ?_)
    subst h
    refine (leaves_checkCancelled hs hc).bind (fun _ s'' hI h => ?_)
    subst h
    refine (leaves_call hs (safe_ask .receiveResponse (fun _ _ h => h) hI)).bind
      (fun _ s' hI h => ?_)
    subst h
    exact leaves_checkCancelled hs hc
  subst h
  exact leaves_answered hs hc (hsize.le.trans (not_lt.mp hbound)) hresume hroom

/-- The attempts. -/
theorem leaves_attempts (parsed : ParsedUrl) {cancelled : Program Bool} (hc : Asks cancelled)
    (left attempt : ℕ) :
    Leaves before expected maxBytes (fun result s' => result.status = .downloaded
        ∧ ∃ content, s'.destination = some content ∧ Verified expected maxBytes content)
      (attempts parsed expected maxBytes cancelled left attempt) s := by
  induction left generalizing s attempt with
  | zero => exact .throw (Or.inl hs) hs
  | succ left ih =>
    refine SafeOr.bind (leaves_tryOnce hs parsed attempt hc) (fun result s' hI h => ?_)
    rcases h with ⟨rfl, hs'⟩ | ⟨r, rfl, h⟩
    · exact ih hs' (attempt + 1)
    · exact .pure hI h

/-- The address. -/
theorem leaves_parseUrl (url : WideText) :
    Leaves before expected maxBytes (fun _ s' => s' = s) (parseUrl url) s := by
  unfold parseUrl
  refine (leaves_call hs (safe_ask (.crackUrl url) (fun _ _ h => h) (Or.inl hs))).bind
    (fun components s' hI h => ?_)
  subst h
  unfold parsedUrl
  split
  · exact .throw hI hs
  split
  · exact .throw hI hs
  dsimp only
  split
  · exact .throw hI hs
  · exact .pure hI rfl

/-- From the network. -/
theorem leaves_downloadFromNetwork (request : HttpDownloadRequest) :
    Leaves before request.expected request.maxBytes.toNat (fun result s' =>
        result.status = .downloaded ∧ ∃ content, s'.destination = some content
          ∧ Verified request.expected request.maxBytes.toNat content)
      (downloadFromNetwork request request.expected) s := by
  have hc : Asks request.withNetworkPolicy := asks_withNetworkPolicy request
  unfold downloadFromNetwork
  refine (leaves_checkCancelled hs (asks_isCancelled request)).bind (fun _ s' hI h => ?_)
  subst h
  refine SafeOr.bind (.lift (asks_networkDisabled request hI)) (fun disabled s'' hI h => ?_)
  subst h
  split
  · exact .throw hI hs
  dsimp only
  refine SafeOr.bind (Q := fun _ s' => s' = s'') ?_ (fun _ s' hI h => ?_)
  · unfold createParent
    split
    · exact leaves_call hs (safe_ask (.createDirectories _) (fun _ _ h => h) hI)
    · exact .pure hI rfl
  subst h
  refine (leaves_parseUrl hs request.url).bind (fun parsed s'' hI h => ?_)
  subst h
  refine (leaves_checkCancelled hs hc).bind (fun _ s' hI h => ?_)
  subst h
  refine (leaves_call hs (safe_ask (.openSession _) (fun _ _ h => h) hI)).bind (fun _ s'' hI h => ?_)
  subst h
  refine (leaves_checkCancelled hs hc).bind (fun _ s' hI h => ?_)
  subst h
  refine (leaves_call hs (safe_ask (.connect _ _) (fun _ _ h => h) hI)).bind (fun _ s'' hI h => ?_)
  subst h
  exact leaves_attempts hs parsed hc 2 0

/-- **`Download` under any server and any failure**: on the way the destination is
as it was or holds a verified content, and the result tells which. -/
theorem safe_download (request : HttpDownloadRequest) :
    Safe mayFail (Guarded before request.expected request.maxBytes.toNat)
      (fun result s' => (result.status = .downloaded ∧ ∃ content, s'.destination = some content
          ∧ Verified request.expected request.maxBytes.toNat content)
        ∨ (result.status ≠ .downloaded ∧ s'.destination = before))
      (download request) s := by
  unfold download
  refine Safe.bind (Q := OnResult (fun result s' =>
    (result.status = .downloaded ∧ ∃ content, s'.destination = some content
      ∧ Verified request.expected request.maxBytes.toNat content)
    ∨ (result.status = .alreadyValid ∧ s'.destination = before))
    (fun _ s' => s'.destination = before)) ?_ (fun r s' hI h => ?_)
  · show Leaves before request.expected request.maxBytes.toNat _ (downloadOrError request) s
    have hnetwork : ∀ {s' : World}, s'.destination = before →
        Leaves before request.expected request.maxBytes.toNat (fun result s' =>
          (result.status = .downloaded ∧ ∃ content, s'.destination = some content
            ∧ Verified request.expected request.maxBytes.toNat content)
          ∨ (result.status = .alreadyValid ∧ s'.destination = before))
          (downloadFromNetwork request request.expected) s' :=
      fun hs' => (leaves_downloadFromNetwork hs' request).imp (fun _ _ _ h => Or.inl h)
        (fun _ _ _ h => h)
    unfold downloadOrError
    split
    · refine (leaves_checkCancelled hs (asks_isCancelled request)).bind (fun _ s' hI h => ?_)
      subst h
      refine SafeOr.bind (Q := fun _ s'' => s'' = s')
        (.lift (safe_ask (.isRegularFile .destination) (fun _ _ h => h.1) hI))
        (fun regular s'' hI h => ?_)
      subst h
      split
      · refine (leaves_fileMatches hs .destination (asks_isCancelled request)
          request.expected).bind (fun check s' hI h => ?_)
        obtain ⟨rfl, -⟩ := h
        split
        · refine (leaves_checkCancelled hs (asks_isCancelled request)).bind (fun _ s'' hI h => ?_)
          subst h
          exact .pure hI (Or.inr ⟨rfl, hs⟩)
        · exact hnetwork hs
      · exact hnetwork hs
    · exact .throw (Or.inl hs) hs
  · cases r with
    | ok result =>
      refine .pure hI ?_
      rcases h with h | ⟨hstatus, hs'⟩
      · exact Or.inl h
      · exact Or.inr ⟨by rw [hstatus]; exact HttpDownloadStatus.noConfusion, hs'⟩
    | error message => exact .pure hI (Or.inr ⟨HttpDownloadStatus.noConfusion, h⟩)

end Safety

end AzooKey.Host.HttpDownloader

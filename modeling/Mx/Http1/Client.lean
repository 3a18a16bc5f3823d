import Mx.Core.Transport
import Mx.Http1.Buffers
import Mx.Pkg.Semver

/-!
# The receiving side of the HTTP client

`HTTPClient`, from the state in which it waits for the status line: what `OnSocketEvent` makes of
the bytes that the stream gives it, up to the settling of the promise.
-/

namespace Mx.Http1

open Strings Mx.Core
open Pkg (integer isDigit digitsValue)

/-! ## Connections -/

/-- `LineBufSize`. -/
def lineBufSize : Nat := 2048

/-- `RecvBufCap`. -/
def recvBufCap : Nat := 8192

/-- `DefaultCap` of `Buffers`. -/
def defaultCap : Nat := 4096

/-- `MaxHeaders`. -/
def maxHeaders : Nat := 32

/-- `MaxHeaderName`. -/
def maxHeaderName : Nat := 64

/-- `MaxHeaderVal`. -/
def maxHeaderVal : Nat := 1024

/-- `Header`, with the characters that are counted. -/
structure Header where
  name : Text
  value : Text
  deriving DecidableEq, Repr

/-- `Response`. -/
structure Response where
  statusCode : Int
  headers : List Header
  body : Option Buffer
  contentLength : Int
  deriving DecidableEq

/-- The states of a connection from `StRecvStatus` on. -/
inductive ConnState where
  | recvStatus
  | recvHeaders
  | recvBody
  | done
  | error
  deriving DecidableEq, Repr

/-- The states of a chunked body. -/
inductive ChunkState where
  | size
  | data
  | trailer
  | done
  deriving DecidableEq, Repr

/-- How a promise is settled. -/
inductive Settlement where
  | fulfilled (resp : Response)
  | rejected (code : Nat)
  deriving DecidableEq

/-- `ConnRec`, with what the promise was settled with. -/
structure ConnRec where
  state : ConnState
  recvBuf : Buffer
  resp : Response
  contentLen : Int
  bodyRead : Int
  chunked : Bool
  headOnly : Bool
  chunkState : ChunkState
  chunkRem : Int
  settled : List Settlement
  deriving DecidableEq

/-- `FailConn`. -/
def failConn (c : ConnRec) (code : Nat) : ConnRec :=
  { c with state := .error, settled := c.settled ++ [.rejected code] }

/-- `SucceedConn`: without a body, the response gets what is left in the receive buffer. -/
def succeedConn (c : ConnRec) : ConnRec :=
  let resp := { c.resp with body := some (c.resp.body.getD c.recvBuf) }
  { c with state := .done, resp := resp, settled := c.settled ++ [.fulfilled resp] }

/-! ## Parsing -/

/-- `ToLower`. -/
def toLower (ch : UInt8) : UInt8 := if 65 ≤ ch ∧ ch ≤ 90 then ch + 32 else ch

/-- `StrEqCI`. -/
def strEqCI (a b : Text) (aLen bLen : Nat) : Bool :=
  aLen = bLen && (a.take aLen).map toLower = (b.take aLen).map toLower

/-- `ParseStatusLine`, and whether it succeeds. -/
def parseStatusLine (c : ConnRec) : Bool × ConnRec :=
  match c.recvBuf.findCRLF with
  | none => (false, c)
  | some p =>
    if p ≥ lineBufSize then (false, failConn c 5)
    else
      let line := c.recvBuf.copyOut p lineBufSize
      let c := { c with recvBuf := c.recvBuf.consume (p + 2) }
      if p < 12 then (false, failConn c 5)
      else if line.take 5 ≠ text "HTTP/" then (false, failConn c 5)
      else
        let code := digitsValue ((line.drop 9).takeWhile isDigit)
        (true, { c with resp := { c.resp with statusCode := code } })

/-- A header line, in the loop of `ParseHeaders`. -/
def parseHeader (c : ConnRec) (line : Text) : ConnRec :=
  let nameLen := (line.takeWhile (· ≠ 58)).length
  if nameLen < line.length then
    let value := (line.drop (nameLen + 1)).dropWhile (· = 32)
    let stored := c.resp.headers.length < maxHeaders
    let nameLen := if stored then min nameLen (maxHeaderName - 1) else nameLen
    let valLen := if stored then min value.length (maxHeaderVal - 1) else value.length
    let c :=
      if stored then
        { c with resp :=
          { c.resp with headers := c.resp.headers ++ [⟨line.take nameLen, value.take valLen⟩] } }
      else c
    let c :=
      if strEqCI line (text "content-length") nameLen 14 then
        -- the digits among the characters of the value
        let contentLen := digitsValue (value.filter isDigit)
        { c with contentLen, resp := { c.resp with contentLength := contentLen } }
      else c
    -- the text that is compared with the value is the start of the line
    if strEqCI line (text "transfer-encoding") nameLen 17 ∧ valLen ≥ 7 ∧
        strEqCI line (text "chunked") valLen 7 then
      { c with chunked := true }
    else c
  else c

/-- The loop of `ParseHeaders`, with at most so many rounds. -/
def headerLoop : Nat → ConnRec → Bool × ConnRec
  | 0, c => (false, c)
  | fuel + 1, c =>
    match c.recvBuf.findCRLF with
    | none => (false, c)
    | some p =>
      if p = 0 then (true, { c with recvBuf := c.recvBuf.consume 2 })
      else
        let line := c.recvBuf.copyOut p lineBufSize
        let c := { c with recvBuf := c.recvBuf.consume (p + 2) }
        headerLoop fuel (if p ≥ lineBufSize then c else parseHeader c line)

/-- `ParseHeaders`. Each round but the last reads from the buffer. -/
def parseHeaders (c : ConnRec) : Bool × ConnRec := headerLoop (c.recvBuf.length + 1) c

/-! ## Chunked bodies -/

/-- A hexadecimal digit. -/
def hexDigit (ch : UInt8) : Option Int :=
  if 48 ≤ ch ∧ ch ≤ 57 then some (ch.toNat - 48)
  else if 97 ≤ ch ∧ ch ≤ 102 then some (ch.toNat - 97 + 10)
  else if 65 ≤ ch ∧ ch ≤ 70 then some (ch.toNat - 65 + 10)
  else none

/-- The loop of `HexToInt` over the digits. -/
def hexLoop (val : Int) : Text → Option Int
  | [] => some val
  | ch :: s =>
    match hexDigit ch with
    | some d => hexLoop (integer (val * 16 + d)) s
    | none => if ch = 13 ∨ ch = 59 then some val else none

/-- `HexToInt`. -/
def hexToInt (s : Text) : Option Int :=
  match s.dropWhile (· = 32) with
  | [] => none
  | ch :: s => hexLoop 0 (ch :: s)

/-- The loop of `ProcessChunked`, with at most so many rounds. -/
def chunkLoop : Nat → ConnRec → Bool × ConnRec
  | 0, c => (false, c)
  | fuel + 1, c =>
    match c.chunkState with
    | .size =>
      match c.recvBuf.findCRLF with
      | none => (false, c)
      | some p =>
        let p := min p 63
        let line := c.recvBuf.copyOut p 64
        let c := { c with recvBuf := c.recvBuf.consume (p + 2) }
        match hexToInt line with
        | none => (false, failConn c 5)
        | some chunkSz =>
          if chunkSz = 0 then (true, { c with chunkState := .done })
          else chunkLoop fuel { c with chunkRem := chunkSz, chunkState := .data }
    | .data =>
      let avail := c.recvBuf.length
      if avail = 0 then (false, c)
      else
        let toCopy := min c.chunkRem avail
        let chunk := c.recvBuf.unread.take toCopy.toNat
        let c := { c with
          resp := { c.resp with body := c.resp.body.map (chunk.foldl Buffer.appendByte) }
          recvBuf := c.recvBuf.consume toCopy.toNat
          chunkRem := c.chunkRem - toCopy
          bodyRead := integer (c.bodyRead + toCopy) }
        chunkLoop fuel (if c.chunkRem = 0 then { c with chunkState := .trailer } else c)
    | .trailer =>
      if c.recvBuf.length < 2 then (false, c)
      else chunkLoop fuel { c with recvBuf := c.recvBuf.consume 2, chunkState := .size }
    | .done => (true, c)

/-- `ProcessChunked`. Each round reads from the buffer, but for one in `ChData` that has a negative
number of bytes to copy; this leaves the state. -/
def processChunked (c : ConnRec) : Bool × ConnRec := chunkLoop (2 * c.recvBuf.length + 2) c

/-! ## Events -/

variable {τ : Type}

/-- `DoRecv`: the number of bytes that were received, or why none were. -/
def doRecv (read : ReadFn τ UInt8) (t : τ) (max : Nat) : Int × Text × τ :=
  match read t max with
  | (.ok, xs, t') => (xs.length, xs, t')
  | (.closed, _, t') => (0, [], t')
  | (.wouldBlock, _, t') => (-2, [], t')
  | (.error, _, t') => (-1, [], t')

/-- `RecvInto`, of the receive buffer. -/
def recvInto (read : ReadFn τ UInt8) (c : ConnRec) (t : τ) : Bool × Int × ConnRec × τ :=
  let c := { c with recvBuf := c.recvBuf.compact }
  let (n, xs, t) := doRecv read t c.recvBuf.remaining
  if n > 0 then (true, n, { c with recvBuf := c.recvBuf.advanceWrite xs }, t)
  else if n = 0 then (false, n, c, t)
  else if n = -2 then (false, n, c, t)
  else (false, n, failConn c 3, t)

/-- `TransitionToBody`. -/
def transitionToBody (c : ConnRec) : ConnRec :=
  if c.headOnly then succeedConn c
  else if c.chunked then
    let c := { c with
      resp := { c.resp with body := Buffer.create defaultCap .growable }
      chunkState := .size
      state := .recvBody }
    match processChunked c with
    | (true, c) => succeedConn c
    | (false, c) => c
  else if c.contentLen = 0 then succeedConn c
  else
    let avail := c.recvBuf.length
    let body := (Buffer.create defaultCap .growable).map (c.recvBuf.unread.foldl Buffer.appendByte)
    let c := { c with
      resp := { c.resp with body := body }
      recvBuf := c.recvBuf.consume avail
      bodyRead := if avail > 0 then avail else c.bodyRead
      state := .recvBody }
    if c.contentLen > 0 ∧ c.bodyRead ≥ c.contentLen then succeedConn c else c

/-- The headers, after the status line or more bytes. -/
def afterHeaders (c : ConnRec) : ConnRec :=
  match parseHeaders c with
  | (true, c) => transitionToBody c
  | (false, c) => c

/-- The status line and the headers, after more bytes. -/
def afterStatus (c : ConnRec) : ConnRec :=
  match parseStatusLine c with
  | (true, c) => afterHeaders { c with state := .recvHeaders }
  | (false, c) => c

/-- More bytes of a body that is not chunked. -/
def recvBody (read : ReadFn τ UInt8) (c : ConnRec) (t : τ) : ConnRec × τ :=
  let body := c.resp.body.map Buffer.compact
  let (n, xs, t) := doRecv read t ((body.map Buffer.remaining).getD 0)
  let c := { c with resp := { c.resp with body := body.map (Buffer.advanceWrite · xs) } }
  if n > 0 then
    let c := { c with bodyRead := integer (c.bodyRead + n) }
    (if c.contentLen > 0 ∧ c.bodyRead ≥ c.contentLen then succeedConn c else c, t)
  else if n = 0 then (succeedConn c, t)
  else if n = -2 then (c, t)
  else (failConn c 3, t)

/-- `OnSocketEvent`, in the receiving states. -/
def onSocketEvent (read : ReadFn τ UInt8) (c : ConnRec) (t : τ) : ConnRec × τ :=
  match c.state with
  | .recvStatus =>
    match recvInto read c t with
    | (false, n, c, t) => (if n = 0 then failConn c 3 else c, t)
    | (true, _, c, t) => (afterStatus c, t)
  | .recvHeaders =>
    match recvInto read c t with
    | (false, n, c, t) => (if n = 0 then failConn c 3 else c, t)
    | (true, _, c, t) => (afterHeaders c, t)
  | .recvBody =>
    if c.chunked then
      match recvInto read c t with
      | (false, n, c, t) => (if n = 0 then succeedConn c else c, t)
      | (true, _, c, t) =>
        match processChunked c with
        | (true, c) => (succeedConn c, t)
        | (false, c) => (c, t)
    else recvBody read c t
  | .done => (c, t)
  | .error => (c, t)

/-- An event. A connection is no longer watched once it is freed. -/
def event (read : ReadFn τ UInt8) (s : ConnRec × τ) : ConnRec × τ :=
  if s.1.settled = [] then onSocketEvent read s.1 s.2 else s

/-- So many events. -/
def events (read : ReadFn τ UInt8) (n : Nat) (s : ConnRec × τ) : ConnRec × τ := (event read)^[n] s

end Mx.Http1

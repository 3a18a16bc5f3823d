import Mx.Core.Slots
import Mx.Http2.Control
import Mx.Http2.Response

/-!
# The client connection

`Http2Stream` and `Http2Conn`: the states of a stream, the table of streams of a connection, and
what a received frame does to them.
-/

namespace Mx.Http2

open Mx.Core

/-! ## Streams -/

/-- The states of a stream, `StIdle` to `StClosed`. -/
inductive StreamState where
  | idle
  | reservedLocal
  | reservedRemote
  | open
  | halfClosedLocal
  | halfClosedRemote
  | closed
  deriving DecidableEq, Repr

/-- The events of a stream, `EvSendH` to `EvRecvPP`. -/
inductive StreamEvent where
  | sendH
  | sendHES
  | sendES
  | sendRst
  | recvH
  | recvHES
  | recvES
  | recvRst
  | recvPP
  deriving DecidableEq, Repr

/-- `InitStreamTable`: the next state, none for `NoState`. -/
def streamTable : StreamState → StreamEvent → Option StreamState
  | .idle, .sendH => some .open
  | .idle, .sendHES => some .halfClosedLocal
  | .idle, .recvH => some .open
  | .idle, .recvHES => some .halfClosedRemote
  | .idle, .recvPP => some .reservedRemote
  | .idle, .sendRst => some .closed
  | .idle, .recvRst => some .closed
  | .reservedLocal, .sendH => some .halfClosedRemote
  | .reservedLocal, .sendHES => some .closed
  | .reservedLocal, .sendRst => some .closed
  | .reservedLocal, .recvRst => some .closed
  | .reservedRemote, .recvH => some .halfClosedLocal
  | .reservedRemote, .recvHES => some .closed
  | .reservedRemote, .sendRst => some .closed
  | .reservedRemote, .recvRst => some .closed
  | .open, .sendES => some .halfClosedLocal
  | .open, .recvES => some .halfClosedRemote
  | .open, .sendRst => some .closed
  | .open, .recvRst => some .closed
  | .halfClosedLocal, .recvES => some .closed
  | .halfClosedLocal, .sendRst => some .closed
  | .halfClosedLocal, .recvRst => some .closed
  | .halfClosedRemote, .sendES => some .closed
  | .halfClosedRemote, .sendRst => some .closed
  | .halfClosedRemote, .recvRst => some .closed
  | _, _ => none

/-- `H2Stream`, with the state of its machine. -/
structure H2Stream where
  id : Nat
  state : StreamState
  sendWindow : Int
  recvWindow : Int
  rstCode : Nat
  deriving DecidableEq, Repr

/-- `InitStream`. -/
def initStream (streamId initWindowSize : Nat) : H2Stream where
  id := streamId
  state := .idle
  sendWindow := toInteger initWindowSize
  recvWindow := toInteger initWindowSize
  rstCode := 0

/-- The results of `Fsm.Step` that a table without guards has. -/
inductive StepStatus where
  | ok
  | noTransition
  deriving DecidableEq, Repr

/-- `StreamStep`. -/
def streamStep (s : H2Stream) (ev : StreamEvent) : H2Stream × StepStatus :=
  match streamTable s.state ev with
  | none => (s, .noTransition)
  | some next => ({ s with state := next }, .ok)

/-- `ConsumeRecvWindow`: none when it returns false. -/
def consumeRecvWindow (s : H2Stream) (n : Nat) : Option H2Stream :=
  if s.recvWindow < toInteger n then none
  else some { s with recvWindow := toInteger (s.recvWindow - toInteger n) }

/-- `IsClosed`. -/
def isClosed (s : H2Stream) : Bool := s.state = .closed

/-! ## Connections -/

/-- `MaxStreams`. -/
def maxStreams : Nat := 64

/-- `H2Conn`, without the tables of header compression and the client's own settings, which its
frames do not use. -/
structure H2Conn where
  remoteSettings : Settings
  connSendWindow : Int
  connRecvWindow : Int
  nextStreamId : Nat
  lastPeerStream : Nat
  goawayCode : Nat
  goawayRecv : Bool
  streams : Fin maxStreams → H2Stream
  streamUsed : Fin maxStreams → Bool
  numActive : Nat
  outBuf : Buf

/-- `InitConn`; the streams of free slots are as they were. -/
def initConn (streams : Fin maxStreams → H2Stream) : H2Conn where
  remoteSettings := initDefaultSettings
  connSendWindow := defaultWindowSize
  connRecvWindow := defaultWindowSize
  nextStreamId := 1
  lastPeerStream := 0
  goawayCode := 0
  goawayRecv := false
  streams := streams
  streamUsed := fun _ => false
  numActive := 0
  outBuf := Buf.empty

/-- `FindStream`. -/
def findStream (c : H2Conn) (streamId : Nat) : Option (Fin maxStreams) :=
  firstSlot fun i => c.streamUsed i && (c.streams i).id = streamId

/-- `FindFreeSlot`. -/
def findFreeSlot (c : H2Conn) : Option (Fin maxStreams) := firstSlot fun i => !c.streamUsed i

/-- A stream in a slot is replaced. -/
def H2Conn.setStream (c : H2Conn) (slot : Fin maxStreams) (s : H2Stream) : H2Conn :=
  { c with streams := Function.update c.streams slot s }

/-- `OpenStream`, with the id that it returns. -/
def openStream (c : H2Conn) : Nat × H2Conn :=
  if c.goawayRecv then (0, c)
  else match findFreeSlot c with
    | none => (0, c)
    | some slot =>
      (c.nextStreamId, { c.setStream slot (initStream c.nextStreamId
          c.remoteSettings.initialWindowSize) with
        nextStreamId := (c.nextStreamId + 2) % 4294967296
        streamUsed := Function.update c.streamUsed slot true
        numActive := (c.numActive + 1) % 4294967296 })

/-- `ReleaseStream`. -/
def releaseStream (c : H2Conn) (slot : Fin maxStreams) : H2Conn :=
  if c.streamUsed slot then
    { c with
      streamUsed := Function.update c.streamUsed slot false
      numActive := if c.numActive > 0 then c.numActive - 1 else c.numActive }
  else c

/-! ## Frames -/

/-- `ProcessSettingsFrame`; the second component is `ok`. -/
def processSettingsFrame (c : H2Conn) (hdr : FrameHeader) (payload : List UInt8) : H2Conn × Bool :=
  if hdr.flags % 2 = 1 then (c, hdr.length = 0)
  else if hdr.length % 6 ≠ 0 then (c, false)
  else match decodeSettings payload c.remoteSettings with
    | none => (c, false)
    | some s => ({ c with remoteSettings := s, outBuf := encodeSettingsAck c.outBuf }, true)

/-- `ProcessPingFrame`. -/
def processPingFrame (c : H2Conn) (hdr : FrameHeader) (payload : List UInt8) : H2Conn × Bool :=
  if hdr.length ≠ 8 then (c, false)
  else if hdr.streamId ≠ connectionStreamId then (c, false)
  else if hdr.flags % 2 = 1 then (c, true)
  else ({ c with outBuf := encodePing c.outBuf payload true }, true)

/-- `ProcessGoawayFrame`. -/
def processGoawayFrame (c : H2Conn) (payload : List UInt8) : H2Conn × Bool :=
  match decodeGoaway payload with
  | none => (c, false)
  | some (lastId, errCode) =>
    ({ c with goawayRecv := true, lastPeerStream := lastId, goawayCode := errCode }, true)

/-- `UpdateConnSendWindow`. -/
def updateConnSendWindow (c : H2Conn) (increment : Nat) : H2Conn :=
  { c with connSendWindow := updateSendWindow c.connSendWindow increment }

/-- `ProcessWindowUpdateFrame`. -/
def processWindowUpdateFrame (c : H2Conn) (hdr : FrameHeader) (payload : List UInt8) :
    H2Conn × Bool :=
  match decodeWindowUpdate payload with
  | none => (c, false)
  | some increment =>
    if increment = 0 then (c, false)
    else if hdr.streamId = connectionStreamId then (updateConnSendWindow c increment, true)
    else match findStream c hdr.streamId with
      | none => (c, true)
      | some slot =>
        let s := c.streams slot
        (c.setStream slot { s with sendWindow := updateSendWindow s.sendWindow increment }, true)

/-- A stream is stepped, and released when that closes it. -/
def stepStream (c : H2Conn) (slot : Fin maxStreams) (s : H2Stream) (ev : StreamEvent) : H2Conn :=
  let s := (streamStep s ev).1
  let c := c.setStream slot s
  if isClosed s then releaseStream c slot else c

/-- `ProcessRstStreamFrame`. -/
def processRstStreamFrame (c : H2Conn) (hdr : FrameHeader) (payload : List UInt8) :
    H2Conn × Bool :=
  if hdr.length ≠ 4 then (c, false)
  else if hdr.streamId = connectionStreamId then (c, false)
  else match decodeRstStream payload with
    | none => (c, false)
    | some errCode =>
      match findStream c hdr.streamId with
      | none => (c, true)
      | some slot => (stepStream c slot { c.streams slot with rstCode := errCode } .recvRst, true)

/-- The end of `ProcessDataFrame`, for a stream whose window has been used. -/
def acceptData (c : H2Conn) (hdr : FrameHeader) (slot : Fin maxStreams) (s : H2Stream) : H2Conn :=
  let c := { c with connRecvWindow := toInteger (c.connRecvWindow - toInteger hdr.length) }
  if hdr.flags % 2 = 1 then stepStream c slot s .recvES else c.setStream slot s

/-- `ProcessDataFrame`, for what `ConsumeRecvWindow` does to the stream. -/
def processDataFrameWith (consume : H2Stream → Nat → Option H2Stream) (c : H2Conn)
    (hdr : FrameHeader) : H2Conn × Bool :=
  if hdr.streamId = connectionStreamId then (c, false)
  else match findStream c hdr.streamId with
    | none => (c, false)
    | some slot =>
      match consume (c.streams slot) hdr.length with
      | none => (c, false)
      | some s => (acceptData c hdr slot s, true)

/-- `ProcessDataFrame`. -/
def processDataFrame (c : H2Conn) (hdr : FrameHeader) : H2Conn × Bool :=
  processDataFrameWith consumeRecvWindow c hdr

/-- `ProcessHeadersFrame`. -/
def processHeadersFrame (c : H2Conn) (hdr : FrameHeader) : H2Conn × Bool :=
  if hdr.streamId = connectionStreamId then (c, false)
  else match findStream c hdr.streamId with
    | none => (c, false)
    | some slot =>
      let ev := if hdr.flags % 2 = 1 then .recvHES else .recvH
      (stepStream c slot (c.streams slot) ev, true)

/-- `ProcessFrame` of the client. -/
def clientProcessFrame (c : H2Conn) (hdr : FrameHeader) (payload : List UInt8) : H2Conn × Bool :=
  if hdr.ftype = frameSettings then processSettingsFrame c hdr payload
  else if hdr.ftype = framePing then processPingFrame c hdr payload
  else if hdr.ftype = frameGoaway then processGoawayFrame c payload
  else if hdr.ftype = frameWindowUpdate then processWindowUpdateFrame c hdr payload
  else if hdr.ftype = frameRstStream then processRstStreamFrame c hdr payload
  else if hdr.ftype = frameData then processDataFrame c hdr
  else if hdr.ftype = frameHeaders then processHeadersFrame c hdr
  else (c, true)

end Mx.Http2

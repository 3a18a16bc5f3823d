import Mx.Core.Incremental
import Mx.Http2.Frame

/-!
# Reading frames from a connection

`ProcessReadBuf` of the server, with the buffer it reads and the one it answers into. What a whole
frame does to the connection is a parameter: the reader only hands it the header, the payload and
the connection.
-/

namespace Mx.Http2

open Mx.Core

/-! ## Connections -/

/-- `FrameSettings`. -/
def frameSettings : Nat := 4

/-- `FrameGoaway`. -/
def frameGoaway : Nat := 7

/-- `ErrProtocol`. -/
def errProtocol : Nat := 1

/-- `ErrFrameSize`. -/
def errFrameSize : Nat := 6

/-- `PrefaceLen`. -/
def prefaceLen : Nat := 24

/-- `CpPreface`. -/
def cpPreface : Nat := 1

/-- `CpSettings`. -/
def cpSettings : Nat := 2

/-- `CpOpen`. -/
def cpOpen : Nat := 3

/-- `CpGoaway`. -/
def cpGoaway : Nat := 4

/-- `CpClosed`. -/
def cpClosed : Nat := 5

/-- `Settings`. -/
structure Settings where
  headerTableSize : Nat
  enablePush : Nat
  maxConcurrentStreams : Nat
  initialWindowSize : Nat
  maxFrameSize : Nat
  maxHeaderListSize : Nat
  deriving DecidableEq, Repr

/-- The fields of `ConnRec` that frames read and write. Those that only `ProcessFrame` uses, with
the requests it has dispatched, are the `rest`. -/
structure Proto (σ : Type) where
  phase : Nat
  goawaySent : Bool
  prefaceRecvd : Bool
  lastPeerStream : Nat
  localSettings : Settings
  writeBuf : Buf
  rest : σ

/-- The fields that say how far the reader is. -/
structure Reader (σ : Type) where
  proto : Proto σ
  haveHeader : Bool
  curHeader : FrameHeader

/-- `ConnRec`. -/
structure Conn (σ : Type) extends Reader σ where
  readBuf : Buf

/-- What `ProcessFrame` does, for a request handler and the streams it keeps. It never takes the
connection back to waiting for the preface, does not close it, and leaves the server's own settings
alone. -/
structure Handler (σ : Type) where
  processFrame : FrameHeader → List UInt8 → Proto σ → Proto σ
  phase_ne : ∀ hdr payload p, p.phase ≠ cpPreface → (processFrame hdr payload p).phase ≠ cpPreface
  phase_lt : ∀ hdr payload p, p.phase < cpClosed → (processFrame hdr payload p).phase < cpClosed
  localSettings : ∀ hdr payload p,
    (processFrame hdr payload p).localSettings = p.localSettings

variable {σ : Type}

/-! ## Frames the reader decodes and writes -/

/-- `ViewGetByte`. -/
def viewGetByte (v : List UInt8) (i : Nat) : Nat := (v.getD i 0).toNat

/-- `DecodeHeader`. -/
def decodeHeader (v : List UInt8) : Option FrameHeader :=
  if v.length < frameHeaderSize then none
  else some
    { length := viewGetByte v 0 * 65536 + viewGetByte v 1 * 256 + viewGetByte v 2
      ftype := viewGetByte v 3
      flags := viewGetByte v 4
      streamId := (viewGetByte v 5 * 16777216 + viewGetByte v 6 * 65536 + viewGetByte v 7 * 256 +
        viewGetByte v 8) % 2147483648 }

/-- The connection preface, `PRI * HTTP/2.0`, two line ends, `SM`, two line ends. -/
def preface : List UInt8 :=
  [80, 82, 73, 32, 42, 32, 72, 84, 84, 80, 47, 50, 46, 48, 13, 10, 13, 10, 83, 77, 13, 10, 13, 10]

/-- `CheckPreface`. -/
def checkPreface (v : List UInt8) : Bool :=
  if v.length < prefaceLen then false else v.take prefaceLen == preface

/-- The four bytes of a number, with the bits that the first byte keeps. -/
def wordBytes (top n : Nat) : List Nat :=
  [n / 16777216 % top, n / 65536 % 256, n / 256 % 256, n % 256]

/-- `EncodeGoaway`. -/
def encodeGoaway (b : Buf) (lastStreamId errorCode : Nat) : Buf :=
  (encodeHeader b ⟨8, frameGoaway, 0, 0⟩).appendBytes
    (wordBytes 128 lastStreamId ++ wordBytes 256 errorCode)

/-- `EncodeSettings`. -/
def encodeSettings (b : Buf) (s : Settings) : Buf :=
  (encodeHeader b ⟨36, frameSettings, 0, 0⟩).appendBytes
    (0 :: 1 :: wordBytes 256 s.headerTableSize ++ 0 :: 2 :: wordBytes 256 s.enablePush ++
      0 :: 3 :: wordBytes 256 s.maxConcurrentStreams ++
      0 :: 4 :: wordBytes 256 s.initialWindowSize ++ 0 :: 5 :: wordBytes 256 s.maxFrameSize ++
      0 :: 6 :: wordBytes 256 s.maxHeaderListSize)

/-- `SendGoaway`. -/
def sendGoaway (p : Proto σ) (errorCode : Nat) : Proto σ :=
  { p with
    writeBuf := encodeGoaway p.writeBuf p.lastPeerStream errorCode
    goawaySent := true
    phase := cpGoaway }

/-! ## The reader -/

/-- `ShiftBuf`. -/
def shiftBuf (b : Buf) (n : Nat) : Buf :=
  if n ≥ b.bytes.length then Buf.empty
  else ⟨b.bytes.drop n, by
    rw [List.length_drop]
    exact Nat.le_trans (Nat.sub_le _ _) b.fits⟩

/-- What `ProcessReadBuf` answers to a good preface. -/
def acceptPreface (p : Proto σ) : Proto σ :=
  { p with
    prefaceRecvd := true
    writeBuf := encodeSettings p.writeBuf p.localSettings
    phase := cpSettings }

/-- The frame header at the front of the buffer. An error is an exit from the loop. -/
def parseHeader (c : Conn σ) : Except (Conn σ) (Conn σ) :=
  if c.haveHeader then .ok c
  else if c.readBuf.bytes.length < frameHeaderSize then .error c
  else match decodeHeader (c.readBuf.bytes.take frameHeaderSize) with
    | none => .error { c with proto := sendGoaway c.proto errProtocol }
    | some hdr =>
      if hdr.length > c.proto.localSettings.maxFrameSize then
        .error { c with curHeader := hdr, proto := sendGoaway c.proto errFrameSize }
      else .ok { c with curHeader := hdr, haveHeader := true }

/-- The frame whose payload is in the buffer. -/
def consumeFrame (h : Handler σ) (c : Conn σ) : Conn σ :=
  { c with
    proto := h.processFrame c.curHeader
      ((c.readBuf.bytes.drop frameHeaderSize).take c.curHeader.length) c.proto
    readBuf := shiftBuf c.readBuf (frameHeaderSize + c.curHeader.length)
    haveHeader := false }

/-- The loop of `ProcessReadBuf`, with at most so many rounds. -/
def processFrames (h : Handler σ) : Nat → Conn σ → Conn σ
  | 0, c => c
  | fuel + 1, c =>
    if c.proto.phase ≥ cpClosed then c
    else match parseHeader c with
      | .error c' => c'
      | .ok c' =>
        if c'.readBuf.bytes.length < frameHeaderSize + c'.curHeader.length then c'
        else processFrames h fuel (consumeFrame h c')

/-- `ProcessReadBuf`. Each round of its loop but the last reads a header from the buffer, so there
are no more of them than bytes. -/
def processReadBuf (h : Handler σ) (c : Conn σ) : Conn σ :=
  if c.proto.phase = cpPreface then
    if c.readBuf.bytes.length < prefaceLen then c
    else if !checkPreface (c.readBuf.bytes.take prefaceLen) then
      { c with proto := sendGoaway c.proto errProtocol }
    else
      let c' := { c with
        proto := acceptPreface c.proto
        readBuf := shiftBuf c.readBuf prefaceLen }
      processFrames h (c'.readBuf.bytes.length + 1) c'
  else processFrames h (c.readBuf.bytes.length + 1) c

/-- `ConnFeedBytes`, which does not look at the result of `AppendView`. -/
def connFeedBytes (c : Conn σ) (data : List UInt8) : Conn σ :=
  { c with readBuf := (c.readBuf.appendView data).1 }

/-- One chunk: its bytes are fed and the buffer is processed. -/
def feed (h : Handler σ) (c : Conn σ) (chunk : List UInt8) : Conn σ :=
  processReadBuf h (connFeedBytes c chunk)

/-- Chunks fed one after another. -/
def feedAll (h : Handler σ) (c : Conn σ) (chunks : List (List UInt8)) : Conn σ :=
  chunks.foldl (feed h) c

end Mx.Http2

import Mx.Core.Transport
import Mx.Http2.Frame

/-!
# Length-prefixed frames

`RpcFrame`: a frame is its length in four bytes and its payload. `TryReadFrame` keeps what it has
read of a frame between calls; `WriteFrame` writes a frame in as many pieces as the transport takes.
-/

namespace Mx.Rpc

open Mx.Core
open Http2 (Buf maxBufCap)

/-- `MaxFrame`. -/
def maxFrameLimit : Nat := 65531

/-- `StReadLen`. -/
def stReadLen : Nat := 0

/-- `StReadPayload`. -/
def stReadPayload : Nat := 1

/-- `ChunkSize`. -/
def chunkSize : Nat := 1024

/-- `FrameStatus`. -/
inductive FrameStatus where
  | ok
  | needMore
  | closed
  | tooLarge
  | error
  deriving DecidableEq, Repr

/-- `DecodeBE32`. -/
def decodeBE32 (a : List UInt8) : Nat :=
  (a.getD 0 0).toNat * 16777216 + (a.getD 1 0).toNat * 65536 + (a.getD 2 0).toNat * 256 +
    (a.getD 3 0).toNat

/-- `EncodeBE32`. -/
def encodeBE32 (val : Nat) : List UInt8 :=
  [UInt8.ofNat (val / 16777216 % 256), UInt8.ofNat (val / 65536 % 256),
    UInt8.ofNat (val / 256 % 256), UInt8.ofNat (val % 256)]

/-- `FrameReader`. The first `lenPos` characters of `lenBuf` are kept as a list, whose length is
`lenPos`; the read callback and its context are parameters of the procedures. -/
structure FrameReader where
  state : Nat
  lenBuf : List UInt8
  payloadBuf : Buf
  payloadLen : Nat
  payloadPos : Nat
  maxFrame : Nat

/-- `InitFrameReader`. -/
def initFrameReader (maxFrame : Nat) : FrameReader where
  state := stReadLen
  lenBuf := []
  payloadBuf := Buf.empty
  payloadLen := 0
  payloadPos := 0
  maxFrame := if maxFrame > maxFrameLimit then maxFrameLimit else maxFrame

/-- What `TryReadFrame` returns, with the reader and the transport after it. -/
structure ReadResult (τ : Type) where
  status : FrameStatus
  out : List UInt8
  reader : FrameReader
  transport : τ

variable {τ : Type}

/-- The frame status when the transport stops within a frame. -/
def stoppedStatus : TransportStatus → FrameStatus
  | .wouldBlock => .needMore
  | _ => .error

/-- What follows the last byte of the length: an error is a return. -/
def startFrame (fr : FrameReader) (t : τ) : Except (ReadResult τ) FrameReader :=
  let fr := { fr with payloadLen := decodeBE32 fr.lenBuf }
  if fr.payloadLen > fr.maxFrame then .error ⟨.tooLarge, [], fr, t⟩
  else if fr.payloadLen = 0 then
    .error ⟨.ok, [], { fr with payloadBuf := Buf.empty, lenBuf := [] }, t⟩
  else
    let fr := { fr with payloadBuf := Buf.empty }
    if fr.payloadLen > maxBufCap then .error ⟨.error, [], fr, t⟩
    else .ok { fr with payloadPos := 0, state := stReadPayload }

/-- The first phase of `TryReadFrame`. -/
def readLength (read : ReadFn τ UInt8) (fr : FrameReader) (t : τ) :
    Except (ReadResult τ) (FrameReader × τ) :=
  if fr.state = stReadLen then
    let missing := 4 - fr.lenBuf.length
    let r := fill read 4 missing missing [] t
    let fr := { fr with lenBuf := fr.lenBuf ++ r.2.1 }
    match r.1 with
    | some .closed =>
      .error ⟨if fr.lenBuf.length = 0 then .closed else .error, [], fr, r.2.2⟩
    | some status => .error ⟨stoppedStatus status, [], fr, r.2.2⟩
    | none => (startFrame fr r.2.2).map fun fr => (fr, r.2.2)
  else .ok (fr, t)

/-- The second phase of `TryReadFrame`. -/
def readPayload (read : ReadFn τ UInt8) (fr : FrameReader) (t : τ) : ReadResult τ :=
  let missing := fr.payloadLen - fr.payloadPos
  let r := fill read chunkSize missing missing [] t
  let fr := { fr with
    payloadBuf := fr.payloadBuf.appendBytes (r.2.1.map UInt8.toNat)
    payloadPos := fr.payloadPos + r.2.1.length }
  match r.1 with
  | some status => ⟨stoppedStatus status, [], fr, r.2.2⟩
  | none => ⟨.ok, fr.payloadBuf.bytes, { fr with state := stReadLen, lenBuf := [] }, r.2.2⟩

/-- `TryReadFrame`. -/
def tryReadFrame (read : ReadFn τ UInt8) (fr : FrameReader) (t : τ) : ReadResult τ :=
  match readLength read fr t with
  | .error r => r
  | .ok (fr, t) => readPayload read fr t

/-- `WriteFrame`, with at most so many calls of the write callback. -/
def writeFrame (write : WriteFn τ UInt8) (rounds : Nat) (payload : List UInt8) (t : τ) :
    Option (Bool × τ) :=
  let header := (Buf.empty.appendView (encodeBE32 payload.length)).1
  drain write rounds (header.appendView payload).1.bytes t

/-- Payloads written one after another, until one fails. -/
def writeFrames (write : WriteFn τ UInt8) (rounds : Nat) : List (List UInt8) → τ →
    Option (Bool × τ)
  | [], t => some (true, t)
  | payload :: payloads, t =>
    match writeFrame write rounds payload t with
    | some (true, t) => writeFrames write rounds payloads t
    | r => r

/-- So many calls of `TryReadFrame` one after another, with the status and the view that each
returns. -/
def readFrames (read : ReadFn τ UInt8) : Nat → FrameReader → τ →
    List (FrameStatus × List UInt8) × FrameReader × τ
  | 0, fr, t => ([], fr, t)
  | n + 1, fr, t =>
    let r := readFrames read n fr t
    let last := tryReadFrame read r.2.1 r.2.2
    (r.1 ++ [(last.status, last.out)], last.reader, last.transport)

/-- The payloads that calls have delivered. -/
def delivered (results : List (FrameStatus × List UInt8)) : List (List UInt8) :=
  results.filterMap fun r => if r.1 = .ok then some r.2 else none

end Mx.Rpc

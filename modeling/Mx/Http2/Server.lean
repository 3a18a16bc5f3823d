import Mx.Core.Slots
import Mx.Http2.Control
import Mx.Http2.HpackTable
import Mx.Http2.Response

/-!
# The server connection

`Http2ServerStream` and `ProcessFrame` of `Http2ServerConn`: the slots of the streams, the
assembly of a request from its frames, and its dispatch to a handler. The handler, the header
compression and their states are parameters.
-/

namespace Mx.Http2

open Mx.Core

/-! ## Slots -/

/-- `MaxStreamSlots`. -/
def maxStreamSlots : Nat := 64

/-- `MaxReqHeaders`. -/
def maxReqHeaders : Nat := 32

/-- `MaxBodyLen`. -/
def maxBodyLen : Nat := 524288

/-- The phases of a slot, `PhIdle` to `PhDeferred`. -/
inductive SlotPhase where
  | idle
  | headers
  | data
  | dispatched
  | responding
  | done
  | held
  | deferred
  deriving DecidableEq, Repr

/-- `Request`, as far as frames fill it. -/
structure Request where
  method : List UInt8
  path : List UInt8
  scheme : List UInt8
  authority : List UInt8
  headers : List HeaderEntry
  body : Buf
  streamId : Nat

/-- `InitRequest`. -/
def initRequest : Request where
  method := []
  path := []
  scheme := []
  authority := []
  headers := []
  body := Buf.empty
  streamId := 0

/-- `StreamSlot`; of its stream, the id and the send window. -/
structure StreamSlot where
  active : Bool
  id : Nat
  sendWindow : Int
  req : Request
  phase : SlotPhase
  endRecvd : Bool
  endSent : Bool

/-- `SlotInit`. -/
def slotInit (s : StreamSlot) : StreamSlot :=
  { s with
    active := false
    phase := .idle
    endRecvd := false
    endSent := false
    req := initRequest }

/-- `SlotFree`. -/
def slotFree (s : StreamSlot) : StreamSlot :=
  { s with
    active := false
    phase := .idle
    req := { s.req with
      body := Buf.empty
      headers := []
      method := []
      path := []
      streamId := 0 } }

/-- The slots of a connection. -/
abbrev Slots : Type := Fin maxStreamSlots → StreamSlot

/-- `AllocSlot`, with the slot it returns. -/
def allocSlot (slots : Slots) (streamId initWindowSize : Nat) :
    Option (Fin maxStreamSlots × Slots) :=
  (firstSlot fun i => !(slots i).active).map fun i =>
    (i, Function.update slots i { slotInit (slots i) with
      active := true
      id := streamId
      sendWindow := toInteger initWindowSize })

/-- `FindSlot`. -/
def findSlot (slots : Slots) (streamId : Nat) : Option (Fin maxStreamSlots) :=
  firstSlot fun i => (slots i).active && (slots i).id = streamId

/-! ## Requests -/

/-- The bytes of a name or a text. -/
def chars (s : String) : List UInt8 := s.toList.map fun c => UInt8.ofNat c.toNat

/-- One header of `AssembleHeaders`, with the bounds of `CopyChars`. -/
def assembleHeader (req : Request) (h : HeaderEntry) : Request :=
  if h.name.head? = some 58 then
    if h.name = chars ":method" then { req with method := h.value.take 15 }
    else if h.name = chars ":path" then { req with path := h.value.take 511 }
    else if h.name = chars ":scheme" then { req with scheme := h.value.take 7 }
    else if h.name = chars ":authority" then { req with authority := h.value.take 127 }
    else req
  else if req.headers.length < maxReqHeaders then
    { req with headers := req.headers ++ [⟨h.name.take 63, h.value.take 2047⟩] }
  else req

/-- `AssembleHeaders`, with its result. -/
def assembleHeaders (slot : StreamSlot) (decoded : List HeaderEntry) (endStream : Bool) :
    StreamSlot × Bool :=
  let slot := { slot with req := decoded.foldl assembleHeader slot.req }
  let hasMethod := decoded.any fun h => h.name = chars ":method"
  let hasPath := decoded.any fun h => h.name = chars ":path"
  if !hasMethod || !hasPath then (slot, false)
  else if endStream then ({ slot with endRecvd := true, phase := .dispatched }, true)
  else ({ slot with phase := .data }, true)

/-- `AccumulateData`, with its result. -/
def accumulateData (slot : StreamSlot) (data : List UInt8) (endStream : Bool) :
    StreamSlot × Bool :=
  if slot.phase ≠ .data then (slot, false)
  else if slot.req.body.bytes.length + data.length > maxBodyLen then (slot, false)
  else
    let slot := { slot with req := { slot.req with body := (slot.req.body.appendView data).1 } }
    if endStream then ({ slot with endRecvd := true, phase := .dispatched }, true)
    else (slot, true)

/-! ## Connections -/

/-- `Response`; its `bodyLen` is the length of its body. -/
structure Response where
  status : Nat
  headers : List HeaderEntry
  body : List UInt8

/-- What a handler does with a request: it completes the response, holds the stream with the
headers of a response and some data after them, or defers it to a worker. -/
inductive Outcome where
  | complete (resp : Response)
  | hold (resp : Response) (data : List (List UInt8))
  | defer

/-- The code that a connection calls: the server's dispatch, the callback for held streams that
are closed, and the two sides of header compression. -/
structure App (α δ : Type) where
  dispatch : α → Request → Outcome × α
  heldClosed : α → Nat → α
  decodeHeaderBlock : δ → List UInt8 → Option (List HeaderEntry) × δ
  encodeHeaderBlock : δ → List HeaderEntry → List UInt8 × δ

/-- The fields of `ConnRec` that only `ProcessFrame` uses, with the state of the handlers. -/
structure ServerRest (α δ : Type) where
  remoteSettings : Settings
  connSendWindow : Int
  connRecvWindow : Int
  goawayRecvd : Bool
  settingsAckRecvd : Bool
  numActive : Nat
  slots : Slots
  dynEnc : δ
  dynDec : δ
  app : α

/-- The connection as `ProcessFrame` sees it. -/
abbrev Server (α δ : Type) : Type := Proto (ServerRest α δ)

/-- What a step sends, apart from acknowledgements and window updates. -/
inductive ServerEvent where
  | goaway (errorCode : Nat)
  | rstStream (streamId errorCode : Nat)
  | data (streamId : Nat) (chunk : Chunk UInt8)
  deriving DecidableEq

variable {α δ : Type}

/-- A connection after a step, with what the step sent. -/
abbrev ServerStep (α δ : Type) : Type := Server α δ × List ServerEvent

/-- A slot is replaced. -/
def setSlot (p : Server α δ) (i : Fin maxStreamSlots) (s : StreamSlot) : Server α δ :=
  { p with rest := { p.rest with slots := Function.update p.rest.slots i s } }

/-- `SendGoaway`, as a step. -/
def goaway (p : Server α δ) (errorCode : Nat) : ServerStep α δ :=
  (sendGoaway p errorCode, [.goaway errorCode])

/-- `SendRstStream`. -/
def sendRstStream (p : Server α δ) (streamId errorCode : Nat) : Server α δ :=
  { p with writeBuf := encodeRstStream p.writeBuf streamId errorCode }

/-- A stream is no longer counted. -/
def decActive (p : Server α δ) : Server α δ :=
  { p with rest := { p.rest with
      numActive := if p.rest.numActive > 0 then p.rest.numActive - 1 else p.rest.numActive } }

/-- A slot is freed and no longer counted. -/
def freeSlot (p : Server α δ) (i : Fin maxStreamSlots) : Server α δ :=
  decActive (setSlot p i (slotFree (p.rest.slots i)))

/-- The stream of a slot is reset and the slot is freed. -/
def resetSlot (p : Server α δ) (i : Fin maxStreamSlots) (streamId : Nat) : ServerStep α δ :=
  (freeSlot (sendRstStream p streamId errProtocol) i, [.rstStream streamId errProtocol])

/-! ## Responses -/

/-- The decimal digits of a status, as `StatusToStr` writes them. -/
def statusToStr (code : Nat) : List UInt8 :=
  [UInt8.ofNat (48 + min (code / 100) 9), UInt8.ofNat (48 + code / 10 % 10),
    UInt8.ofNat (48 + code % 10)]

/-- The header entries of a response: the status and at most 32 headers. -/
def responseEntries (resp : Response) : List HeaderEntry :=
  ⟨chars ":status", statusToStr resp.status⟩ ::
    (resp.headers.take 32).map fun h => ⟨h.name.take 127, h.value.take 4095⟩

/-- What sending on a slot needs. -/
def sendContext (p : Server α δ) (i : Fin maxStreamSlots) (body block : List UInt8) :
    SendContext where
  streamId := (p.rest.slots i).id
  maxFrameSize := p.rest.remoteSettings.maxFrameSize
  body := body
  headerBlock := block

/-- The fields that sending on a slot changes. -/
def sendState (p : Server α δ) (i : Fin maxStreamSlots) (bodyLen : Nat) : SendState where
  out := p.writeBuf
  connWindow := p.rest.connSendWindow
  sendWindow := (p.rest.slots i).sendWindow
  bodyLen := bodyLen
  endSent := (p.rest.slots i).endSent

/-- The fields are stored again, with the new phase of the slot. -/
def storeSent (p : Server α δ) (i : Fin maxStreamSlots) (s : SendState) (phase : SlotPhase) :
    Server α δ :=
  let p := setSlot p i { p.rest.slots i with
    sendWindow := s.sendWindow, endSent := s.endSent, phase := phase }
  { p with writeBuf := s.out, rest := { p.rest with connSendWindow := s.connWindow } }

/-- The `DATA` frames of a stream. -/
def dataEvents (streamId : Nat) (chunks : List (Chunk UInt8)) : List ServerEvent :=
  chunks.map fun c => .data streamId c

/-- `SendResponse` on a slot. -/
def respond (app : App α δ) (p : Server α δ) (i : Fin maxStreamSlots) (resp : Response) :
    ServerStep α δ :=
  let block := app.encodeHeaderBlock p.rest.dynEnc (responseEntries resp)
  let p := { p with rest := { p.rest with dynEnc := block.2 } }
  let r := sendResponse (sendContext p i resp.body block.1) (sendState p i resp.body.length)
  (storeSent p i r.1 (if r.1.endSent then .done else .responding),
    dataEvents (p.rest.slots i).id r.2)

/-- `SendHeadersOnly`. -/
def sendHeadersOnly (app : App α δ) (p : Server α δ) (i : Fin maxStreamSlots) (resp : Response) :
    Server α δ :=
  let block := app.encodeHeaderBlock p.rest.dynEnc (responseEntries resp)
  let out := encodeHeadersHeader p.writeBuf (p.rest.slots i).id block.1.length false true
  let p := setSlot p i { p.rest.slots i with phase := .held }
  { p with writeBuf := (out.appendView block.1).1, rest := { p.rest with dynEnc := block.2 } }

/-- One round of the loop of `SendSseData`. -/
def sseRound (c : SendContext) (l : SendLoop) : Option SendLoop :=
  let s := l.state
  (takeWindow s.connWindow s.sendWindow (minCard l.remaining c.maxFrameSize)).map fun r =>
    let header := encodeDataHeader s.out c.streamId r.1 false
    let payload := (c.body.drop l.bodyOfs).take r.1
    let out := header.appendView payload
    { state := { s with
        out := out.1, connWindow := toInteger (s.connWindow - toInteger r.1), sendWindow := r.2 }
      bodyOfs := l.bodyOfs + r.1
      remaining := l.remaining - r.1
      written := l.written ++ [⟨false, if out.2 then payload else []⟩] }

/-- The loop of `SendSseData`, with at most so many rounds. -/
def sseLoop (c : SendContext) : Nat → SendLoop → SendLoop
  | 0, l => l
  | n + 1, l =>
    if l.remaining = 0 then l
    else match sseRound c l with
      | none => l
      | some l' => sseLoop c n l'

/-- `SendSseData` on a slot. -/
def sendSseData (p : Server α δ) (i : Fin maxStreamSlots) (data : List UInt8) : ServerStep α δ :=
  let slot := p.rest.slots i
  if slot.phase ≠ .held then (p, [])
  else
    let l := sseLoop (sendContext p i data []) data.length
      ⟨sendState p i data.length, 0, data.length, []⟩
    (storeSent p i l.state slot.phase, dataEvents slot.id l.written)

/-- Several pieces of data one after another. -/
def sendSseAll (p : Server α δ) (i : Fin maxStreamSlots) : List (List UInt8) → ServerStep α δ
  | [] => (p, [])
  | data :: rest =>
    let first := sendSseData p i data
    let r := sendSseAll first.1 i rest
    (r.1, first.2 ++ r.2)

/-- `DispatchRequest`. -/
def dispatchRequest (app : App α δ) (p : Server α δ) (i : Fin maxStreamSlots) : ServerStep α δ :=
  let r := app.dispatch p.rest.app (p.rest.slots i).req
  let p := { p with rest := { p.rest with app := r.2 } }
  match r.1 with
  | .hold resp data => sendSseAll (sendHeadersOnly app p i resp) i data
  | .defer => (setSlot p i { p.rest.slots i with phase := .deferred }, [])
  | .complete resp =>
    let resp := { resp with status := if resp.status = 0 then 500 else resp.status }
    let r := respond app p i resp
    if (r.1.rest.slots i).endSent then (freeSlot r.1 i, r.2) else r

/-! ## Frames -/

/-- `SETTINGS`. -/
def settingsFrame (p : Server α δ) (hdr : FrameHeader) (payload : List UInt8) : ServerStep α δ :=
  if hdr.flags = flagAck then
    ({ p with rest := { p.rest with settingsAckRecvd := true } }, [])
  else match decodeSettings payload initDefaultSettings with
    | none => goaway p errProtocol
    | some s =>
      ({ p with
        writeBuf := encodeSettingsAck p.writeBuf
        phase := if p.phase = cpSettings then cpOpen else p.phase
        rest := { p.rest with
          remoteSettings := s
          connSendWindow := toInteger s.initialWindowSize } }, [])

/-- `PING`. -/
def pingFrame (p : Server α δ) (hdr : FrameHeader) (payload : List UInt8) : ServerStep α δ :=
  if payload.length ≠ 8 then goaway p errFrameSize
  else if hdr.flags = flagAck then (p, [])
  else ({ p with writeBuf := encodePing p.writeBuf payload true }, [])

/-- `GOAWAY`. -/
def goawayFrame (p : Server α δ) (payload : List UInt8) : ServerStep α δ :=
  match decodeGoaway payload with
  | none => (p, [])
  | some _ => ({ p with phase := cpGoaway, rest := { p.rest with goawayRecvd := true } }, [])

/-- `WINDOW_UPDATE`. -/
def windowUpdateFrame (p : Server α δ) (hdr : FrameHeader) (payload : List UInt8) :
    ServerStep α δ :=
  match decodeWindowUpdate payload with
  | none => goaway p errProtocol
  | some increment =>
    if increment > 0 then
      if hdr.streamId = 0 then
        ({ p with rest := { p.rest with
            connSendWindow := updateSendWindow p.rest.connSendWindow increment } }, [])
      else match findSlot p.rest.slots hdr.streamId with
        | none => (p, [])
        | some i =>
          let s := p.rest.slots i
          (setSlot p i { s with sendWindow := updateSendWindow s.sendWindow increment }, [])
    else if hdr.streamId = 0 then goaway p errProtocol
    else (sendRstStream p hdr.streamId errProtocol, [.rstStream hdr.streamId errProtocol])

/-- `RST_STREAM`. -/
def rstStreamFrame (app : App α δ) (p : Server α δ) (hdr : FrameHeader) (payload : List UInt8) :
    ServerStep α δ :=
  match decodeRstStream payload with
  | none => (p, [])
  | some _ =>
    match findSlot p.rest.slots hdr.streamId with
    | none => (p, [])
    | some i =>
      let s := p.rest.slots i
      let p := if s.phase = .held then
        { p with rest := { p.rest with app := app.heldClosed p.rest.app hdr.streamId } } else p
      if s.phase = .deferred then (decActive (setSlot p i { s with phase := .done }), [])
      else (freeSlot p i, [])

/-- The checks on a stream id that starts a request. -/
def acceptsStream (p : Server α δ) (streamId : Nat) : Bool :=
  p.phase = cpOpen && streamId ≠ 0 && streamId % 2 ≠ 0 && p.lastPeerStream < streamId

/-- A flag of a frame. -/
def hasFlag (hdr : FrameHeader) (flag : Nat) : Bool := hdr.flags / flag % 2 = 1

/-- The header block of a request whose slot has been taken. -/
def requestHeaders (app : App α δ) (p : Server α δ) (i : Fin maxStreamSlots) (hdr : FrameHeader)
    (payload : List UInt8) : ServerStep α δ :=
  let endStream := hasFlag hdr flagEndStream
  let decoded := app.decodeHeaderBlock p.rest.dynDec payload
  let p := { p with rest := { p.rest with dynDec := decoded.2 } }
  match decoded.1 with
  | none => resetSlot p i hdr.streamId
  | some entries =>
    let s := p.rest.slots i
    let r := assembleHeaders { s with req := { s.req with streamId := hdr.streamId } } entries
      endStream
    let p := setSlot p i r.1
    if !r.2 then resetSlot p i hdr.streamId
    else if endStream then dispatchRequest app p i
    else (p, [])

/-- `HEADERS`. -/
def headersFrame (app : App α δ) (p : Server α δ) (hdr : FrameHeader) (payload : List UInt8) :
    ServerStep α δ :=
  if !acceptsStream p hdr.streamId then goaway p errProtocol
  else
    let p := { p with lastPeerStream := hdr.streamId }
    let refused : ServerStep α δ :=
      (sendRstStream p hdr.streamId refusedStream, [.rstStream hdr.streamId refusedStream])
    if p.rest.numActive ≥ p.localSettings.maxConcurrentStreams then refused
    else match allocSlot p.rest.slots hdr.streamId p.rest.remoteSettings.initialWindowSize with
      | none => refused
      | some (i, slots) =>
        let p :=
          { p with rest := { p.rest with slots := slots, numActive := p.rest.numActive + 1 } }
        if !hasFlag hdr flagEndHeaders then goaway p errProtocol
        else requestHeaders app p i hdr payload

/-- The windows for received data are used up and restored at once. -/
def restoreWindows (p : Server α δ) (streamId n : Nat) : Server α δ :=
  let left := toInteger (p.rest.connRecvWindow - toInteger n)
  { p with
    writeBuf := encodeWindowUpdate (encodeWindowUpdate p.writeBuf 0 n) streamId n
    rest := { p.rest with connRecvWindow := toInteger (left + toInteger n) } }

/-- `DATA`. -/
def dataFrame (app : App α δ) (p : Server α δ) (hdr : FrameHeader) (payload : List UInt8) :
    ServerStep α δ :=
  if hdr.streamId = 0 then goaway p errProtocol
  else match findSlot p.rest.slots hdr.streamId with
    | none => goaway p errProtocol
    | some i =>
      let endStream := hasFlag hdr flagEndStream
      if payload.length > 0 ∧ toInteger payload.length > p.rest.connRecvWindow then
        goaway p errFlowControl
      else
        let p := if payload.length > 0 then restoreWindows p hdr.streamId payload.length else p
        let r := accumulateData (p.rest.slots i) payload endStream
        let p := setSlot p i r.1
        if !r.2 then resetSlot p i hdr.streamId
        else if endStream then dispatchRequest app p i
        else (p, [])

/-- `ProcessFrame` of the server, with what it sends. -/
def serverProcessFrame (app : App α δ) (hdr : FrameHeader) (payload : List UInt8)
    (p : Server α δ) : ServerStep α δ :=
  if hdr.ftype = frameSettings then settingsFrame p hdr payload
  else if hdr.ftype = framePing then pingFrame p hdr payload
  else if hdr.ftype = frameGoaway then goawayFrame p payload
  else if hdr.ftype = frameWindowUpdate then windowUpdateFrame p hdr payload
  else if hdr.ftype = frameRstStream then rstStreamFrame app p hdr payload
  else if hdr.ftype = frameHeaders then headersFrame app p hdr payload
  else if hdr.ftype = frameData then dataFrame app p hdr payload
  else if hdr.ftype = frameContinuation then goaway p errProtocol
  else (p, [])

/-- `ConnCreate`, for slots and states of the other code as they are. -/
def connCreate (slots : Slots) (dynEnc dynDec : δ) (app : α) : Server α δ where
  phase := cpPreface
  goawaySent := false
  prefaceRecvd := false
  lastPeerStream := 0
  localSettings := { initDefaultSettings with
    enablePush := 0, maxConcurrentStreams := maxStreamSlots }
  writeBuf := Buf.empty
  rest := {
    remoteSettings := initDefaultSettings
    connSendWindow := defaultWindowSize
    connRecvWindow := defaultWindowSize
    goawayRecvd := false
    settingsAckRecvd := false
    numActive := 0
    slots := fun i => slotInit (slots i)
    dynEnc := dynEnc
    dynDec := dynDec
    app := app }

end Mx.Http2

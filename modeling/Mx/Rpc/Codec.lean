import Mx.Core.Wire
import Mx.Rpc.Frame

/-!
# RPC messages

`RpcCodec`: requests, responses and errors as the payload of a frame, with the readers and writers
of `Codec` that it uses. A view into a payload is a position and a length.
-/

namespace Mx.Rpc

open Mx.Core
open Http2 (Buf)

/-- The values of a `CARDINAL`. -/
def cardinals : Nat := 4294967296

/-- `Version`. -/
def version : Nat := 1

/-- `MsgRequest`. -/
def msgRequest : Nat := 0

/-- `MsgResponse`. -/
def msgResponse : Nat := 1

/-- `MsgError`. -/
def msgError : Nat := 2

/-! ## Writers -/

/-- `WriteU8`. -/
def writeU8 (buf : Buf) (val : Nat) : Buf := buf.appendBytes [val % 256]

/-- `WriteU16BE`. -/
def writeU16BE (buf : Buf) (val : Nat) : Buf := buf.appendBytes [val / 256 % 256, val % 256]

/-- `WriteU32BE`. -/
def writeU32BE (buf : Buf) (val : Nat) : Buf :=
  buf.appendBytes [val / 16777216 % 256, val / 65536 % 256, val / 256 % 256, val % 256]

/-- `WriteChars`; the open array has at least `n` elements or all are written. -/
def writeChars (buf : Buf) (a : List UInt8) (n : Nat) : Buf :=
  let count := if n > a.length then a.length else n
  buf.appendBytes ((a.take count).map UInt8.toNat)

/-- `WriteHeader`. -/
def writeHeader (buf : Buf) (msgType requestId : Nat) : Buf :=
  writeU32BE (writeU8 (writeU8 buf version) msgType) requestId

/-- The end of every message: the length of the body and the body. -/
def writeBody (buf : Buf) (body : List UInt8) : Buf :=
  let buf := writeU32BE buf body.length
  if body.length > 0 then (buf.appendView body).1 else buf

/-- A text of at most so many characters of an open array, after its length. -/
def writeText (buf : Buf) (text : List UInt8) (textLen : Nat) : Buf :=
  let ml := if textLen > text.length then text.length else textLen
  writeChars (writeU16BE buf ml) text ml

/-- `EncodeRequest`. -/
def encodeRequest (requestId : Nat) (method : List UInt8) (methodLen : Nat) (body : List UInt8) :
    Buf :=
  writeBody (writeText (writeHeader Buf.empty msgRequest requestId) method methodLen) body

/-- `EncodeResponse`. -/
def encodeResponse (requestId : Nat) (body : List UInt8) : Buf :=
  writeBody (writeHeader Buf.empty msgResponse requestId) body

/-- `EncodeError`. -/
def encodeError (requestId errCode : Nat) (errMsg : List UInt8) (errMsgLen : Nat)
    (body : List UInt8) : Buf :=
  writeBody (writeText (writeU16BE (writeHeader Buf.empty msgError requestId) errCode) errMsg
    errMsgLen) body

/-! ## Readers -/

/-- `BytesView` into a payload: the position of its base, none for `NIL`. -/
structure View where
  base : Option Nat
  len : Nat
  deriving DecidableEq, Repr

/-- The empty view. -/
def View.nil : View := ⟨none, 0⟩

/-- The bytes that a view shows. -/
def View.bytes (payload : List UInt8) (view : View) : List UInt8 :=
  match view.base with
  | none => []
  | some base => (payload.drop base).take view.len

/-- `ViewByte`; the index is a sum of cardinals. -/
def viewByte (v : List UInt8) (idx : Nat) : Nat := (v.getD (idx % cardinals) 0).toNat

/-- A reader of `Codec`; its error is `ok = FALSE`. -/
abbrev Reader (α : Type) : Type := ViewReader UInt8 Unit α

/-- `ReadU8`. -/
def readU8 : Reader Nat := fun v pos =>
  if pos ≥ v.length then .error () else .ok (viewByte v pos, pos + 1)

/-- `ReadU16BE`. -/
def readU16BE : Reader Nat := fun v pos =>
  if (pos + 2) % cardinals > v.length then .error ()
  else .ok (viewByte v (pos + 1) + viewByte v pos * 256, (pos + 2) % cardinals)

/-- `ReadU32BE`. -/
def readU32BE : Reader Nat := fun v pos =>
  if (pos + 4) % cardinals > v.length then .error ()
  else .ok (viewByte v (pos + 3) + viewByte v (pos + 2) * 256 + viewByte v (pos + 1) * 65536 +
    viewByte v pos * 16777216, (pos + 4) % cardinals)

/-- `ReadSlice`. -/
def readSlice (n : Nat) : Reader View := fun v pos =>
  if (pos + n) % cardinals > v.length then .error ()
  else .ok (⟨some pos, n⟩, (pos + n) % cardinals)

/-- The start of every message: version, type and request id. -/
def readStart (msgType : Nat) : Reader Nat :=
  readU8.bind fun ver => if ver ≠ version then .fail () else
    readU8.bind fun mt => if mt ≠ msgType then .fail () else readU32BE

/-- A text after its length. -/
def readText : Reader View := readU16BE.bind readSlice

/-- The end of every message: a body after its length. -/
def readBody : Reader View :=
  readU32BE.bind fun bl => if bl = 0 then .pure .nil else readSlice bl

/-- What a decoder gives for a payload: none for `ok = FALSE`. -/
def Reader.decode {α : Type} (r : Reader α) (payload : List UInt8) : Option α :=
  match r payload 0 with
  | .error _ => none
  | .ok (a, _) => some a

/-- `DecodeRequest`: the request id, the method and the body. -/
def decodeRequest : List UInt8 → Option (Nat × View × View) :=
  Reader.decode ((readStart msgRequest).bind fun requestId => readText.bind fun method =>
    readBody.bind fun body => .pure (requestId, method, body))

/-- `DecodeResponse`: the request id and the body. -/
def decodeResponse : List UInt8 → Option (Nat × View) :=
  Reader.decode ((readStart msgResponse).bind fun requestId =>
    readBody.bind fun body => .pure (requestId, body))

/-- `DecodeError`: the request id, the error code, the message and the body. -/
def decodeError : List UInt8 → Option (Nat × Nat × View × View) :=
  Reader.decode ((readStart msgError).bind fun requestId => readU16BE.bind fun errCode =>
    readText.bind fun errMsg => readBody.bind fun body =>
      .pure (requestId, errCode, errMsg, body))

end Mx.Rpc

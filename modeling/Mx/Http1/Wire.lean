import Mx.Http1.Client

/-!
# Responses on the wire

A response as its sender means it, the bytes that it is sent as, and what the promise of its request
is to be fulfilled with.
-/

namespace Mx.Http1

open Strings Mx.Core
open Pkg (isDigit)

/-! ## Header lines -/

/-- The white space around the value of a header. -/
def isOws (ch : UInt8) : Bool := ch = 32 || ch = 9

/-- A header, with the white space on both sides of its value. -/
structure HeaderLine where
  name : Text
  lead : Text
  value : Text
  trail : Text
  deriving DecidableEq, Repr

namespace HeaderLine

variable (h : HeaderLine)

/-- The line of a header. -/
def line : Text := h.name ++ 58 :: (h.lead ++ h.value ++ h.trail)

/-- The header as a response has it. -/
def header : Header := ⟨h.name, h.value⟩

/-- A header has this name. -/
def Named (name : String) : Prop := h.name.map toLower = text name

instance (name : String) : Decidable (h.Named name) :=
  inferInstanceAs (Decidable (h.name.map toLower = text name))

/-- A header says that the body is chunked. -/
def Chunked : Prop := h.Named "transfer-encoding" ∧ h.value.map toLower = text "chunked"

instance : Decidable h.Chunked := inferInstanceAs (Decidable (_ ∧ _))

/-- A header line that the table of headers has room for. -/
structure WellFormed : Prop where
  name : 58 ∉ h.name
  lead : h.lead.all isOws = true
  first : h.value.head?.any isOws = false
  last : h.value.getLast?.any isOws = false
  trail : h.trail.all isOws = true
  line : 13 ∉ h.line
  name_lt : h.name.length < maxHeaderName
  value_lt : h.value.length < maxHeaderVal
  line_lt : h.line.length < lineBufSize

/-- The white space of a header is what the client skips: spaces in front of the value. -/
structure Spaced : Prop where
  lead : ∀ ch ∈ h.lead, ch = 32
  trail : h.trail = []

end HeaderLine

/-- The lines of headers. -/
def headerBytes (hs : List HeaderLine) : Text := hs.flatMap fun h => h.line ++ Buffer.crlf

/-! ## Bodies -/

/-- The number that decimal digits stand for. -/
def decimal (s : Text) : Nat := s.foldl (fun n ch => n * 10 + (ch.toNat - 48)) 0

/-- The number that hexadecimal digits stand for. -/
def hexadecimal (s : Text) : Int := s.foldl (fun n ch => n * 16 + (hexDigit ch).getD 0) 0

/-- A chunk: the digits of its size, its extensions and its data. -/
structure ChunkLine where
  size : Text
  ext : Text
  data : Text
  deriving DecidableEq, Repr

/-- The bytes of a chunk. -/
def ChunkLine.bytes (k : ChunkLine) : Text :=
  k.size ++ k.ext ++ Buffer.crlf ++ k.data ++ Buffer.crlf

/-- Extensions follow a semicolon. -/
def IsExt (ext : Text) : Prop := (ext = [] ∨ ext.head? = some 59) ∧ 13 ∉ ext

/-- A chunk has data, as much as its size says. -/
structure ChunkLine.WellFormed (k : ChunkLine) : Prop where
  digits : ∀ ch ∈ k.size, (hexDigit ch).isSome
  size : hexadecimal k.size = k.data.length
  ext : IsExt k.ext
  data : k.data ≠ []

/-- How a body is delimited. -/
inductive Framing where
  | contentLength (body : Text)
  | chunked (chunks : List ChunkLine) (zeros ext : Text) (trailers : List HeaderLine)
  | untilClose (body : Text)
  deriving DecidableEq, Repr

/-- The body that is meant. -/
def Framing.body : Framing → Text
  | .contentLength body => body
  | .chunked chunks _ _ _ => chunks.flatMap ChunkLine.data
  | .untilClose body => body

/-- The bytes that it is sent as. -/
def Framing.bytes : Framing → Text
  | .contentLength body => body
  | .chunked chunks zeros ext trailers =>
    chunks.flatMap ChunkLine.bytes ++ zeros ++ ext ++ Buffer.crlf ++ headerBytes trailers ++
      Buffer.crlf
  | .untilClose body => body

/-- What the headers say is how the body is delimited. -/
def Framing.Announced (hs : List HeaderLine) : Framing → Prop
  | .contentLength body =>
    (∃ h ∈ hs, h.Named "content-length") ∧ (∀ h ∈ hs, ¬ h.Chunked) ∧
      ∀ h ∈ hs, h.Named "content-length" → h.value.all isDigit = true ∧
        decimal h.value = body.length
  | .chunked chunks zeros ext trailers =>
    (∃ h ∈ hs, h.Chunked) ∧ (∀ h ∈ hs, ¬ h.Named "content-length") ∧
      (∀ k ∈ chunks, k.WellFormed) ∧ zeros ≠ [] ∧ (∀ ch ∈ zeros, ch = 48) ∧ IsExt ext ∧
      ∀ h ∈ trailers, h.WellFormed
  | .untilClose _ => (∀ h ∈ hs, ¬ h.Named "content-length") ∧ ∀ h ∈ hs, ¬ h.Chunked

/-! ## Responses -/

/-- A response. -/
structure Message where
  code : Nat
  reason : Text
  headers : List HeaderLine
  framing : Framing
  deriving DecidableEq, Repr

namespace Message

variable (m : Message)

/-- The three digits of a status code. -/
def digits : Text :=
  [UInt8.ofNat (48 + m.code / 100), UInt8.ofNat (48 + m.code / 10 % 10),
    UInt8.ofNat (48 + m.code % 10)]

/-- The status line. -/
def statusLine : Text := text "HTTP/1.1 " ++ m.digits ++ 32 :: m.reason

/-- The bytes of a response. -/
def bytes : Text :=
  m.statusLine ++ Buffer.crlf ++ (headerBytes m.headers ++ Buffer.crlf ++ m.framing.bytes)

/-- A response that the client has room for. -/
structure WellFormed : Prop where
  code_ge : 100 ≤ m.code
  code_lt : m.code < 1000
  reason : 13 ∉ m.reason
  status_lt : m.statusLine.length < lineBufSize
  headers : ∀ h ∈ m.headers, h.WellFormed
  headers_le : m.headers.length ≤ maxHeaders
  framing : m.framing.Announced m.headers
  body_lt : m.framing.body.length < maxCap

/-- What the promise of the request is to be fulfilled with: the status code, the headers in order
and the body. -/
def decoded : Option (Int × List Header × Option Text) :=
  some (m.code, m.headers.map HeaderLine.header, some m.framing.body)

end Message

/-- What a promise was settled with: the status code, the headers and the body. -/
def Settlement.seen : Settlement → Option (Int × List Header × Option Text)
  | .fulfilled resp => some (resp.statusCode, resp.headers, resp.body.map Buffer.unread)
  | .rejected _ => none

/-- All of a response arrives: its bytes, if they say where it ends, and else the end of the
stream. -/
def Message.Arrives {τ : Type} (m : Message) (read : ReadFn τ UInt8) (pending : τ → Text) (t : τ) :
    Prop :=
  match m.framing with
  | .untilClose _ => Comes read (fun _ => False) t
  | _ => Comes read (fun t => pending t = []) t

/-- A connection whose request was sent. `PostChunked` leaves a body in its response. -/
def ConnRec.sent (body : Option Buffer) : ConnRec where
  state := .recvStatus
  recvBuf := ⟨recvBufCap, 0, [], .growable, by decide, by decide, by decide⟩
  resp := ⟨0, [], body, -1⟩
  contentLen := -1
  bodyRead := 0
  chunked := false
  headOnly := false
  chunkState := .size
  chunkRem := 0
  settled := []

end Mx.Http1

import Mx.Core.Wire
import Mx.Http2.Conn
import Mx.Http2.HpackTable

/-!
# HPACK header blocks

`EncodeHeaderBlock` and `DecodeHeaderBlock` with the integers and strings they are made of. The
encoder does not use Huffman codes, so the decoder of those is a parameter.
-/

namespace Mx.Http2

open Mx.Core ViewReader

/-! ## Integers -/

/-- `PrefixMax`. -/
def prefixMax : Nat → Nat
  | 1 => 1
  | 2 => 3
  | 3 => 7
  | 4 => 15
  | 5 => 31
  | 6 => 63
  | 7 => 127
  | 8 => 255
  | _ => 0

/-- The bytes of the loop of `EncodeInt`, with no more rounds than the number it starts with. -/
def intTail : Nat → Nat → List Nat
  | 0, v => [v]
  | fuel + 1, v => if v ≥ 128 then (v % 128 + 128) :: intTail fuel (v / 128) else [v]

/-- The first of the bytes that `EncodeInt` appends, without the mask. -/
def intFirst (value prefixBits : Nat) : Nat := min value (prefixMax prefixBits)

/-- The other bytes that `EncodeInt` appends. -/
def intRest (value prefixBits : Nat) : List Nat :=
  if value < prefixMax prefixBits then []
  else intTail (value - prefixMax prefixBits) (value - prefixMax prefixBits)

/-- `EncodeInt`. -/
def encodeInt (b : Buf) (value prefixBits mask : Nat) : Buf :=
  b.appendBytes ((mask + intFirst value prefixBits) :: intRest value prefixBits)

/-- The loop of `DecodeInt`. Each of its rounds reads a byte. -/
def decodeIntLoop : Nat → Nat → Nat → ViewReader UInt8 Fault Nat
  | 0, _, _ => fun _ _ => .error .notOk
  | fuel + 1, result, mult => fun v pos =>
    if pos ≥ v.length then .error .notOk
    else
      let byt := viewGetByte v pos
      let result := card (result + card (byt % 128 * mult))
      if byt < 128 then .ok (result, pos + 1)
      else
        let mult := card (mult * 128)
        if mult > 268435456 then .error .notOk else decodeIntLoop fuel result mult v (pos + 1)

/-- `DecodeInt`. -/
def decodeInt (firstByte prefixBits : Nat) : ViewReader UInt8 Fault Nat := fun v pos =>
  if firstByte < prefixMax prefixBits then .ok (firstByte, pos)
  else decodeIntLoop (v.length + 1) (prefixMax prefixBits) 1 v pos

/-! ## Strings -/

/-- A Huffman decoder: the bytes it decodes, and how long the result may be. -/
def HuffDecoder : Type := List UInt8 → Nat → Option (List UInt8)

/-- The byte at the position, if there is one. -/
def readByte : ViewReader UInt8 Fault Nat := fun v pos =>
  if pos ≥ v.length then .error .notOk else .ok (viewGetByte v pos, pos + 1)

/-- `CopyViewToArr`. -/
def copyViewToArr (v : List UInt8) (start n : Nat) : List UInt8 :=
  (List.range n).map fun i => UInt8.ofNat (viewGetByte v (card (start + i)))

/-- The string of the given length, of which the byte before the length says how it is coded. -/
def readString (huff : HuffDecoder) (maxLen byt encLen : Nat) :
    ViewReader UInt8 Fault (List UInt8) := fun v pos =>
  if card (pos + encLen) > v.length then .error .notOk
  else if byt ≥ 128 then
    match huff ((v.drop pos).take (card (pos + encLen) - pos)) maxLen with
    | none => .error .notOk
    | some s => .ok (s, card (pos + encLen))
  else if encLen > maxLen then .error .notOk
  else .ok (copyViewToArr v pos encLen, card (pos + encLen))

/-- `ReadLiteralString`. -/
def readLiteralString (huff : HuffDecoder) (maxLen : Nat) : ViewReader UInt8 Fault (List UInt8) :=
  readByte.bind fun byt =>
    (decodeInt (byt % 128) 7).bind fun encLen => readString huff maxLen byt encLen

/-! ## Decoding -/

/-- One field of a header block. -/
inductive Field where
  /-- A header, which may have to be inserted into the table. -/
  | header (e : HeaderEntry) (insert : Bool)
  /-- A new size of the table. -/
  | resize (size : Nat)
  deriving DecidableEq, Repr

/-- A result that does not depend on the view. -/
def lift {α : Type} (x : Except Fault α) : ViewReader UInt8 Fault α := fun _ pos =>
  match x with
  | .error e => .error e
  | .ok a => .ok (a, pos)

/-- The name of a literal field: that of an entry, or a string of its own. -/
def readName (huff : HuffDecoder) (dt : DynTable) (idx : Nat) :
    ViewReader UInt8 Fault (List UInt8) :=
  if idx > 0 then (lift (lookupIndex idx dt)).bind fun e => ViewReader.pure e.name
  else readLiteralString huff hpackMaxNameLen

/-- A literal field after its index. -/
def readLiteral (huff : HuffDecoder) (dt : DynTable) (insert : Bool) (idx : Nat) :
    ViewReader UInt8 Fault Field :=
  (readName huff dt idx).bind fun name =>
    (readLiteralString huff hpackMaxValueLen).bind fun value =>
      ViewReader.pure (.header ⟨name, value⟩ insert)

/-- The body of the loop of `DecodeHeaderBlock`, after its first byte. -/
def decodeField (huff : HuffDecoder) (dt : DynTable) (byt : Nat) : ViewReader UInt8 Fault Field :=
  if byt ≥ 128 then
    (decodeInt (byt % 128) 7).bind fun idx =>
      if idx = 0 then lift (.error .notOk)
      else (lift (lookupIndex idx dt)).bind fun e => ViewReader.pure (.header e false)
  else if byt ≥ 64 then (decodeInt (byt % 64) 6).bind (readLiteral huff dt true)
  else if byt ≥ 32 then (decodeInt (byt % 32) 5).bind fun size => ViewReader.pure (.resize size)
  else (decodeInt (byt % 16) 4).bind (readLiteral huff dt false)

/-- What `DecodeHeaderBlock` returns. -/
structure Decoded where
  table : DynTable
  headers : List HeaderEntry
  ok : Bool

/-- The loop of `DecodeHeaderBlock`. There is no result when it leaves the ring of the table. -/
def decodeLoop (huff : HuffDecoder) (v : List UInt8) (maxOut : Nat) :
    Nat → Nat → DynTable → List HeaderEntry → Option Decoded
  | 0, _, dt, headers => some ⟨dt, headers, true⟩
  | fuel + 1, pos, dt, headers =>
    if pos < v.length ∧ headers.length < maxOut then
      match decodeField huff dt (viewGetByte v pos) v (pos + 1) with
      | .error .notOk => some ⟨dt, headers, false⟩
      | .error .stray => none
      | .ok (.resize size, pos) =>
        match dynResize dt size with
        | .error _ => none
        | .ok dt => decodeLoop huff v maxOut fuel pos dt headers
      | .ok (.header e false, pos) => decodeLoop huff v maxOut fuel pos dt (headers ++ [e])
      | .ok (.header e true, pos) =>
        match dynInsert dt e with
        | .error _ => none
        | .ok dt => decodeLoop huff v maxOut fuel pos dt (headers ++ [e])
    else some ⟨dt, headers, true⟩

/-- `DecodeHeaderBlock`. Between two headers there are only new sizes, each of which reads a byte,
so there are no more rounds than this. -/
def decodeHeaderBlock (huff : HuffDecoder) (v : List UInt8) (dt : DynTable) (maxOut : Nat) :
    Option Decoded :=
  decodeLoop huff v maxOut ((maxOut + 1) * (v.length + 1)) 0 dt []

/-! ## Encoding -/

/-- `exactMatch` of `EncodeHeaderBlock`. -/
def exactMatch (e : HeaderEntry) : Bool :=
  let idx := staticFind e.name e.value false
  idx > 0 && ((staticTable idx).value == e.value && (staticTable idx).value.length > 0)

/-- The bytes that `EncodeHeaderBlock` appends for one header. -/
def encodeEntry (b : Buf) (e : HeaderEntry) : Buf :=
  let idx := staticFind e.name e.value false
  if exactMatch e then encodeInt b idx 7 128
  else
    let b :=
      if idx > 0 then encodeInt b idx 6 64
      else (encodeInt (encodeInt b 0 6 64) e.name.length 7 0).appendBytes (e.name.map UInt8.toNat)
    (encodeInt b e.value.length 7 0).appendBytes (e.value.map UInt8.toNat)

/-- `EncodeHeaderBlock`. -/
def encodeHeaderBlock (b : Buf) (dt : DynTable) : List HeaderEntry → Except Fault (Buf × DynTable)
  | [] => .ok (b, dt)
  | e :: es =>
    if exactMatch e then encodeHeaderBlock (encodeEntry b e) dt es
    else
      match dynInsert dt e with
      | .error f => .error f
      | .ok dt => encodeHeaderBlock (encodeEntry b e) dt es

end Mx.Http2

import Mx.Pkg.Semver

/-!
# The tokens of `m2json`

`Next` pulls one token after the other from a text, and `Skip` those of a whole value. A scanner
returns the position where it stops, with the text of its error.
-/

namespace Mx.M2Json

open Strings
open Pkg (isDigit)

/-- `TokenKind`. -/
inductive TokenKind where
  | jNull
  | jTrue
  | jFalse
  | jNumber
  | jString
  | jArrayStart
  | jArrayEnd
  | jObjectStart
  | jObjectEnd
  | jColon
  | jComma
  | jError
  | jEnd
  deriving DecidableEq, Repr

/-- `Token`: `len` bytes from `start` on. -/
structure Token where
  kind : TokenKind
  start : Nat
  len : Nat
  deriving DecidableEq, Repr

/-- `Parser`; it has an error if `err` is a text. -/
structure Parser where
  src : Text
  pos : Nat
  err : Option String
  deriving DecidableEq, Repr

/-- `Init`. -/
def init (src : Text) : Parser := ⟨src, 0, none⟩

/-! ## Scanners -/

/-- `IsWhitespace`. -/
def isWhitespace (ch : UInt8) : Bool := ch = 32 || ch = 9 || ch = 10 || ch = 13

/-- There is a byte at a position, and it has the property. -/
def isAt (f : UInt8 → Bool) (src : Text) (pos : Nat) : Bool := src[pos]?.any f

/-- The loop that goes on as long as the bytes have a property: `SkipWS`, and that over digits. -/
def skipWhile (f : UInt8 → Bool) (src : Text) (pos : Nat) : Nat :=
  pos + ((src.drop pos).takeWhile f).length

/-- The loop of `ScanString`, over the bytes from `pos` on. -/
def scanString (pos : Nat) : Text → Nat × Option String
  | [] => (pos, some "unterminated string")
  | ch :: cs =>
    if ch = 34 then (pos, none)
    else if ch = 92 then
      match cs with
      | [] => (pos + 1, some "unexpected end in string escape")
      | _ :: cs => scanString (pos + 2) cs
    else scanString (pos + 1) cs

/-- Digits, of which there must be one. -/
def scanDigits (src : Text) (pos : Nat) (msg : String) : Nat × Option String :=
  if isAt isDigit src pos then (skipWhile isDigit src pos, none) else (pos, some msg)

/-- The fractional part. -/
def scanFraction (src : Text) (pos : Nat) : Nat × Option String :=
  if isAt (· = 46) src pos then scanDigits src (pos + 1) "expected digit after decimal point"
  else (pos, none)

/-- The exponent part. -/
def scanExponent (src : Text) (pos : Nat) : Nat × Option String :=
  if isAt (fun ch => ch = 101 || ch = 69) src pos then
    let pos := pos + 1
    let pos := if isAt (fun ch => ch = 43 || ch = 45) src pos then pos + 1 else pos
    scanDigits src pos "expected digit in exponent"
  else (pos, none)

/-- `ScanNumber`. -/
def scanNumber (src : Text) (start : Nat) : Nat × Option String :=
  let pos := if isAt (· = 45) src start then start + 1 else start
  if isAt isDigit src pos then
    let pos := if isAt (· = 48) src pos then pos + 1 else skipWhile isDigit src pos
    match scanFraction src pos with
    | (pos, some msg) => (pos, some msg)
    | (pos, none) => scanExponent src pos
  else (pos, some "expected digit in number")

/-! ## Tokens -/

/-- The token of a structural character. -/
def structural (ch : UInt8) : Option TokenKind :=
  if ch = 123 then some .jObjectStart
  else if ch = 125 then some .jObjectEnd
  else if ch = 91 then some .jArrayStart
  else if ch = 93 then some .jArrayEnd
  else if ch = 58 then some .jColon
  else if ch = 44 then some .jComma
  else none

/-- The keyword that starts with a character. -/
def keyword (ch : UInt8) : Option (TokenKind × Text) :=
  if ch = 116 then some (.jTrue, text "true")
  else if ch = 102 then some (.jFalse, text "false")
  else if ch = 110 then some (.jNull, text "null")
  else none

/-- A token of some bytes at the position is pulled. -/
def Parser.accept (p : Parser) (kind : TokenKind) (len : Nat) : Bool × Token × Parser :=
  (true, ⟨kind, p.pos, len⟩, { p with pos := p.pos + len })

/-- `SetError`, with the token that is returned. -/
def Parser.fail (p : Parser) (tok : Token) (pos : Nat) (msg : String) : Bool × Token × Parser :=
  (false, tok, { p with pos, err := some msg })

/-- `Next` behind the white space, at a character. -/
def Parser.nextAt (p : Parser) (ch : UInt8) : Bool × Token × Parser :=
  match structural ch with
  | some kind => p.accept kind 1
  | none =>
    if ch = 34 then
      match scanString (p.pos + 1) (p.src.drop (p.pos + 1)) with
      | (pos, none) => (true, ⟨.jString, p.pos + 1, pos - (p.pos + 1)⟩, { p with pos := pos + 1 })
      | (pos, some msg) => p.fail ⟨.jError, p.pos + 1, 0⟩ pos msg
    else if isDigit ch || ch = 45 then
      match scanNumber p.src p.pos with
      | (pos, none) => (true, ⟨.jNumber, p.pos, pos - p.pos⟩, { p with pos })
      | (pos, some msg) => p.fail ⟨.jError, p.pos, pos - p.pos⟩ pos msg
    else
      match keyword ch with
      | some (kind, kw) =>
        if kw.isPrefixOf (p.src.drop p.pos) then p.accept kind kw.length
        else p.fail ⟨.jError, p.pos, 0⟩ p.pos "invalid token"
      | none => p.fail ⟨.jError, p.pos, 1⟩ p.pos "unexpected character"

/-- `SkipWS`. -/
def Parser.skipWS (p : Parser) : Parser := { p with pos := skipWhile isWhitespace p.src p.pos }

/-- `Next`. -/
def Parser.next (p : Parser) : Bool × Token × Parser :=
  match p.err with
  | some _ => (false, ⟨.jError, p.pos, 0⟩, p)
  | none =>
    match p.skipWS.src[p.skipWS.pos]? with
    | none => (false, ⟨.jEnd, p.skipWS.pos, 0⟩, p.skipWS)
    | some ch => p.skipWS.nextAt ch

/-- The text of a token. -/
def Token.text (src : Text) (tok : Token) : Text := (src.drop tok.start).take tok.len

end Mx.M2Json

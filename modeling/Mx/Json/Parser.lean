import Mx.Json.Value

/-!
# The JSON parser

The parser reads characters one after the other. Its position is represented by the characters that
are left. Recursion is bounded by a depth, which is never reached when it is large enough.
-/

namespace Mx.Json

open Mx.Core

/-- What the parser reports. The characters that are left tell the position. -/
inductive JsonError where
  | expected (ch : Char) (got : Option Char) (rest : List Char)
  | unexpectedChar (c : Char) (rest : List Char)
  | unexpectedEof
  | unterminatedEscape
  | unterminatedString
  | badNumber (num : List Char)
  | expectedBool (rest : List Char)
  | expectedNull (rest : List Char)
  | expectedEither (ch : Char) (rest : List Char)
  | tooDeep
  deriving DecidableEq, Repr

/-- The text of an error, in a text of so many characters. -/
def JsonError.text (size : Nat) : JsonError → String
  | .expected ch none _ => "expected '" ++ ch.toString ++ "', got EOF"
  | .expected ch (some c) rest => "expected '" ++ ch.toString ++ "', got '" ++ c.toString ++
      "' at pos " ++ toString (size - rest.length)
  | .unexpectedChar c rest =>
    "unexpected char '" ++ c.toString ++ "' at pos " ++ toString (size - rest.length)
  | .unexpectedEof => "unexpected EOF"
  | .unterminatedEscape => "unterminated escape"
  | .unterminatedString => "unterminated string"
  | .badNumber num => "bad number '" ++ String.ofList num ++ "': invalid float literal"
  | .expectedBool rest => "expected bool at pos " ++ toString (size - rest.length)
  | .expectedNull rest => "expected null at pos " ++ toString (size - rest.length)
  | .expectedEither ch rest =>
    "expected ',' or '" ++ ch.toString ++ "' at pos " ++ toString (size - rest.length)
  | .tooDeep => ""

/-- A value with the characters behind it. -/
abbrev Parsed (α : Type) : Type := Except JsonError (α × List Char)

/-- `char::is_whitespace`: the characters with the property White_Space. -/
def isWhitespace (c : Char) : Bool :=
  let n := c.toNat
  (9 ≤ n && n ≤ 13) || n == 32 || n == 133 || n == 160 || n == 5760 ||
    (8192 ≤ n && n ≤ 8202) || n == 8232 || n == 8233 || n == 8239 || n == 8287 || n == 12288

/-- `skip_ws`. -/
def skipWs (l : List Char) : List Char := l.dropWhile isWhitespace

/-- `expect`. -/
def expect (ch : Char) (l : List Char) : Except JsonError (List Char) :=
  match skipWs l with
  | [] => .error (.expected ch none [])
  | c :: l => if c = ch then .ok l else .error (.expected ch (some c) l)

/-- What an escaped character is pushed as. -/
def unescape (c : Char) : List Char :=
  if c = 'n' then ['\n']
  else if c = 't' then ['\t']
  else if c = '\\' then ['\\']
  else if c = '"' then ['"']
  else if c = '/' then ['/']
  else ['\\', c]

/-- The loop of `parse_string`. -/
def stringLoop : List Char → Parsed (List Char)
  | [] => .error .unterminatedString
  | ['\\'] => .error .unterminatedEscape
  | '"' :: l => .ok ([], l)
  | '\\' :: c :: l =>
    match stringLoop l with
    | .error e => .error e
    | .ok (s, l) => .ok (unescape c ++ s, l)
  | c :: l =>
    match stringLoop l with
    | .error e => .error e
    | .ok (s, l) => .ok (c :: s, l)

/-- `parse_string`. -/
def parseString (l : List Char) : Parsed (List Char) :=
  match expect '"' l with
  | .error e => .error e
  | .ok l => stringLoop l

/-- The characters that the loop of `parse_number` looks for. -/
def isNumberChar (c : Char) : Bool :=
  c.isDigit || c == '.' || c == 'e' || c == 'E' || c == '+' || c == '-'

/-- The loop of `parse_number`, behind so many characters of which this is the last one. A sign goes
on only behind an exponent or as the second character. -/
def numberLoop : Nat → Char → List Char → List Char × List Char
  | _, _, [] => ([], [])
  | n, prev, c :: l =>
    if isNumberChar c then
      if (c = '+' ∨ c = '-') ∧ n > 1 ∧ prev ≠ 'e' ∧ prev ≠ 'E' then ([], c :: l)
      else
        let r := numberLoop (n + 1) c l
        (c :: r.1, r.2)
    else ([], c :: l)

/-- The characters that `parse_number` takes for a number. -/
def scanNumber : List Char → List Char × List Char
  | '-' :: l =>
    let r := numberLoop 1 '-' l
    ('-' :: r.1, r.2)
  | l => numberLoop 0 ' ' l

/-- `parse_number`. -/
def parseNumber (l : List Char) : Parsed Json :=
  let r := scanNumber l
  match F64.parse r.1 with
  | none => .error (.badNumber r.1)
  | some x => .ok (.number x, r.2)

/-- `parse_bool`. -/
def parseBool : List Char → Parsed Json
  | 't' :: 'r' :: 'u' :: 'e' :: l => .ok (.bool true, l)
  | 'f' :: 'a' :: 'l' :: 's' :: 'e' :: l => .ok (.bool false, l)
  | l => .error (.expectedBool l)

/-- `parse_null`. -/
def parseNull : List Char → Parsed Json
  | 'n' :: 'u' :: 'l' :: 'l' :: l => .ok (.null, l)
  | l => .error (.expectedNull l)

mutual

/-- `parse_value`. -/
def parseValue : Nat → List Char → Parsed Json
  | 0, _ => .error .tooDeep
  | depth + 1, l =>
    match skipWs l with
    | [] => .error .unexpectedEof
    | c :: l =>
      if c = '"' then
        match parseString (c :: l) with
        | .error e => .error e
        | .ok (s, l) => .ok (.str s, l)
      else if c = '\x7b' then parseObject depth l
      else if c = '[' then parseArray depth l
      else if c = 't' ∨ c = 'f' then parseBool (c :: l)
      else if c = 'n' then parseNull (c :: l)
      else if c = '-' ∨ c.isDigit = true then parseNumber (c :: l)
      else .error (.unexpectedChar c (c :: l))

/-- `parse_array` behind the bracket. -/
def parseArray : Nat → List Char → Parsed Json
  | 0, _ => .error .tooDeep
  | depth + 1, l =>
    match skipWs l with
    | ']' :: l => .ok (.array [], l)
    | l => arrayLoop depth [] l

/-- The loop of `parse_array`. -/
def arrayLoop : Nat → List Json → List Char → Parsed Json
  | 0, _, _ => .error .tooDeep
  | depth + 1, arr, l =>
    match parseValue depth l with
    | .error e => .error e
    | .ok (v, l) =>
      match skipWs l with
      | ',' :: l => arrayLoop depth (arr ++ [v]) l
      | ']' :: l => .ok (.array (arr ++ [v]), l)
      | l => .error (.expectedEither ']' l)

/-- `parse_object` behind the brace. -/
def parseObject : Nat → List Char → Parsed Json
  | 0, _ => .error .tooDeep
  | depth + 1, l =>
    match skipWs l with
    | '\x7d' :: l => .ok (.object [], l)
    | l => objectLoop depth [] l

/-- The loop of `parse_object`. -/
def objectLoop : Nat → List (List Char × Json) → List Char → Parsed Json
  | 0, _, _ => .error .tooDeep
  | depth + 1, entries, l =>
    match parseString (skipWs l) with
    | .error e => .error e
    | .ok (key, l) =>
      match expect ':' (skipWs l) with
      | .error e => .error e
      | .ok l =>
        match parseValue depth l with
        | .error e => .error e
        | .ok (val, l) =>
          match skipWs l with
          | ',' :: l => objectLoop depth (entries ++ [(key, val)]) l
          | '\x7d' :: l => .ok (.object (entries ++ [(key, val)]), l)
          | l => .error (.expectedEither '\x7d' l)

end

/-- `parse`. What is behind the value is not looked at. -/
def parse (input : List Char) : Except String Json :=
  match parseValue (4 * input.length + 4) (skipWs input) with
  | .error e => .error (e.text input.length)
  | .ok (v, _) => .ok v

end Mx.Json

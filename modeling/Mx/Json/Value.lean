import Mx.Core.Float64

/-!
# JSON values

The values of build plans and of the editor protocol, and how they are written.
-/

namespace Mx.Json

open Mx.Core

/-- `Json`. -/
inductive Json where
  | null
  | bool (b : Bool)
  | number (n : F64)
  | str (s : List Char)
  | array (items : List Json)
  | object (entries : List (List Char × Json))

/-- An integer in decimal digits. -/
def showInt (n : Int) : List Char :=
  if n < 0 then '-' :: Nat.toDigits 10 n.natAbs else Nat.toDigits 10 n.natAbs

/-- `{:04x}`. -/
def hex4 (n : Nat) : List Char :=
  List.replicate (4 - (Nat.toDigits 16 n).length) '0' ++ Nat.toDigits 16 n

/-- What `write_to` pushes for a character of a string. -/
def writeChar (ch : Char) : List Char :=
  if ch = '"' then ['\\', '"']
  else if ch = '\\' then ['\\', '\\']
  else if ch = '\n' then ['\\', 'n']
  else if ch = '\t' then ['\\', 't']
  else if ch = '\r' then ['\\', 'r']
  else if ch.toNat < 32 then '\\' :: 'u' :: hex4 ch.toNat
  else [ch]

/-- `write_to` of a string. -/
def writeStr (s : List Char) : List Char := '"' :: (s.flatMap writeChar ++ ['"'])

/-- `write_to` of a number. The text of a number that is no integer is that of its `to_string`. -/
def writeNumber (display : F64 → List Char) (n : F64) : List Char :=
  if n.eq (.ofInt n.toI64) && n.isFinite then showInt n.toI64 else display n

mutual

/-- `write_to`. -/
def writeTo (display : F64 → List Char) : Json → List Char
  | .null => ['n', 'u', 'l', 'l']
  | .bool true => ['t', 'r', 'u', 'e']
  | .bool false => ['f', 'a', 'l', 's', 'e']
  | .number n => writeNumber display n
  | .str s => writeStr s
  | .array items => '[' :: (writeItems display items ++ [']'])
  | .object entries => '\x7b' :: (writeEntries display entries ++ ['\x7d'])

/-- The items of an array with commas between them. -/
def writeItems (display : F64 → List Char) : List Json → List Char
  | [] => []
  | [item] => writeTo display item
  | item :: next :: items => writeTo display item ++ ',' :: writeItems display (next :: items)

/-- The entries of an object with commas between them. -/
def writeEntries (display : F64 → List Char) : List (List Char × Json) → List Char
  | [] => []
  | [(key, val)] => writeStr key ++ ':' :: writeTo display val
  | (key, val) :: next :: entries =>
    writeStr key ++ ':' :: (writeTo display val ++ ',' :: writeEntries display (next :: entries))

end

/-- `serialize`. -/
def serialize (display : F64 → List Char) (j : Json) : List Char := writeTo display j

end Mx.Json

import Mx.Lexer.Token

/-!
# The lexer

`lexer.rs`. The position of the lexer is the text that is left. A function that reads something
returns what it read with the text behind it, and an error names the place it is about in the same
way; lines and columns are counted from the two at the end.
-/

namespace Mx

open List

/-- `Lexer`: its settings. `parseReal` is the standard library's reading of a real number. -/
structure Lexer where
  file : String
  features : List String
  caseSensitive : Bool
  m2plus : Bool
  parseReal : String → Option UInt64

namespace Lexer

/-- An error of the lexer, at the place from which on there is this text. -/
structure Fault where
  place : List Char
  message : String
  deriving DecidableEq, Repr

/-- What is read from the front of a text, with the text behind it. -/
abbrev Reading (α : Type) := Except Fault (α × List Char)

/-! ## Characters -/

/-- `char::is_ascii_whitespace`. -/
def isWhitespace (c : Char) : Bool :=
  c == ' ' || c == '\t' || c == '\n' || c == '\x0c' || c == '\r'

/-- `char::is_ascii_hexdigit`. -/
def isHexDigit (c : Char) : Bool :=
  c.isDigit || 'a' ≤ c && c ≤ 'f' || 'A' ≤ c && c ≤ 'F'

/-- A letter, a digit or an underscore. -/
def isWord (c : Char) : Bool := c.isAlphanum || c == '_'

/-- A digit below eight. -/
def isOctal (c : Char) : Bool := '0' ≤ c && c ≤ '7'

/-- `skip_whitespace`. -/
def skipWhitespace (cs : List Char) : List Char := cs.dropWhile isWhitespace

/-- White space as `str::trim` takes it. -/
def isUnicodeSpace (c : Char) : Bool :=
  9 ≤ c.toNat && c.toNat ≤ 13 || c.toNat == 0x20 || c.toNat == 0x85 || c.toNat == 0xA0 ||
    c.toNat == 0x1680 || 0x2000 ≤ c.toNat && c.toNat ≤ 0x200A || c.toNat == 0x2028 ||
    c.toNat == 0x2029 || c.toNat == 0x202F || c.toNat == 0x205F || c.toNat == 0x3000

/-- `str::trim`. -/
def trim (cs : List Char) : List Char :=
  ((cs.dropWhile isUnicodeSpace).reverse.dropWhile isUnicodeSpace).reverse

/-! ## Comments and pragmas -/

/-- The loop over a comment: it ends when as many comments are closed as are open, or fails at the
end of the text. -/
def skipNested : Nat → List Char → Option (List Char)
  | 0, cs => some cs
  | _ + 1, [] => none
  | depth + 1, '(' :: '*' :: cs => skipNested (depth + 2) cs
  | depth + 1, '*' :: ')' :: cs => skipNested depth cs
  | depth + 1, _ :: cs => skipNested (depth + 1) cs

@[simp] theorem skipNested_zero (cs : List Char) : skipNested 0 cs = some cs := by
  rw [skipNested]

/-- The loop over a doc comment, which also collects its content. -/
def readDoc : Nat → List Char → Option (List Char × List Char)
  | 0, cs => some ([], cs)
  | _ + 1, [] => none
  | depth + 1, '(' :: '*' :: cs =>
    (readDoc (depth + 2) cs).map fun (content, rest) => ('(' :: '*' :: content, rest)
  | depth + 1, '*' :: ')' :: cs =>
    (readDoc depth cs).map fun (content, rest) =>
      (if depth = 0 then content else '*' :: ')' :: content, rest)
  | depth + 1, c :: cs =>
    (readDoc (depth + 1) cs).map fun (content, rest) => (c :: content, rest)

@[simp] theorem readDoc_zero (cs : List Char) : readDoc 0 cs = some ([], cs) := by
  rw [readDoc]

/-- `skip_pragma_close`. -/
def skipPragmaClose : List Char → Option (List Char)
  | [] => none
  | '*' :: ')' :: cs => some cs
  | _ :: cs => skipPragmaClose cs

theorem length_skipPragmaClose {cs rest : List Char} (h : skipPragmaClose cs = some rest) :
    rest.length < cs.length := by
  fun_induction skipPragmaClose cs with
  | case1 => cases h
  | case2 cs =>
    obtain rfl := Option.some.inj h
    simp only [length_cons]
    omega
  | case3 c cs _ ih => exact Nat.lt_succ_of_lt (ih h)

theorem length_skipNested {depth : Nat} {cs rest : List Char}
    (h : skipNested depth cs = some rest) : rest.length + depth ≤ cs.length := by
  fun_induction skipNested depth cs with
  | case1 => exact Nat.le_of_eq (congrArg List.length (Option.some.inj h).symm)
  | case2 => cases h
  | case3 depth cs ih | case4 depth cs ih | case5 depth c cs _ _ ih =>
    have := ih h
    simp only [length_cons]
    omega

theorem length_dropWhile_le (p : Char → Bool) (cs : List Char) :
    (cs.dropWhile p).length ≤ cs.length := (dropWhile_suffix p).length_le

/-- `skip_disabled_block`, from the place `start` on. -/
def skipDisabledBlock (stopAtElse : Bool) (start : List Char) (depth : Nat) (cs : List Char) :
    Except Fault (List Char) :=
  match cs with
  | [] => .error ⟨start, "unterminated (*$IF*) block"⟩
  | '(' :: '*' :: '$' :: cs =>
    let dir := cs.takeWhile isWord
    match hclose : skipPragmaClose (cs.dropWhile isWord) with
    | none => .error ⟨cs.dropWhile isWord, "unterminated pragma"⟩
    | some rest =>
      if dir = ['I', 'F'] then skipDisabledBlock stopAtElse start (depth + 1) rest
      else if dir = ['E', 'L', 'S', 'E'] ∧ depth = 0 ∧ stopAtElse = true then .ok rest
      else if dir = ['E', 'N', 'D'] then
        if depth = 0 then .ok rest else skipDisabledBlock stopAtElse start (depth - 1) rest
      else skipDisabledBlock stopAtElse start depth rest
  | '(' :: '*' :: cs =>
    match hskip : skipNested 1 cs with
    | none => .error ⟨start, "unterminated comment in disabled block"⟩
    | some rest => skipDisabledBlock stopAtElse start depth rest
  | _ :: cs => skipDisabledBlock stopAtElse start depth cs
termination_by cs.length
decreasing_by
  all_goals first
    | (have h1 := length_skipPragmaClose hclose
       have h2 := length_dropWhile_le isWord cs
       simp only [length_cons]
       omega)
    | (have h1 := length_skipNested hskip
       simp only [length_cons]
       omega)
    | simp only [length_cons, Nat.lt_succ_self]

section Tokens

variable (lx : Lexer)

/-- The token of a pragma, at the end of `read_pragma`. -/
def pragmaToken (start directive : List Char) (arg : Option (List Char)) (cs : List Char) :
    Reading (Option TokenKind) :=
  match skipPragmaClose cs with
  | none => .error ⟨start, "unterminated pragma"⟩
  | some rest => .ok (some (.pragma (String.ofList directive) (arg.map String.ofList)), rest)

/-- The end of `read_pragma`, from its argument on, if there is one. -/
def readArg (start directive : List Char) : List Char → Reading (Option TokenKind)
  | '"' :: cs =>
    match cs.dropWhile (· != '"') with
    | [] => .error ⟨start, "unterminated string in pragma"⟩
    | _ :: rest => pragmaToken start directive (some (cs.takeWhile (· != '"'))) rest
  | cs => pragmaToken start directive none cs

/-- `read_pragma`, of the pragma at `start`. Without a token when it is one of the three for
conditional compilation. -/
def readPragma (start cs : List Char) : Reading (Option TokenKind) :=
  let directive := cs.takeWhile isWord
  let rest := cs.dropWhile isWord
  let unterminated : Reading (Option TokenKind) := .error ⟨start, "unterminated pragma"⟩
  if directive = [] then .error ⟨start, "expected pragma directive name after (*$"⟩
  else if directive = ['I', 'F'] then
    let rest := skipWhitespace rest
    let featureName := rest.takeWhile isWord
    match skipPragmaClose (rest.dropWhile isWord) with
    | none => unterminated
    | some rest =>
      if String.ofList featureName ∈ lx.features then .ok (none, rest)
      else (skipDisabledBlock true rest 0 rest).map fun rest => (none, rest)
  else if directive = ['E', 'L', 'S', 'E'] then
    match skipPragmaClose rest with
    | none => unterminated
    | some rest => (skipDisabledBlock false rest 0 rest).map fun rest => (none, rest)
  else if directive = ['E', 'N', 'D'] then
    match skipPragmaClose rest with
    | none => unterminated
    | some rest => .ok (none, rest)
  else
    readArg start directive (skipWhitespace rest)

/-- The end of `skip_comment` for a comment that is left out. -/
def comment (start : List Char) (rest : Option (List Char)) : Reading (Option TokenKind) :=
  match rest with
  | none => .error ⟨start, "unterminated comment"⟩
  | some rest => .ok (none, rest)

/-- The end of `skip_comment` for a doc comment. -/
def docComment (start : List Char) (doc : Option (List Char × List Char)) :
    Reading (Option TokenKind) :=
  match doc with
  | none => .error ⟨start, "unterminated doc comment"⟩
  | some (content, rest) =>
    if trim content = [] then .ok (none, rest)
    else .ok (some (.docComment (String.ofList (trim content))), rest)

/-- `skip_comment` at `start`, behind the opening characters. -/
def skipComment (start : List Char) : List Char → Reading (Option TokenKind)
  | '$' :: cs => readPragma lx start cs
  | '*' :: '*' :: cs => comment start (skipNested 1 ('*' :: cs))
  | '*' :: cs => docComment start (readDoc 1 cs)
  | '!' :: cs => docComment start (readDoc 1 cs)
  | cs => comment start (skipNested 1 cs)

/-- `read_string`, behind the opening quote. -/
def readString (start : List Char) (quote : Char) (cs : List Char) : Reading (Option TokenKind) :=
  match cs.dropWhile fun c => c != '\n' && c != quote with
  | [] => .error ⟨start, "unterminated string literal"⟩
  | c :: rest =>
    if c = quote then
      .ok (some (.stringLit (String.ofList (cs.takeWhile fun c => c != '\n' && c != quote))), rest)
    else .error ⟨start, "unterminated string literal"⟩

/-! ## Numbers -/

/-- The value of a digit. -/
def digitValue (c : Char) : Nat :=
  if c.isDigit then c.toNat - '0'.toNat
  else if 'a' ≤ c then c.toNat - 'a'.toNat + 10
  else c.toNat - 'A'.toNat + 10

/-- The number that digits stand for. -/
def numeral (radix : Nat) (digits : List Char) : Nat :=
  digits.foldl (fun n c => n * radix + digitValue c) 0

/-- `from_str_radix` on digits: `None` when there are none, when one of them is not of the radix,
or when the number is too large. -/
def fromStrRadix (radix limit : Nat) (digits : List Char) : Option Nat :=
  if digits ≠ [] ∧ (∀ c ∈ digits, digitValue c < radix) ∧ numeral radix digits < limit then
    some (numeral radix digits)
  else none

/-- `char::from_u32`. -/
def fromU32 (n : Nat) : Option Char := if h : n.isValidChar then some (Char.ofNatAux n h) else none

/-- An octal number before its suffix. -/
def octalLit (start digits rest : List Char) : Reading (Option TokenKind) :=
  match fromStrRadix 8 (2 ^ 63) digits with
  | none => .error ⟨start, "invalid octal literal"⟩
  | some n => .ok (some (.intLit n), rest)

/-- An octal character code before its suffix. -/
def octalCharLit (start digits rest : List Char) : Reading (Option TokenKind) :=
  match fromStrRadix 8 (2 ^ 32) digits with
  | none => .error ⟨start, "invalid octal char literal"⟩
  | some n =>
    match fromU32 n with
    | none => .error ⟨start, "invalid character value"⟩
    | some c => .ok (some (.charLit c), rest)

/-- The sign of an exponent, and the text behind it. -/
def readSign : List Char → List Char × List Char
  | c :: cs => if c = '+' ∨ c = '-' then ([c], cs) else ([], c :: cs)
  | [] => ([], [])

/-- The exponent of a real number, and the text behind it. -/
def readExponent : List Char → List Char × List Char
  | c :: cs =>
    if c = 'E' ∨ c = 'e' ∨ c = 'D' ∨ c = 'd' then
      ('E' :: (readSign cs).1 ++ (readSign cs).2.takeWhile Char.isDigit,
        (readSign cs).2.dropWhile Char.isDigit)
    else ([], c :: cs)
  | [] => ([], [])

/-- A real number from the digits behind its point on. -/
def realLit (start digits rest : List Char) : Reading (Option TokenKind) :=
  let fraction := rest.takeWhile Char.isDigit
  let exponent := readExponent (rest.dropWhile Char.isDigit)
  match lx.parseReal (String.ofList (digits ++ '.' :: fraction ++ exponent.1)) with
  | none => .error ⟨start, "invalid real literal"⟩
  | some bits => .ok (some (.realLit bits), exponent.2)

/-- A plain decimal number. -/
def decimalLit (start digits rest : List Char) : Reading (Option TokenKind) :=
  if digits.all Char.isDigit then
    match fromStrRadix 10 (2 ^ 63) digits with
    | none => .error ⟨start, "integer literal too large"⟩
    | some n => .ok (some (.intLit n), rest)
  else
    .error ⟨start,
      "invalid number '" ++ String.ofList digits ++ "' (hex digits require H suffix)"⟩

/-- The end of `read_number`: a number without a suffix. -/
def unsuffixed (start digits rest : List Char) : Reading (Option TokenKind) :=
  match rest with
  | '.' :: next :: cs =>
    if next.isDigit then realLit lx start digits (next :: cs) else decimalLit start digits rest
  | _ => decimalLit start digits rest

/-- The end of `read_number`: a suffix behind a single digit. -/
def singleDigit (start digits rest : List Char) : Reading (Option TokenKind) :=
  match rest with
  | c :: cs =>
    if digits.length = 1 ∧ digits.all isOctal = true then
      if c = 'B' ∨ c = 'b' then octalLit start digits cs
      else if c = 'C' ∨ c = 'c' then octalCharLit start digits cs
      else unsuffixed lx start digits rest
    else unsuffixed lx start digits rest
  | [] => unsuffixed lx start digits rest

/-- A hexadecimal number before its suffix. -/
def hexLit (start digits rest : List Char) : Reading (Option TokenKind) :=
  match fromStrRadix 16 (2 ^ 63) digits with
  | none => .error ⟨start, "invalid hex literal"⟩
  | some n => .ok (some (.intLit n), rest)

/-- The rest of `read_number`, where no `H` follows the digits. -/
def lastDigit (start digits rest : List Char) : Reading (Option TokenKind) :=
  if digits.length > 1 ∧ digits.dropLast.all isOctal = true then
    let last := digits.getLast?
    if last = some 'B' ∨ last = some 'b' then octalLit start digits.dropLast rest
    else if last = some 'C' ∨ last = some 'c' then octalCharLit start digits.dropLast rest
    else singleDigit lx start digits rest
  else singleDigit lx start digits rest

/-- `read_number`. -/
def readNumber (cs : List Char) : Reading (Option TokenKind) :=
  let digits := cs.takeWhile isHexDigit
  match cs.dropWhile isHexDigit with
  | c :: rest =>
    if c = 'H' ∨ c = 'h' then hexLit cs digits rest else lastDigit lx cs digits (c :: rest)
  | [] => lastDigit lx cs digits []

/-! ## Tokens -/

/-- `read_ident_or_keyword`. -/
def readIdentOrKeyword (cs : List Char) : Reading (Option TokenKind) :=
  let name := cs.takeWhile isWord
  let ident : TokenKind :=
    .ident (String.ofList (if lx.caseSensitive then name else name.map Char.toUpper))
  let kind :=
    if name.all fun c => !c.isLower then
      (TokenKind.keywordFromStr (String.ofList name) lx.m2plus).getD ident
    else ident
  .ok (some kind, cs.dropWhile isWord)

/-- The characters that are tokens by themselves. -/
def punctuation : List (Char × TokenKind) :=
  [('+', .plus), ('-', .minus), ('*', .star), ('/', .slash), ('=', .eq), ('#', .hash),
    (',', .comma), (';', .semi), (')', .rParen), ('[', .lBrack), (']', .rBrack), ('\x7b', .lBrace),
    ('\x7d', .rBrace), ('^', .caret), ('|', .pipe), ('&', .ampersand), ('~', .tilde)]

/-- A token of other characters than letters, digits and quotes. -/
def readSymbol (cs : List Char) : Reading (Option TokenKind) :=
  match cs with
  | ':' :: '=' :: rest => .ok (some .assign, rest)
  | ':' :: rest => .ok (some .colon, rest)
  | '.' :: '.' :: rest => .ok (some .dotDot, rest)
  | '.' :: rest => .ok (some .dot, rest)
  | '<' :: '=' :: rest => .ok (some .le, rest)
  | '<' :: '>' :: rest => .ok (some .notEq, rest)
  | '<' :: rest => .ok (some .lt, rest)
  | '>' :: '=' :: rest => .ok (some .ge, rest)
  | '>' :: rest => .ok (some .gt, rest)
  | c :: rest =>
    match punctuation.lookup c with
    | some kind => .ok (some kind, rest)
    | none => .error ⟨cs, "unexpected character '" ++ String.ofList [c] ++ "'"⟩
  | [] => .ok (some .eof, [])

/-- One round of the loop of `next_token`, behind white space. A round without a token has read a
comment or a pragma for conditional compilation. -/
def round (cs : List Char) : Reading (Option TokenKind) :=
  match cs with
  | [] => .ok (some .eof, [])
  | '(' :: '*' :: rest => skipComment lx cs rest
  | '(' :: rest => .ok (some .lParen, rest)
  | c :: rest =>
    if c = '"' ∨ c = '\'' then readString cs c rest
    else if c.isDigit then readNumber lx cs
    else if c.isAlpha then readIdentOrKeyword lx cs
    else readSymbol cs

end Tokens

end Lexer

end Mx

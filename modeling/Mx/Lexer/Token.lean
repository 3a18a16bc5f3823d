import Mathlib

/-!
# Tokens

`token.rs`. A reserved word is spelled as in the language. A real literal holds the bits of its
value.
-/

namespace Mx

/-- `TokenKind`. -/
inductive TokenKind where
  | intLit (v : Int)
  | realLit (bits : UInt64)
  | stringLit (s : String)
  | charLit (c : Char)
  | ident (name : String)
  | AND | ARRAY | AS | BEGIN | BY | CASE | CONST | DEFINITION | DIV | DO | ELSE | ELSIF | END
  | EXCEPT | EXIT | EXPORT | FINALLY | FOR | FROM | IF | IMPLEMENTATION | IMPORT | IN | LOOP
  | MOD | MODULE | NOT | OF | OR | POINTER | PROCEDURE | QUALIFIED | RAISE | RECORD | REPEAT
  | RETRY | RETURN | SET | THEN | TO | TYPE | UNTIL | VAR | WHILE | WITH
  | BRANDED | EXCEPTION | LOCK | METHODS | OBJECT | OVERRIDE | REF | REFANY | REVEAL | SAFE
  | TRY | TYPECASE | UNSAFE
  | plus | minus | star | slash | assign | eq | hash | notEq | lt | gt | le | ge | dotDot | dot
  | comma | semi | colon | lParen | rParen | lBrack | rBrack | lBrace | rBrace | caret | pipe
  | ampersand | tilde
  | pragma (directive : String) (arg : Option String)
  | docComment (text : String)
  | eof
  deriving DecidableEq

namespace TokenKind

/-- The reserved words that are always recognized. -/
def keywords : List (String × TokenKind) :=
  [("AND", AND), ("ARRAY", ARRAY), ("BEGIN", BEGIN), ("BY", BY), ("CASE", CASE),
    ("CONST", CONST), ("DEFINITION", DEFINITION), ("DIV", DIV), ("DO", DO), ("ELSE", ELSE),
    ("ELSIF", ELSIF), ("END", END), ("EXIT", EXIT), ("EXPORT", EXPORT), ("FOR", FOR),
    ("FROM", FROM), ("IF", IF), ("IMPLEMENTATION", IMPLEMENTATION), ("IMPORT", IMPORT), ("IN", IN),
    ("LOOP", LOOP), ("MOD", MOD), ("MODULE", MODULE), ("NOT", NOT), ("OF", OF), ("OR", OR),
    ("POINTER", POINTER), ("PROCEDURE", PROCEDURE), ("QUALIFIED", QUALIFIED), ("RECORD", RECORD),
    ("REPEAT", REPEAT), ("RETURN", RETURN), ("SET", SET), ("THEN", THEN), ("TO", TO),
    ("TYPE", TYPE), ("UNTIL", UNTIL), ("VAR", VAR), ("WHILE", WHILE), ("WITH", WITH)]

/-- The reserved words of Modula-2+. -/
def m2plusKeywords : List (String × TokenKind) :=
  [("AS", AS), ("BRANDED", BRANDED), ("EXCEPT", EXCEPT), ("EXCEPTION", EXCEPTION),
    ("FINALLY", FINALLY), ("LOCK", LOCK), ("METHODS", METHODS), ("OBJECT", OBJECT),
    ("OVERRIDE", OVERRIDE), ("RAISE", RAISE), ("REF", REF), ("REFANY", REFANY), ("RETRY", RETRY),
    ("REVEAL", REVEAL), ("SAFE", SAFE), ("TRY", TRY), ("TYPECASE", TYPECASE), ("UNSAFE", UNSAFE)]

/-- `keyword_from_str`. -/
def keywordFromStr (s : String) (m2plus : Bool) : Option TokenKind :=
  (keywords.lookup s).or (if m2plus then m2plusKeywords.lookup s else none)

end TokenKind

end Mx

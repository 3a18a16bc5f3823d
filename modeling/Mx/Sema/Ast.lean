import Mx.Hir.Syntax

/-!
# Abstract syntax

Expressions and designators as the parser leaves them, before names are resolved. A qualified name
`M.x` of an expression is the name `M` with the selector `x`.
-/

namespace Mx.Ast

/-- A possibly qualified identifier. -/
structure QualIdent where
  moduleName : Option String
  name : String
  deriving DecidableEq, Repr

mutual

/-- An expression with its position. -/
structure Expr where
  kind : ExprKind
  loc : SourceLoc

/-- The expression forms. -/
inductive ExprKind where
  | intLit (v : Int)
  | realLit (bits : UInt64)
  | stringLit (s : String)
  | charLit (c : Char)
  | boolLit (b : Bool)
  | nilLit
  | designator (d : Designator)
  | funcCall (desig : Designator) (args : List Expr)
  | unaryOp (op : UnaryOp) (operand : Expr)
  | binaryOp (op : BinaryOp) (left right : Expr)
  | setConstructor (baseType : Option QualIdent) (elements : List SetElement)
  | not (operand : Expr)
  | deref (operand : Expr)

/-- One element of a set constructor. -/
inductive SetElement where
  | single (e : Expr)
  | range (lo hi : Expr)

/-- A name and the selectors applied to it. -/
structure Designator where
  ident : QualIdent
  selectors : List Selector
  loc : SourceLoc

/-- One selector. -/
inductive Selector where
  | field (name : String)
  | index (es : List Expr)
  | deref
  | call (args : List Expr)

end

/-- A designator without a module and without selectors. -/
def Designator.plain (name : String) (loc : SourceLoc) : Designator := ⟨⟨none, name⟩, [], loc⟩

end Mx.Ast

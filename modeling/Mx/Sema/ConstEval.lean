import Mx.Codegen.Division
import Mx.Sema.Ast
import Mx.Sema.Symtab
import Mx.Types.Target

/-!
# Constant expressions

`eval_const_expr` of semantic analysis and `try_eval_const_int` of the HIR builder both fold
constant expressions, each with an arithmetic and a lookup of its own. Their integers are `i64`;
`none` stands for the panic of an operation that overflows.
-/

namespace Mx.Sema

open Ast

/-- What semantic analysis knows where it folds an expression: the symbols, the scope it is in and
the types. -/
structure SemanticAnalyzer where
  symtab : SymbolTable
  currentScope : Nat
  types : TypeRegistry

/-- An operation of `i64` that panics where it overflows. -/
def checked (v : Int) : Option Int := if CIntType.long.Fits v then some v else none

/-- The remainder of `i64`, which overflows where the quotient does. -/
def checkedRem (a b : Int) : Option Int :=
  if CIntType.long.Fits (a.tdiv b) then some (a.tmod b) else none

/-- The sign bit of an `f64` turned over. -/
def negReal (bits : UInt64) : UInt64 := bits ^^^ 0x8000000000000000

/-- `v as u8 as char`. -/
def charOfInt (v : Int) : Char := Char.ofNat (v % 256).toNat

/-! ## Semantic analysis -/

/-- The operators of `eval_const_expr` on two integers. -/
def constArith (op : BinaryOp) (a b : Int) : Option Int :=
  match op with
  | .add => some (CIntType.long.convert (a + b))
  | .sub => some (CIntType.long.convert (a - b))
  | .mul => some (CIntType.long.convert (a * b))
  | .intDiv => if b ≠ 0 then checked (a.tdiv b) else some 0
  | .mod => if b ≠ 0 then checkedRem a b else some 0
  | _ => some 0

namespace ConstValue

/-- The minus sign. -/
def neg : ConstValue → Option ConstValue
  | .integer v => (checked (-v)).map .integer
  | .real bits => some (.real (negReal bits))
  | other => some other

/-- A binary operator. -/
def binary (op : BinaryOp) : ConstValue → ConstValue → Option ConstValue
  | .integer a, .integer b => (constArith op a b).map .integer
  | _, _ => some (.integer 0)

/-- `CHR`. -/
def chr : ConstValue → ConstValue
  | .integer v => .char (charOfInt v)
  | .char c => .char c
  | _ => .integer 0

/-- `ORD`. -/
def ord : ConstValue → ConstValue
  | .char c => .integer c.toNat
  | .integer v => .integer v
  | _ => .integer 0

/-- A type transfer to an integer type. -/
def transfer : ConstValue → ConstValue
  | .char c => .integer c.toNat
  | other => other

/-- The integer that `eval_const_int` takes it for. -/
def toInt : ConstValue → Option Int
  | .integer v => some v
  | .char c => some c.toNat
  | _ => none

end ConstValue

namespace SemanticAnalyzer

variable (sema : SemanticAnalyzer)

/-- The value of a name. -/
def constNamed (name : String) : ConstValue :=
  match sema.symtab.lookupInScope sema.currentScope name with
  | some sym =>
    match sym.kind with
    | .constant v => v
    | .enumVariant v => .integer v
    | _ => .integer 0
  | none => .integer 0

/-- `SIZE` and `TSIZE` of a type name. -/
def sizeNamed (name : String) : Int :=
  match sema.symtab.findType name with
  | some tid => (Target.typeSize sema.types sema.types.types.length tid).toNat
  | none =>
    match name with
    | "INTEGER" | "CARDINAL" | "REAL" | "BITSET" | "WORD" => 4
    | "LONGINT" | "LONGCARD" | "LONGREAL" | "ADDRESS" => 8
    | "CHAR" | "BYTE" | "BOOLEAN" => 1
    | _ => 0

/-- The type transfer functions, on the values of their arguments. -/
def callConst (name : String) (args : List Expr) (values : List (Option ConstValue)) :
    Option ConstValue :=
  match name, values with
  | "CHR", [v] | "CHAR", [v] => v.map .chr
  | "ORD", [v] => v.map .ord
  | "VAL", _ :: v :: _ => v
  | "INTEGER", [v] | "INT", [v] | "CARDINAL", [v] | "LONGINT", [v] | "LONGCARD", [v] =>
    v.map .transfer
  | "TSIZE", [_] | "SIZE", [_] =>
    match args with
    | [⟨.designator d, _⟩] => some (.integer (sema.sizeNamed d.ident.name))
    | _ => some (.integer 0)
  | _, _ => some (.integer 0)

mutual

/-- `eval_const_expr`. -/
def evalConstExpr : Expr → Option ConstValue
  | ⟨.intLit v, _⟩ => some (.integer v)
  | ⟨.realLit bits, _⟩ => some (.real bits)
  | ⟨.stringLit s, _⟩ => some (.string s)
  | ⟨.charLit c, _⟩ => some (.char c)
  | ⟨.boolLit b, _⟩ => some (.boolean b)
  | ⟨.nilLit, _⟩ => some .nil
  | ⟨.unaryOp .neg operand, _⟩ => (evalConstExpr operand).bind ConstValue.neg
  | ⟨.binaryOp op left right, _⟩ =>
    (evalConstExpr left).bind fun l => (evalConstExpr right).bind fun r => l.binary op r
  | ⟨.designator d, _⟩ => some (sema.constNamed d.ident.name)
  | ⟨.funcCall desig args, _⟩ =>
    if desig.selectors.isEmpty ∧ desig.ident.moduleName = none then
      sema.callConst desig.ident.name args (evalArgs args)
    else some (.integer 0)
  | _ => some (.integer 0)

/-- The values of the arguments, of which a call takes the one it needs. -/
def evalArgs : List Expr → List (Option ConstValue)
  | [] => []
  | e :: es => evalConstExpr e :: evalArgs es

end

/-- `eval_const_int`. -/
def evalConstInt (e : Expr) : Option (Option Int) := (sema.evalConstExpr e).map ConstValue.toInt

end SemanticAnalyzer

/-! ## The HIR builder -/

/-- The operators of `try_eval_const_int`. -/
def tryArith (op : BinaryOp) (l r : Int) : Option (Option Int) :=
  match op with
  | .add => (checked (l + r)).map some
  | .sub => (checked (l - r)).map some
  | .mul => (checked (l * r)).map some
  | .intDiv => if r ≠ 0 then (checked (l.tdiv r)).map some else some (some 0)
  | .mod => if r ≠ 0 then (checkedRem l r).map some else some (some 0)
  | _ => some none

/-- Go on with an integer, if there is one. -/
def andThen (f : Int → Option (Option Int)) : Option (Option Int) → Option (Option Int)
  | some (some v) => f v
  | some none => some none
  | none => none

/-- The type transfer functions of `try_eval_const_int`. -/
def tryCall (name : String) (values : List (Option (Option Int))) : Option (Option Int) :=
  match name, values with
  | "CHR", [v] | "CHAR", [v] | "ORD", [v] => v
  | "INTEGER", [v] | "INT", [v] | "CARDINAL", [v] | "LONGINT", [v] | "LONGCARD", [v] => v
  | "VAL", _ :: v :: _ => v
  | _, _ => some none

namespace SymbolTable

variable (tab : SymbolTable)

/-- The integer that the HIR builder takes a name for: the first symbol of any scope counts. -/
def ordinalNamed (name : String) : Option Int :=
  match name with
  | "TRUE" => some 1
  | "FALSE" => some 0
  | _ =>
    (tab.lookupAny name).bind fun sym =>
      match sym.kind with
      | .constant (.integer v) => some v
      | .constant (.boolean b) => some (if b then 1 else 0)
      | .constant (.char c) => some c.toNat
      | .enumVariant v => some v
      | _ => none

mutual

/-- `try_eval_const_int`. -/
def tryEvalConstInt : Expr → Option (Option Int)
  | ⟨.intLit v, _⟩ => some (some v)
  | ⟨.charLit c, _⟩ => some (some c.toNat)
  | ⟨.boolLit b, _⟩ => some (some (if b then 1 else 0))
  | ⟨.unaryOp .neg operand, _⟩ =>
    andThen (fun v => (checked (-v)).map some) (tryEvalConstInt operand)
  | ⟨.binaryOp op left right, _⟩ =>
    andThen (fun l => andThen (fun r => tryArith op l r) (tryEvalConstInt right))
      (tryEvalConstInt left)
  | ⟨.designator d, _⟩ =>
    if d.selectors.isEmpty then some (tab.ordinalNamed d.ident.name) else some none
  | ⟨.funcCall desig args, _⟩ =>
    if desig.selectors.isEmpty ∧ desig.ident.moduleName = none then
      tryCall desig.ident.name (tryEvalArgs args)
    else some none
  | _ => some none

/-- The integers of the arguments. -/
def tryEvalArgs : List Expr → List (Option (Option Int))
  | [] => []
  | e :: es => tryEvalConstInt e :: tryEvalArgs es

end

end SymbolTable

end Mx.Sema

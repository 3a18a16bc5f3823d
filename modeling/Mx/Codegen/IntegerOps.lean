import Mx.Core.LlvmInt
import Mx.Codegen.IndexEval

/-!
# Integer operators in both backends

`gen_hir_binary_op` chooses width and signedness of its instructions from the types of the operands,
looking through aliases; the C backend leaves both to the conversions of C, except for `DIV` and
`MOD`, where it looks at the ids of the types.
-/

namespace Mx

open CGrammar Mx.Core

/-! ## Types of operands -/

/-- The types whose values both backends keep as integers. -/
inductive IntKind where
  | integer | cardinal | longInt | longCard | char
  deriving DecidableEq, Repr

namespace IntKind

/-- The id of the type. -/
def id : IntKind → TypeId
  | integer => tyInteger
  | cardinal => tyCardinal
  | longInt => tyLongInt
  | longCard => tyLongCard
  | char => tyChar

/-- The width of its LLVM type. -/
def width : IntKind → Nat
  | integer | cardinal => 32
  | longInt | longCard => 64
  | char => 8

/-- Whether `is_unsigned_type` counts it. -/
def unsigned : IntKind → Bool
  | cardinal | longCard | char => true
  | integer | longInt => false

/-- Its C type, where the signedness of `char` is up to the platform. -/
def cType (charSigned : Bool) : IntKind → CIntType
  | integer => .int
  | cardinal => .uint
  | longInt => .long
  | longCard => .ulong
  | char => ⟨8, charSigned⟩

end IntKind

/-! ## The LLVM backend -/

namespace TypeRegistry

/-- `is_unsigned_type`, to a depth. -/
def isUnsignedType (reg : TypeRegistry) : Nat → TypeId → Bool
  | 0, _ => false
  | depth + 1, tid =>
    match reg.get tid with
    | .cardinal | .longCard | .word | .byte | .address | .bitset | .char => true
    | .alias _ target => reg.isUnsignedType depth target
    | .subrange base _ _ => reg.isUnsignedType depth base
    | .enumeration _ _ => true
    | _ => false

end TypeRegistry

/-- `common_type`, of integer types. -/
def commonType (a b : Nat) : Nat :=
  if a = b then a
  else if a = 64 ∨ b = 64 then 64
  else if a = 32 ∨ b = 32 then 32
  else if a = 16 ∨ b = 16 then 16
  else if a = 8 ∨ b = 8 then 8
  else a

/-- `icmp`, extended to `i32`. -/
def icmp (b : Bool) : Option IntN := some ⟨32, if b then 1 else 0⟩

/-- An unsigned division, which has no value for the divisor zero. -/
def unsignedDiv (w : Nat) (f : BitVec w → BitVec w → BitVec w) (x y : BitVec w) : Option IntN :=
  if y = 0 then none else some ⟨w, f x y⟩

/-- A call of a function of the runtime, on `i64` or `i32`. -/
def runtimeCall (w : Nat) (f : CIntType → Int → Int → Option Int) (x y : BitVec w) : Option IntN :=
  (f (if w = 64 then .long else .int) x.toInt y.toInt).map (IntN.ofInt w)

/-- The register that `gen_hir_binary_op` computes, on integers. -/
def binaryRegister (reg : TypeRegistry) (depth : Nat) (op : BinaryOp) (lhs rhs : IntN)
    (lhsTy rhsTy : TypeId) : Option IntN :=
  let isUnsigned := reg.isUnsignedType depth lhsTy || reg.isUnsignedType depth rhsTy
  let common := commonType lhs.width rhs.width
  let l := lhs.coerce (reg.isUnsignedType depth lhsTy) common
  let r := rhs.coerce (reg.isUnsignedType depth rhsTy) common
  let isSet := reg.isHirSet lhsTy || reg.isHirSet rhsTy
  match op with
  | .add => some ⟨common, if isSet then l ||| r else l + r⟩
  | .sub => some ⟨common, if isSet then l &&& ~~~r else l - r⟩
  | .mul => some ⟨common, if isSet then l &&& r else l * r⟩
  | .intDiv =>
    if isUnsigned then unsignedDiv common BitVec.udiv l r else runtimeCall common m2Div l r
  | .mod =>
    if isUnsigned then unsignedDiv common BitVec.umod l r else runtimeCall common m2Mod l r
  | .eq => icmp (l == r)
  | .ne => icmp (l != r)
  | .lt => icmp (if isUnsigned then l.ult r else l.slt r)
  | .le => icmp (if isUnsigned then l.ule r else l.sle r)
  | .gt => icmp (if isUnsigned then r.ult l else r.slt l)
  | .ge => icmp (if isUnsigned then r.ule l else r.sle l)
  | .realDiv | .and | .or | .isIn => none

/-- A register with the type id of its value. -/
structure LlvmVal where
  reg : IntN
  tid : TypeId
  deriving DecidableEq, Repr

/-- The number that a register stands for. `coerce_val` extends it by the type id. -/
def LlvmVal.num (reg : TypeRegistry) (depth : Nat) (v : LlvmVal) : Int :=
  v.reg.num (!reg.isUnsignedType depth v.tid)

/-- `gen_hir_binary_op`, on integers. -/
def genHirBinaryOp (reg : TypeRegistry) (depth : Nat) (op : BinaryOp) (lhs rhs : IntN)
    (lhsTy rhsTy resultTy : TypeId) : Option LlvmVal :=
  (binaryRegister reg depth op lhs rhs lhsTy rhsTy).map fun r => ⟨r, resultTy⟩

/-! ## The C backend -/

/-- The value of the C text of an operator on the variables `l` and `r`. -/
def cBinaryOp (reg : TypeRegistry) (op : BinaryOp) (left right : TypeId) (l r : CValue) :
    Option CValue :=
  let store : Tree → Option CValue
    | .atom (.ident "l") => some l
    | .atom (.ident "r") => some r
    | _ => none
  eval (cEnv (fun _ => none) store)
    (CodeGen.binaryText (.atom (.ident "l")) (.atom (.ident "r"))
      (reg.selectBinaryOp op left right)).tree

/-! ## Semantic analysis -/

/-- `is_numeric`. -/
def RegType.isNumeric : RegType → Bool
  | .integer | .cardinal | .longInt | .longCard | .real | .longReal | .complex | .longComplex =>
    true
  | _ => false

/-- `is_integer_type`. -/
def RegType.isIntegerType : RegType → Bool
  | .integer | .cardinal | .longInt | .longCard => true
  | _ => false

/-- `is_set`. -/
def RegType.isSetType : RegType → Bool
  | .set _ | .bitset => true
  | _ => false

namespace TypeRegistry

/-- `expression_compatible`, to a depth. -/
def expressionCompatible (reg : TypeRegistry) : Nat → TypeId → TypeId → Bool
  | 0, _, _ => false
  | depth + 1, t1, t2 =>
    if t1 = t2 then true
    else if t1 = tyError ∨ t2 = tyError then true
    else
      let ty1 := reg.get t1
      let ty2 := reg.get t2
      if ty1.isNumeric && ty2.isNumeric then true
      else if (ty1 == .address && ty2.isIntegerType) || (ty1.isIntegerType && ty2 == .address) ||
          (ty1 == .address && ty2 == .address) then true
      else if ty1.isSetType && ty2.isSetType then true
      else match ty1, ty2 with
        | .alias _ target, _ => reg.expressionCompatible depth target t2
        | _, .alias _ target => reg.expressionCompatible depth t1 target
        | .subrange base _ _, _ => reg.expressionCompatible depth base t2
        | _, .subrange base _ _ => reg.expressionCompatible depth t1 base
        | _, _ => false

/-- What `analyze_expr` asks of the operands of an operator on integers. -/
def acceptsOperands (reg : TypeRegistry) (depth : Nat) (op : BinaryOp) (lt rt : TypeId) : Bool :=
  match op with
  | .add | .sub | .mul => reg.expressionCompatible depth lt rt
  | .intDiv | .mod =>
    (reg.get (reg.resolveHirAlias lt)).isIntegerType || reg.get (reg.resolveHirAlias lt) == .address
  | _ => true

end TypeRegistry

/-- The arithmetic operators and the comparisons. -/
def BinaryOp.isInteger : BinaryOp → Bool
  | .add | .sub | .mul | .intDiv | .mod | .eq | .ne | .lt | .le | .gt | .ge => true
  | .realDiv | .and | .or | .isIn => false

end Mx

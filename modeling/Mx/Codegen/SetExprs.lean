import Mx.Core.BitSets
import Mx.Codegen.IntegerOps
import Mx.HirBuild.ExprLower

/-!
# Set expressions in both backends

Set variables, constructors and the four operators, and the tests on them, as `lower_expr` types
them: the constructor is a `BITSET` and a quotient is a `REAL`, of whatever sets it is. The value of
the C text and of the LLVM instructions stands beside the finite set that an expression denotes.
-/

namespace Mx

open CGrammar Mx.Core HirBuild

/-! ## Syntax -/

/-- The operators on sets. -/
inductive SetOp where
  | union | difference | intersection | symmetric
  deriving DecidableEq, Repr

namespace SetOp

/-- The operator as it is written: `+`, `-`, `*` and `/`. -/
def op : SetOp → BinaryOp
  | union => .add
  | difference => .sub
  | intersection => .mul
  | symmetric => .realDiv

/-- The operation of set algebra. -/
def apply : SetOp → Finset (Fin 32) → Finset (Fin 32) → Finset (Fin 32)
  | union, A, B => A ∪ B
  | difference, A, B => A \ B
  | intersection, A, B => A ∩ B
  | symmetric, A, B => symmDiff A B

/-- What the operator does to two words that are taken for numbers. A quotient of reals is no
word. -/
def arithmetic : SetOp → BitVec 32 → BitVec 32 → Option (BitVec 32)
  | union, x, y => some (x + y)
  | difference, x, y => some (x - y)
  | intersection, x, y => some (x * y)
  | symmetric, _, _ => none

end SetOp

/-- The relations between sets. -/
inductive SetRelation where
  | equal | unequal | subset | superset
  deriving DecidableEq, Repr

namespace SetRelation

/-- The relation as it is written: `=`, `#`, `<=` and `>=`. -/
def op : SetRelation → BinaryOp
  | equal => .eq
  | unequal => .ne
  | subset => .le
  | superset => .ge

/-- The relation of set algebra. -/
def holds : SetRelation → Finset (Fin 32) → Finset (Fin 32) → Bool
  | equal, A, B => A = B
  | unequal, A, B => A ≠ B
  | subset, A, B => A ⊆ B
  | superset, A, B => B ⊆ A

end SetRelation

/-- A set expression. -/
inductive SetExpr where
  /-- A variable of a set type. -/
  | variable (p : Place) (ty : TypeId)
  | constructor (elements : List HirSetElement)
  | binary (o : SetOp) (left right : SetExpr)

/-- A test on sets. -/
inductive SetTest where
  | compare (r : SetRelation) (left right : SetExpr)
  /-- `e IN s` -/
  | member (e : HirExpr) (s : SetExpr)

namespace SetExpr

/-- The expression that `lower_expr` builds. -/
def hir (b : HirBuilder) (loc : SourceLoc) : SetExpr → HirExpr
  | .variable p ty => ⟨.place p, ty, loc⟩
  | .constructor elements => ⟨.setConstructor elements, tyBitset, loc⟩
  | .binary o l r =>
    ⟨.binaryOp o.op (l.hir b loc) (r.hir b loc),
      b.binaryResultType o.op (l.hir b loc).ty (r.hir b loc).ty, loc⟩

/-- The expression and its operands, theirs included. -/
def subs : SetExpr → List SetExpr
  | .variable p ty => [.variable p ty]
  | .constructor elements => [.constructor elements]
  | .binary o l r => .binary o l r :: (l.subs ++ r.subs)

end SetExpr

namespace SetTest

/-- The expression that `lower_expr` builds. -/
def hir (b : HirBuilder) (loc : SourceLoc) : SetTest → HirExpr
  | .compare r s t => ⟨.binaryOp r.op (s.hir b loc) (t.hir b loc), tyBoolean, loc⟩
  | .member e s => ⟨.binaryOp .isIn e (s.hir b loc), tyBoolean, loc⟩

/-- The set expressions in a test. -/
def subs : SetTest → List SetExpr
  | .compare _ s t => s.subs ++ t.subs
  | .member _ s => s.subs

end SetTest

/-! ## Meaning -/

/-- An ordinal operand of the LLVM backend: its value, the width of its type, and whether its text
is the value itself or names a register. -/
structure Operand where
  value : Nat
  width : Nat
  literal : Bool
  wide : 8 ≤ width

/-- The values of the set variables and of the expressions for elements. -/
structure SetState where
  word : Place → BitVec 32
  operand : HirExpr → Operand

namespace SetState

variable (σ : SetState)

/-- The value of an element. -/
def value (e : HirExpr) : Nat := (σ.operand e).value

/-- An element, or a range that is not empty, from 0 to 31. -/
def InRange : HirSetElement → Prop
  | .single e => σ.value e ≤ 31
  | .range lo hi => σ.value lo ≤ σ.value hi ∧ σ.value hi ≤ 31

/-- The numbers that an element of a constructor stands for. -/
def covers : HirSetElement → Finset (Fin 32)
  | .single e => Finset.univ.filter fun i => i.val = σ.value e
  | .range lo hi => Finset.univ.filter fun i => σ.value lo ≤ i.val ∧ i.val ≤ σ.value hi

/-- The set that an expression denotes. -/
def denotes : SetExpr → Finset (Fin 32)
  | .variable p _ => members (σ.word p)
  | .constructor elements => elements.foldl (fun A el => A ∪ σ.covers el) ∅
  | .binary o l r => o.apply (denotes l) (denotes r)

/-- The truth value of a test. -/
def truth : SetTest → Bool
  | .compare r s t => r.holds (σ.denotes s) (σ.denotes t)
  | .member e s => ∃ i ∈ σ.denotes s, i.val = σ.value e

end SetState

/-- `BITSET`, a `SET OF`, or a type that was declared as another name of one. -/
def TypeRegistry.IsSetType (reg : TypeRegistry) (ty : TypeId) : Prop :=
  ∃ n t, AliasChain reg n ty t ∧ reg.isHirSet t = true

/-- The variables have set types and the elements are from 0 to 31. -/
def SetExpr.Proper (reg : TypeRegistry) (σ : SetState) : SetExpr → Prop
  | .variable _ ty => reg.IsSetType ty
  | .constructor elements => ∀ el ∈ elements, σ.InRange el
  | .binary _ l r => l.Proper reg σ ∧ r.Proper reg σ

/-- The operands of the test are sets and elements. -/
def SetTest.Proper (reg : TypeRegistry) (σ : SetState) : SetTest → Prop
  | .compare _ s t => s.Proper reg σ ∧ t.Proper reg σ
  | .member e s => σ.value e ≤ 31 ∧ s.Proper reg σ

/-! ## The C backend -/

/-- The value of the C text of an expression. -/
def CodeGen.cValue (g : CodeGen) (E : CEnv) (e : HirExpr) : Option CValue := eval E (g.exprTree e)

/-- The expressions in an element of a constructor. -/
def HirSetElement.bounds : HirSetElement → List HirExpr
  | .single e => [e]
  | .range lo hi => [lo, hi]

/-- An element has its value in C, in some integer type. -/
def CodeGen.HasValue (g : CodeGen) (E : CEnv) (σ : SetState) (e : HirExpr) : Prop :=
  ∃ t, g.cValue E e = some (.int t (σ.value e))

/-- The variables and the elements of an expression have their values in C; a set is an
`uint32_t`. -/
def SetExpr.Stored (g : CodeGen) (E : CEnv) (σ : SetState) : SetExpr → Prop
  | .variable p _ => eval E (g.placeText p).tree = some (.int .uint (σ.word p).toNat)
  | .constructor elements => ∀ el ∈ elements, ∀ e ∈ el.bounds, g.HasValue E σ e
  | .binary _ l r => l.Stored g E σ ∧ r.Stored g E σ

/-- The variables and the elements of a test have their values in C. -/
def SetTest.Stored (g : CodeGen) (E : CEnv) (σ : SetState) : SetTest → Prop
  | .compare _ s t => s.Stored g E σ ∧ t.Stored g E σ
  | .member e s => g.HasValue E σ e ∧ s.Stored g E σ

/-- What no environment of an emitted expression provides: there is no function `m2_set_range` in
the runtime or in what the compiler emits, and a `double` is no integer. -/
structure PlainEnv (E : CEnv) : Prop where
  function_setRange : E.function "m2_set_range" = none
  store_setRange : ∀ a, E.store (.call (.atom (.ident "m2_set_range")) a) = none
  castType_double : E.castType "double" = none
  store_double : ∀ a t v, E.store (.cast "double" a) ≠ some (.int t v)
  store_quotient : ∀ a b t v,
    E.store (.binary .div (.cast "double" a) (.cast "double" b)) ≠ some (.int t v)

/-! ## The LLVM backend -/

namespace Operand

/-- The operand in an instruction on `i32`: a literal of any type, or an `i32` register. -/
def asI32 (x : Operand) : Option (BitVec 32) :=
  if x.literal ∨ x.width = 32 then some (BitVec.ofNat 32 x.value) else none

/-- The integer that the operand is. -/
def intN (x : Operand) : IntN := ⟨x.width, BitVec.ofNat x.width x.value⟩

end Operand

/-- `shl i32`. Shifting by the width or more gives poison. -/
def shl (x n : BitVec 32) : Option (BitVec 32) :=
  if n.toNat < 32 then some (x <<< n.toNat) else none

/-- The bits of an element of a constructor. -/
def SetState.elementBits (σ : SetState) : HirSetElement → Option (BitVec 32)
  | .single e => do
    let v ← (σ.operand e).asI32
    shl 1 v
  | .range lo hi => do
    let low ← (σ.operand lo).asI32
    let high ← (σ.operand hi).asI32
    let shifted ← shl 1 (high - low + 1)
    shl (shifted - 1) low

/-- `gen_hir_binary_op`, on sets and elements. An instruction on `i32` takes no operand of another
width, and a quotient of reals is no integer. -/
def genSetBinaryOp (reg : TypeRegistry) (depth : Nat) (op : BinaryOp) (lhs rhs : IntN)
    (lhsTy rhsTy : TypeId) : Option IntN :=
  let common := commonType lhs.width rhs.width
  let l := lhs.coerce (reg.isUnsignedType depth lhsTy) common
  let r := rhs.coerce (reg.isUnsignedType depth rhsTy) common
  match op with
  | .realDiv => if reg.isHirSet lhsTy || reg.isHirSet rhsTy then some ⟨common, l ^^^ r⟩ else none
  | .isIn =>
    if common = 32 then
      if l.toNat < 32 then some ⟨common, (r >>> l.toNat) &&& 1⟩ else none
    else none
  | _ => binaryRegister reg depth op lhs rhs lhsTy rhsTy

namespace SetState

variable (σ : SetState) (b : HirBuilder) (loc : SourceLoc) (depth : Nat)

/-- `gen_hir_expr`, on set expressions. -/
def llvmValue : SetExpr → Option IntN
  | .variable p _ => some ⟨32, σ.word p⟩
  | .constructor elements => do
    let x ← elements.foldlM (fun x el => do
      let bits ← σ.elementBits el
      pure (x ||| bits)) 0
    pure ⟨32, x⟩
  | .binary o l r => do
    let x ← llvmValue l
    let y ← llvmValue r
    genSetBinaryOp b.types depth o.op x y (l.hir b loc).ty (r.hir b loc).ty

/-- `gen_hir_expr`, on tests. -/
def llvmTest : SetTest → Option IntN
  | .compare r s t => do
    let x ← σ.llvmValue b loc depth s
    let y ← σ.llvmValue b loc depth t
    genSetBinaryOp b.types depth r.op x y (s.hir b loc).ty (t.hir b loc).ty
  | .member e s => do
    let y ← σ.llvmValue b loc depth s
    genSetBinaryOp b.types depth .isIn (σ.operand e).intN y e.ty (s.hir b loc).ty

end SetState

end Mx

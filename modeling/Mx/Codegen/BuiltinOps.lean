import Mx.Codegen.IntegerOps

/-!
# Integer builtins in both backends

`codegen_builtin` writes a call of the C library, of the runtime or an operator of C;
`gen_hir_expr` emits instructions for the same builtin. `sema` asks nothing of the types of the
arguments, so each of them can be of any type that is kept as an integer.
-/

namespace Mx

open CGrammar Mx.Core

/-- The builtins on integers that both backends implement. -/
inductive IntBuiltin where
  | abs | cap | odd | shl | shr | shift | rotate | band | bor | bxor | bnot
  deriving DecidableEq, Repr

/-- The name of the builtin. -/
def IntBuiltin.name : IntBuiltin → String
  | abs => "ABS"
  | cap => "CAP"
  | odd => "ODD"
  | shl => "SHL"
  | shr => "SHR"
  | shift => "SHIFT"
  | rotate => "ROTATE"
  | band => "BAND"
  | bor => "BOR"
  | bxor => "BXOR"
  | bnot => "BNOT"

/-! ## Types of arguments -/

/-- How the value of an argument is kept. -/
inductive ArgKind where
  | int (k : IntKind)
  | set
  | subrange
  deriving DecidableEq, Repr

namespace ArgKind

/-- The width of the LLVM type. -/
def width : ArgKind → Nat
  | int k => k.width
  | set | subrange => 32

/-- The C type, where the signedness of `char` is up to the platform. -/
def cType (charSigned : Bool) : ArgKind → CIntType
  | int k => k.cType charSigned
  | set => .uint
  | subrange => .int

/-- The number that the bits of an argument are in C. -/
def cNum (charSigned : Bool) (k : ArgKind) (b : BitVec k.width) : Int :=
  IntN.num (k.cType charSigned).signed ⟨k.width, b⟩

/-- The value of an argument in C. -/
def cValue (charSigned : Bool) (k : ArgKind) (b : BitVec k.width) : CValue :=
  .int (k.cType charSigned) (k.cNum charSigned b)

end ArgKind

/-- How the values of a type are kept, if as integers. -/
def RegType.argKind : RegType → Option ArgKind
  | .integer => some (.int .integer)
  | .cardinal => some (.int .cardinal)
  | .longInt => some (.int .longInt)
  | .longCard => some (.int .longCard)
  | .char => some (.int .char)
  | .set _ | .bitset => some .set
  | .subrange _ _ _ => some .subrange
  | _ => none

/-- Behind some aliases there is a type whose values are kept like this. -/
def TypeRegistry.KeptAs (reg : TypeRegistry) (n : Nat) (tid : TypeId) (k : ArgKind) : Prop :=
  ∃ t, TypeRegistry.AliasChain reg n tid t ∧ (reg.get t).argKind = some k

/-! ## The LLVM backend -/

/-- `Val`: a register and the type it is taken to have. -/
structure Val where
  ty : Nat
  reg : IntN
  deriving DecidableEq, Repr

/-- The value that the code after a builtin gets. LLVM rejects the use of a register at another
type than its own. -/
def Val.used (v : Val) : Option IntN := if v.ty = v.reg.width then some v.reg else none

/-- A value of type `i32`. -/
def i32Val (x : BitVec 32) : Val := ⟨32, 32, x⟩

/-- A shift instruction, whose result is poison for a count that is not below the width. -/
def shiftBy (f : BitVec 32 → Nat → BitVec 32) (x n : BitVec 32) : Option Val :=
  if n.toNat < 32 then some (i32Val (f x n.toNat)) else none

/-- `llvm.fshl.i32`: the upper word of both words after a shift by the count modulo 32. -/
def fshl (x y n : BitVec 32) : BitVec 32 :=
  x <<< (n.toNat % 32) ||| y >>> (32 - n.toNat % 32)

/-- The builtins on integers in `gen_hir_expr`. The flags tell whether `is_unsigned_type` counts
the types of the arguments. -/
def genHirBuiltin (op : IntBuiltin) (a b : IntN) (aUnsigned bUnsigned : Bool) : Option Val :=
  let a32 := a.coerce aUnsigned 32
  let b32 := b.coerce bUnsigned 32
  match op with
  | .abs =>
    -- `ashr` by 31 whatever the width
    if 31 < a.width then
      let shift := a.bits.sshiftRight 31
      some ⟨a.width, a.width, (a.bits ^^^ shift) - shift⟩
    else none
  | .cap => some (i32Val (a32 &&& -33))
  | .odd => some ⟨32, a.width, a.bits &&& 1⟩
  | .band => some (i32Val (a32 &&& b32))
  | .bor => some (i32Val (a32 ||| b32))
  | .bxor => some (i32Val (a32 ^^^ b32))
  | .bnot => some (i32Val (a32 ^^^ -1))
  | .shl | .shift => shiftBy BitVec.shiftLeft a32 b32
  | .shr => shiftBy BitVec.ushiftRight a32 b32
  | .rotate => some (i32Val (fshl a32 a32 b32))

/-! ## The C library and the runtime -/

/-- `abs`. -/
def cAbs (v : Int) : Option CValue := result .int (if v < 0 then -v else v)

/-- `toupper`, in the locale that a program starts with. -/
def toUpper (c : Int) : Option CValue :=
  if -1 ≤ c ∧ c ≤ 255 then some (.int .int (if 97 ≤ c ∧ c ≤ 122 then c - 32 else c)) else none

/-- `m2_shift`. -/
def m2Shift (val : BitVec 32) (n : Int) : Option (BitVec 32) :=
  if n = 0 then some val
  else if n > 0 then some (if n ≥ 32 then 0 else val <<< n.toNat)
  else if CIntType.int.Fits (-n) then some (if -n ≥ 32 then 0 else val >>> (-n).toNat)
  else none

/-- `m2_rotate`. -/
def m2Rotate (val : BitVec 32) (n : Int) : BitVec 32 :=
  let n := n.tmod 32
  let n := if n < 0 then n + 32 else n
  if n = 0 then val else val <<< n.toNat ||| val >>> (32 - n).toNat

/-- A call of a function of the runtime on a word and a count. -/
def wordCall (f : BitVec 32 → Int → Option (BitVec 32)) : Option CValue → Option CValue →
    Option CValue
  | some (.int _ v), some (.int _ w) =>
    (f (.ofInt 32 v) (CIntType.int.convert w)).map fun x => .int .uint x.toNat
  | _, _ => none

/-- A call of a function on an `int`. -/
def intCall (f : Int → Option CValue) : Option CValue → Option CValue
  | some (.int _ v) => f (CIntType.int.convert v)
  | _ => none

/-- What `eval` has no rule for: calls of the library and the runtime. -/
def builtinStore (E : CEnv) : Tree → Option CValue
  | .call (.atom (.ident "abs")) a => intCall cAbs (eval E a)
  | .call (.atom (.ident "toupper")) a => intCall toUpper (eval E a)
  | .call (.atom (.ident "m2_shift")) (.args a b) => wordCall m2Shift (eval E a) (eval E b)
  | .call (.atom (.ident "m2_rotate")) (.args a b) =>
    wordCall (fun x n => some (m2Rotate x n)) (eval E a) (eval E b)
  | t => E.store t

/-- The value of the C text of a builtin on the variables `a` and `b`, of which some builtins use
the first only. -/
def cBuiltin (g : CodeGen) (op : IntBuiltin) (a b : CValue) : Option CValue :=
  let store : Tree → Option CValue
    | .atom (.ident "a") => some a
    | .atom (.ident "b") => some b
    | _ => none
  let E := cEnv (fun _ => none) store
  eval ⟨builtinStore E, E.castType, E.function⟩
    (g.codegenBuiltin op.name [.atom (.ident "a"), .atom (.ident "b")]).tree

end Mx

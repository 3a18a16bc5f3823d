import Mx.Core.CLayout
import Mx.Codegen.BinaryOp

/-!
# The text of expressions in the C backend

`hir_expr_to_string`, `hir_expr_to_c_string` and `emit_place_c`. A format string of the source
is written as a layout: the tree it stands for with the parentheses it has, from which the
text follows. The two emitters for expressions share every case that the second one delegates
to the first, so they are one function with a flag for index expressions.
-/

namespace Mx

open CGrammar

/-- The tables of the code generator that decide names. -/
structure CodeGen where
  types : TypeRegistry
  /-- `is_env_var`: captured variables, reached through the environment. -/
  isEnvVar : String → Bool
  /-- `is_var_param` -/
  isVarParam : String → Bool
  /-- `is_named_array_value_param` -/
  isNamedArrayValueParam : String → Bool
  /-- `mangle` -/
  mangle : String → String
  /-- The C name of a local variable. -/
  localName : SymbolId → String
  /-- The C name of a global variable. -/
  globalName : SymbolId → String
  /-- `resolve_func_ref_name` -/
  funcRefName : SymbolId → String
  /-- `resolve_call_name` -/
  callName : SymbolId → String
  /-- The environment passed to a nested procedure, by the procedure's source name. -/
  envArg : String → Option String
  /-- For a procedure of a native library module: its name there and, for each parameter,
  whether it is a `VAR` parameter and whether it is an open array. -/
  nativeParams : SymbolId → Option (String × List (Bool × Bool))
  /-- `type_id_to_c` -/
  typeIdToC : TypeId → String
  /-- The C type that the text of a type argument names; `SIZE` also takes variables. -/
  typeArg : Layout → Option String
  /-- The decimal text of a real number without its sign. -/
  realText : UInt64 → String
  /-- The text of a real constant in exponent notation without its sign. -/
  realExpText : UInt64 → String

/-! ## Literals -/

/-- `escape_c_char`. -/
def escapeCChar (c : Char) : String :=
  if c = '\n' then "\\n" else if c = '\t' then "\\t" else if c = '\r' then "\\r"
  else if c = '\\' then "\\\\" else if c = '\'' then "\\'" else if c = '\x00' then "\\0"
  else c.toString

/-- `escape_c_string`. -/
def escapeCString (s : String) : String :=
  String.join (s.toList.map fun c =>
    if c = '\n' then "\\n" else if c = '\t' then "\\t" else if c = '\r' then "\\r"
    else if c = '\\' then "\\\\" else if c = '"' then "\\\"" else if c = '\x00' then "\\0"
    else c.toString)

namespace CodeGen

/-- A number with an optional sign. -/
def signed (negative : Bool) (digits : String) : Layout :=
  if negative then .unary .neg (.atom (.number digits)) else .atom (.number digits)

/-- An integer in decimal. -/
def intText (v : Int) : Layout := signed (v < 0) (toString v.natAbs)

/-- The sign bit of a real number. -/
def isNegative (bits : UInt64) : Bool := bits ≥ 2 ^ 63

/-- A character constant. -/
def charText (c : Char) : Layout := .atom (.char (escapeCChar c))

/-- The character of a string of at most one byte. -/
def oneChar (s : String) : Char := s.toList.headD '\x00'

/-- A string constant. -/
def stringText (s : String) : Layout := .atom (.string (escapeCString s))

/-- Characters that end or escape a constant they are written into unescaped. -/
def breaksConstant (quote c : Char) : Bool := c == quote || c == '\\' || c == '\n'

/-- A constant that is the base of a place. Characters and strings are not escaped here. -/
def constText (g : CodeGen) : ConstVal → Layout
  | .integer v | .enumVariant v => intText v
  | .real bits => signed (isNegative bits) (g.realExpText bits)
  | .boolean b => .atom (.number (if b then "1" else "0"))
  | .char c =>
    if breaksConstant '\'' c then .other ("'" ++ c.toString ++ "'")
    else .atom (.char c.toString)
  | .string s =>
    if s.toList.any (breaksConstant '"') then .other ("\"" ++ s ++ "\"")
    else .atom (.string s)
  | .set bits => .atom (.number (toString bits ++ "u"))
  | .nil => .atom (.ident "NULL")

/-! ## Calls -/

/-- A call with its arguments in order. -/
def callText (f : Layout) : List Layout → Layout
  | [] => .call₀ f
  | a :: as => .call f (chain a as)
where
  chain (a : Layout) : List Layout → Layout
    | [] => a
    | b :: bs => .args a (chain b bs)

/-- A call by name. -/
def namedCall (name : String) (args : List Layout) : Layout :=
  callText (.atom (.ident name)) args

/-- The text without the operator at its front. -/
def dropLead : Layout → Layout
  | .unary _ a => a
  | .call₀ f => .call₀ (dropLead f)
  | .call f a => .call (dropLead f) a
  | .args a b => .args (dropLead a) b
  | .index a i => .index (dropLead a) i
  | .field a name => .field (dropLead a) name
  | .arrow a name => .arrow (dropLead a) name
  | .binary o a b => .binary o (dropLead a) b
  | l => l

/-- `ALLOCATE` and `DEALLOCATE` take the address of a pointer as `(void **)`. -/
def allocArg (a : Layout) : Layout := if a.lead = some .addr then .cast "void **" a else a

/-- `hir_args_to_string`. -/
def regularArgs (name : String) : List Layout → List Layout
  | [] => []
  | a :: as =>
    if name.endsWith "ALLOCATE" || name.endsWith "DEALLOCATE" then allocArg a :: as else a :: as

/-- `hir_args_for_native_stdlib`: open arrays lose their `&`, and those that are not `VAR`
parameters the bound that follows them. -/
def nativeArgs (first : Bool) : List (Bool × Bool) → List Layout → List Layout
  | [], as => as
  | _ :: _, [] => []
  | (isVar, isOpen) :: params, a :: as =>
    let a := if isOpen && a.lead == some .addr then dropLead a else a
    let a := if first then allocArg a else a
    match isOpen, as with
    | true, high :: as => if isVar then a :: high :: nativeArgs false params as
        else a :: nativeArgs false params as
    | _, as => a :: nativeArgs false params as

/-- A procedure call that is no builtin. -/
def procCallText (g : CodeGen) (target : SymbolId) (args : List Layout) : Layout :=
  let name := g.callName target
  let args := match g.nativeParams target with
    | some (proc, params) =>
      nativeArgs (proc.toUpper == "ALLOCATE" || proc.toUpper == "DEALLOCATE") params args
    | none => regularArgs name args
  match g.envArg target.sourceName with
  | some env => namedCall name (.unary .addr (.atom (.ident env)) :: args)
  | none => namedCall name args

/-- `((ty)(a))` -/
def castText (ty : String) (a : Layout) : Layout := .paren (.cast ty (.paren a))

/-- `(ty)(a)` -/
def uncastText (ty : String) (a : Layout) : Layout := .cast ty (.paren a)

/-- `sizeof(a)`, of a type or of a variable. -/
def sizeText (g : CodeGen) (a : Layout) : Layout :=
  match g.typeArg a with
  | some ty => .sizeOfType ty
  | none => .unary .sizeOf (.paren a)

/-- `HIGH` appends to the text of its argument. -/
def highText : Layout → Layout
  | .atom (.ident s) => .atom (.ident (s ++ "_high"))
  | .field a name => .field a (name ++ "_high")
  | .arrow a name => .arrow a (name ++ "_high")
  | _ => .other "_high"

/-- `codegen_builtin`. What a proper procedure emits is a statement. -/
def codegenBuiltin (g : CodeGen) (name : String) (args : List Layout) : Layout :=
  let a := args.getD 0 (.other name)
  let b := args.getD 1 (.other name)
  let bits (o : Binary) :=
    Layout.paren (.binary o (uncastText "uint32_t" a) (uncastText "uint32_t" b))
  match name with
  | "ABS" => namedCall "abs" [a]
  | "CAP" => namedCall "toupper" [a]
  | "CHR" => castText "char" a
  | "FLOAT" => castText "float" a
  | "LFLOAT" => castText "double" a
  | "HALT" => namedCall "exit" [args.headD (.atom (.number "0"))]
  | "HIGH" => highText a
  | "LONG" => castText "int64_t" a
  | "SHORT" => castText "int32_t" a
  | "MAX" => namedCall "m2_max" [a]
  | "MIN" => namedCall "m2_min" [a]
  | "ODD" => .paren (.binary .and (.paren a) (.atom (.number "1")))
  | "ORD" => castText "int" (uncastText "unsigned char" a)
  | "SIZE" => g.sizeText a
  | "TRUNC" => castText "int32_t" a
  | "VAL" =>
    if args.length ≥ 2 then castText ((g.typeArg a).getD "int32_t") b else castText "int32_t" a
  | "DISPOSE" => namedCall "GC_FREE" [a]
  | "ADR" => .paren (.cast "void *" (.unary .addr (.paren a)))
  | "TSIZE" => .paren (.cast "uint32_t" (g.sizeText a))
  | "RE" => .field (.paren a) "re"
  | "IM" => .field (.paren a) "im"
  | "CMPLX" =>
    .paren (.pair "m2_COMPLEX" "re" "im" a
      (if args.length ≥ 2 then b else .atom (.number "0.0f")))
  | "SHL" => .paren (.binary .shl (uncastText "uint32_t" a) (.paren b))
  | "SHR" => .paren (.binary .shr (uncastText "uint32_t" a) (.paren b))
  | "BAND" => bits .and
  | "BOR" => bits .or
  | "BXOR" => bits .xor
  | "BNOT" => .paren (.unary .compl (uncastText "uint32_t" a))
  | "SHIFT" => namedCall "m2_shift" [uncastText "uint32_t" a, .paren b]
  | "ROTATE" => namedCall "m2_rotate" [uncastText "uint32_t" a, .paren b]
  | _ => .other name

/-- `is_builtin_proc`. -/
def isBuiltinProc (name : String) : Bool :=
  ["ABS", "CAP", "CHR", "DEC", "EXCL", "FLOAT", "HALT", "HIGH", "INC", "INCL", "LONG", "SHORT",
    "MAX", "MIN", "ODD", "ORD", "SIZE", "TRUNC", "VAL", "NEW", "DISPOSE", "ADR", "TSIZE",
    "LFLOAT", "NEWPROCESS", "TRANSFER", "IOTRANSFER", "RE", "IM", "CMPLX", "SHL", "SHR", "BAND",
    "BOR", "BXOR", "BNOT", "SHIFT", "ROTATE"].contains name

/-- `ADR` of a variable that is a pointer in C already. -/
def isBarePointer (g : CodeGen) : Place → Bool
  | ⟨.localVar sym, [], _, _⟩ | ⟨.globalVar sym, [], _, _⟩ =>
    sym.isOpenArray || g.isNamedArrayValueParam sym.sourceName
  | _ => false

/-- A direct call; `ADR` looks at its argument. -/
def directCallText (g : CodeGen) (target : SymbolId) (args : List HirExpr)
    (texts : List Layout) : Layout :=
  if isBuiltinProc target.sourceName then
    match target.sourceName, args, texts with
    | "ADR", [⟨.stringLit s, _, _⟩], _ => .paren (.cast "void *" (stringText s))
    | "ADR", [⟨.place p, _, _⟩], [text] =>
      if g.isBarePointer p then castText "void *" text else g.codegenBuiltin "ADR" [text]
    | name, _, _ => g.codegenBuiltin name texts
  else g.procCallText target texts

/-! ## Operators -/

/-- The operator with a given spelling. -/
def operator (s : String) : Binary :=
  match s with
  | "*" => .mul
  | "/" => .div
  | "%" => .rem
  | "+" => .add
  | "-" => .sub
  | "<" => .lt
  | ">" => .gt
  | "<=" => .le
  | ">=" => .ge
  | "==" => .eq
  | "!=" => .ne
  | "&" => .and
  | "^" => .xor
  | "|" => .or
  | "&&" => .logAnd
  | "||" => .logOr
  | _ => .question

/-- The layout of a binary operation. -/
def binaryText (l r : Layout) : BinaryEmission → Layout
  | .parens op => .paren (.binary (operator op) l r)
  | .bare op => .binary (operator op) l r
  | .call name => namedCall name [l, r]
  | .notCall name => .paren (.unary .not (namedCall name [l, r]))
  | .andNot => .paren (.binary .and l (.unary .compl (.paren r)))
  | .realDiv => .paren (.binary .div (uncastText "double" l) (uncastText "double" r))
  | .member => .paren (.binary .and (.paren (.binary .shr r l)) (.atom (.number "1")))

/-- The operator of `hir_expr_to_c_string`, which has no other ones. -/
def indexOperator : BinaryOp → Binary
  | .add => .add
  | .sub => .sub
  | .mul => .mul
  | .intDiv => .div
  | .mod => .rem
  | _ => .question

/-- Operands of comparisons are `hir_expr_to_scalar_string`: a string of at most one byte is a
character. -/
def isComparison : BinaryOp → Bool
  | .eq | .ne | .lt | .le | .gt | .ge => true
  | _ => false

/-- `hir_expr_to_scalar_string`, of an expression with the given text. -/
def scalarText : HirExpr → Layout → Layout
  | ⟨.stringLit s, _, _⟩, text => if s.utf8ByteSize ≤ 1 then charText (oneChar s) else text
  | _, text => text

/-- The disjunction of set elements, from the left. -/
def unionText : List Layout → Layout
  | [] => .atom (.number "0u")
  | a :: as => .paren (as.foldl (.binary .or) a)

/-- The base of a place. -/
def baseText (g : CodeGen) : PlaceBase → Layout
  | .localVar sym =>
    if g.isEnvVar sym.sourceName then envText sym
    else if g.isVarParam sym.sourceName then
      .paren (.unary .deref (.atom (.ident (g.mangle sym.sourceName))))
    else .atom (.ident (g.localName sym))
  | .globalVar sym =>
    if g.isEnvVar sym.sourceName then envText sym
    else if g.isVarParam sym.sourceName then
      .paren (.unary .deref (.atom (.ident (g.mangle sym.sourceName))))
    else .atom (.ident (g.globalName sym))
  | .constant v => g.constText v
  | .funcRef sym => .atom (.ident (g.funcRefName sym))
where
  envText (sym : SymbolId) : Layout :=
    .paren (.unary .deref (.arrow (.atom (.ident "_env")) sym.sourceName))

/-! ## Expressions -/

/-- A field of a variant part. -/
def variantText (a : Layout) (variant name : String) : Layout := .field (.field a variant) name

mutual

/-- `hir_expr_to_string`, and with `index` set `hir_expr_to_c_string`. -/
def exprText (g : CodeGen) (index : Bool) : HirExpr → Layout
  | ⟨.intLit v, _, _⟩ => intText v
  | ⟨.realLit bits, _, _⟩ => signed (isNegative bits) (g.realText bits)
  | ⟨.stringLit s, ty, _⟩ =>
    if ty = tyChar ∧ s.utf8ByteSize ≤ 1 then charText (oneChar s) else stringText s
  | ⟨.charLit c, _, _⟩ =>
    if index then .atom (.number (toString c.toNat)) else charText c
  | ⟨.boolLit b, _, _⟩ => .atom (.number (if b then "1" else "0"))
  | ⟨.nilLit, _, _⟩ => .atom (.ident "NULL")
  | ⟨.place p, _, _⟩ => placeText g p
  | ⟨.addrOf p, _, _⟩ => .unary .addr (placeText g p)
  | ⟨.directCall target args, _, _⟩ => g.directCallText target args (exprTexts g args)
  | ⟨.indirectCall callee args, _, _⟩ => callText (exprText g false callee) (exprTexts g args)
  | ⟨.unaryOp .neg operand, _, _⟩ =>
    if index then .paren (.unary .neg (exprText g true operand))
    else if g.types.isHirComplex operand.ty then
      namedCall "m2_complex_neg" [exprText g false operand]
    else .paren (.unary .neg (exprText g false operand))
  | ⟨.unaryOp .pos operand, _, _⟩ => exprText g false operand
  | ⟨.binaryOp op left right, _, _⟩ =>
    if index then
      .paren (.binary (indexOperator op) (exprText g true left) (exprText g true right))
    else if isComparison op then
      binaryText (scalarText left (exprText g false left))
        (scalarText right (exprText g false right)) (g.types.selectBinaryOp op left.ty right.ty)
    else
      binaryText (exprText g false left) (exprText g false right)
        (g.types.selectBinaryOp op left.ty right.ty)
  | ⟨.not operand, _, _⟩ => .paren (.unary .not (exprText g false operand))
  | ⟨.deref operand, _, _⟩ => .paren (.unary .deref (exprText g false operand))
  | ⟨.setConstructor elements, _, _⟩ => unionText (elementTexts g elements)
  | ⟨.typeTransfer operand, ty, _⟩ =>
    if index then exprText g true operand
    else if operand.ty = tyChar then
      castText (g.typeIdToC ty) (uncastText "unsigned char" (exprText g false operand))
    else castText (g.typeIdToC ty) (exprText g false operand)

/-- The arguments of a call. -/
def exprTexts (g : CodeGen) : List HirExpr → List Layout
  | [] => []
  | e :: es => exprText g false e :: exprTexts g es

/-- The elements of a set constructor. -/
def elementTexts (g : CodeGen) : List HirSetElement → List Layout
  | [] => []
  | .single e :: es =>
    .paren (.binary .shl (.atom (.number "1u")) (exprText g false e)) :: elementTexts g es
  | .range lo hi :: es =>
    namedCall "m2_set_range" [exprText g false lo, exprText g false hi] :: elementTexts g es

/-- `emit_place_c`. A constant is only indexed, and a procedure has no projections. -/
def placeText (g : CodeGen) : Place → Layout
  | ⟨.constant v, projections, _, _⟩ => indexText g (g.constText v) projections
  | ⟨.funcRef sym, _, _, _⟩ => g.baseText (.funcRef sym)
  | ⟨.localVar sym, projections, _, _⟩ => projectText g (g.baseText (.localVar sym)) projections
  | ⟨.globalVar sym, projections, _, _⟩ => projectText g (g.baseText (.globalVar sym)) projections

/-- The indices of a constant. -/
def indexText (g : CodeGen) (a : Layout) : List Projection → Layout
  | [] => a
  | ⟨.index e, _⟩ :: projections => indexText g (.index a (exprText g true e)) projections
  | _ :: projections => indexText g a projections

/-- The projections of a variable. A dereference looks at what follows it. -/
def projectText (g : CodeGen) (a : Layout) : List Projection → Layout
  | [] => a
  | ⟨.field _ name _, _⟩ :: projections => projectText g (.field a name) projections
  | ⟨.variantField v _ name _, _⟩ :: projections =>
    projectText g (variantText (.field a "_variant") ("_v" ++ toString v) name) projections
  | ⟨.index e, _⟩ :: projections => projectText g (.index a (exprText g true e)) projections
  | [⟨.deref, ty⟩, ⟨.index e, _⟩] =>
    if ty = tyChar then .index (.paren (.cast "char*" a)) (exprText g true e)
    else .index (.paren (.unary .deref a)) (exprText g true e)
  | ⟨.deref, _⟩ :: ⟨.index e, _⟩ :: projections =>
    projectText g (.index (.paren (.unary .deref a)) (exprText g true e)) projections
  | ⟨.deref, _⟩ :: ⟨.field _ name _, _⟩ :: projections => projectText g (.arrow a name) projections
  | ⟨.deref, _⟩ :: ⟨.variantField v _ name _, _⟩ :: projections =>
    projectText g (variantText (.arrow a "variant") ("v" ++ toString v) name) projections
  | ⟨.deref, _⟩ :: projections => projectText g (.paren (.unary .deref a)) projections
  | ⟨.typeTransfer e, ty⟩ :: projections =>
    projectText g (castText (g.typeIdToC ty) (exprText g false e)) projections

end

/-- `hir_expr_to_string`. -/
def hirExprToString (g : CodeGen) (e : HirExpr) : List Piece := (exprText g false e).text

/-- `hir_expr_to_c_string`. -/
def hirExprToCString (g : CodeGen) (e : HirExpr) : List Piece := (exprText g true e).text

/-- The C tree of an expression, node for node. -/
def exprTree (g : CodeGen) (e : HirExpr) : Tree := (exprText g false e).tree

end CodeGen

end Mx

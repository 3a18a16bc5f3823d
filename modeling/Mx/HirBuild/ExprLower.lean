import Mx.Codegen.ExprText
import Mx.HirBuild.Builder

/-!
# Lowering of expressions

`resolve_designator`, `lower_expr` and the expansion of call arguments. The expressions inside a
designator or a call are lowered first; what is done with the results follows without recursion.
-/

namespace Mx.HirBuild

open Ast Sema
open CodeGen (isBuiltinProc)

/-- `builtin_return_type`. -/
def builtinReturnType : String → TypeId
  | "ABS" => tyInteger
  | "CAP" | "CHR" => tyChar
  | "FLOAT" => tyReal
  | "LFLOAT" => tyLongReal
  | "HIGH" => tyCardinal
  | "MAX" | "MIN" => tyInteger
  | "ODD" => tyBoolean
  | "ORD" | "SIZE" => tyCardinal
  | "TRUNC" => tyInteger
  | "LONG" => tyLongInt
  | "SHORT" | "VAL" => tyInteger
  | "RE" | "IM" => tyReal
  | "CMPLX" => tyComplex
  | "SHL" | "SHR" | "BAND" | "BOR" | "BXOR" | "BNOT" | "SHIFT" | "ROTATE" => tyCardinal
  | _ => tyVoid

/-- The names of the built-in type transfers. -/
def isBuiltinTypeTransfer (name : String) : Bool :=
  ["INTEGER", "INT", "CARDINAL", "LONGINT", "LONGCARD", "REAL", "FLOAT", "LONGREAL", "LFLOAT",
    "BOOLEAN", "CHAR", "WORD", "BYTE", "ADDRESS", "CHR", "ORD", "VAL", "TRUNC", "LONG",
    "SHORT"].contains name

/-- A selector whose expressions are lowered. -/
inductive LoweredSelector where
  | field (name : String)
  | index (es : List HirExpr)
  | deref
  | call (args : List HirExpr)

/-- An argument of a call, lowered, and the place that it is if it is a designator. -/
structure Actual where
  expr : Expr
  lowered : HirExpr
  place : Option Place

/-- The position of a synthesized node. -/
def SourceLoc.none : SourceLoc := ⟨"", 0, 0⟩

namespace HirBuilder

variable (b : HirBuilder)

/-! ## Designators -/

/-- `resolve_selector`; of several indices only the first is looked at. -/
def resolveSelector (currentTy : TypeId) : LoweredSelector → Option Projection
  | .field name => b.resolveFieldProjection (b.resolveAlias currentTy) name
  | .index es =>
    let idx := es.headD ⟨.intLit 0, tyInteger, SourceLoc.none⟩
    match b.typeOf currentTy with
    | .array _ elemType _ _ => some ⟨.index idx, elemType⟩
    | .openArray elemType => some ⟨.index idx, elemType⟩
    | .stringLit _ => some ⟨.index idx, tyChar⟩
    | .char => some ⟨.index idx, tyChar⟩
    | _ => none
  | .deref =>
    match b.typeOf currentTy with
    | .pointer base => some ⟨.deref, b.resolveAlias base⟩
    | .ref target _ => some ⟨.deref, b.resolveAlias target⟩
    | .address => some ⟨.deref, tyChar⟩
    | _ => some ⟨.deref, tyAddress⟩
  | .call args =>
    some ⟨.typeTransfer (args.headD ⟨.intLit 0, tyInteger, SourceLoc.none⟩),
      b.resolveAlias currentTy⟩

/-- Selectors one after the other, each on the type that the one before results in. -/
def selectAll (currentTy : TypeId) : List LoweredSelector → Option (List Projection × TypeId)
  | [] => some ([], currentTy)
  | sel :: sels =>
    (b.resolveSelector currentTy sel).bind fun p =>
      (selectAll p.ty sels).map fun (ps, ty) => (p :: ps, ty)

/-- The selectors of `apply_selectors`: one for each index of `A[i, j]`. -/
def splitIndices (sels : List LoweredSelector) : List LoweredSelector :=
  sels.flatMap fun
    | .index es => es.map fun e => .index [e]
    | sel => [sel]

/-- `apply_selectors`. -/
def applySelectors (base : PlaceBase × TypeId) (sels : List LoweredSelector) (loc : SourceLoc) :
    Option Place :=
  (b.selectAll base.2 (splitIndices sels)).map fun (ps, ty) => ⟨base.1, ps, ty, loc⟩

/-- `resolve_with_field`. -/
def resolveWithField (name : String) (sels : List LoweredSelector) (loc : SourceLoc) :
    Option Place :=
  (b.withOf name).bind fun ws =>
    (b.resolveFieldProjection ws.recordTid name).bind fun field =>
      (b.selectAll field.ty sels).map fun (ps, ty) =>
        ⟨(b.withBase ws).base, (b.withBase ws).projections ++ field :: ps, ty, loc⟩

/-- The designator is a field of an imported module. -/
def moduleField (ident : QualIdent) : List LoweredSelector → Option (String × List LoweredSelector)
  | .field name :: sels =>
    if ident.moduleName = none ∧ b.importedModules.contains ident.name then some (name, sels)
    else none
  | _ => none

/-- `resolve_designator`, on lowered selectors. -/
def resolveLowered (ident : QualIdent) (sels : List LoweredSelector) (loc : SourceLoc) :
    Option Place :=
  match b.moduleField ident sels with
  | some (field, rest) => b.applySelectors (b.moduleFieldBase ident.name field) rest loc
  | none =>
    (if ident.moduleName = none then b.resolveWithField ident.name sels loc else none).or
      ((b.resolveBase ident).bind fun base => b.applySelectors base sels loc)

/-! ## Calls -/

/-- `is_open_array_type`. -/
def isOpenArrayType (tid : TypeId) : Bool :=
  match b.typeOf tid with
  | .openArray _ => true
  | .stringLit _ => true
  | _ => false

/-- The modes of the parameters that a symbol declares: variable, and open array. -/
def symbolModes (sym : Symbol) : Option (List (Bool × Bool)) :=
  match sym.kind with
  | .procedure params _ _ => some (params.map fun p => (p.isVar, b.isOpenArrayType p.typ))
  | _ => none

/-- The modes of the parameters of a procedure type. -/
def typeModes (tid : TypeId) : Option (List (Bool × Bool)) :=
  match b.typeOf tid with
  | .procedureType params _ => some (params.map fun p => (p.isVar, b.isOpenArrayType p.typ))
  | _ => none

/-- The symbol whose parameters `lookup_proc_params` takes. -/
def paramsSymbol (desig : Designator) : Option Symbol :=
  match desig.ident.moduleName, desig.selectors with
  | some m, _ => b.symtab.lookupQualified m desig.ident.name
  | none, .field procName :: _ =>
    (b.symtab.lookupQualified desig.ident.name procName).or (b.scopeLookup procName)
  | none, _ => b.scopeLookup desig.ident.name

/-- `lookup_proc_params`, with the place that the designator resolves to. -/
def lookupProcParams (desig : Designator) (place : Option Place) : List (Bool × Bool) :=
  (((b.paramsSymbol desig).bind fun sym => (b.symbolModes sym).or (b.typeModes sym.typ)).or
    (place.bind fun p => b.typeModes p.ty)).getD []

/-- The integer literal of a `HIGH` companion. -/
def highLit (v : Int) (loc : SourceLoc) : HirExpr := ⟨.intLit v, tyInteger, loc⟩

/-- `compute_high_for_arg`. -/
def computeHighForArg (arg : Actual) (loc : SourceLoc) : HirExpr :=
  match arg.expr.kind with
  | .stringLit s => highLit s.utf8ByteSize loc
  | .designator d =>
    if d.selectors.isEmpty then
      match b.scopeLookup d.ident.name with
      | some sym =>
        match b.typeOf sym.typ with
        | .array _ _ _ high => highLit high loc
        | .openArray _ =>
          match b.resolveLowered ⟨none, d.ident.name ++ "_high"⟩ [] loc with
          | some place => ⟨.place place, tyInteger, loc⟩
          | none => highLit 0 loc
        | .stringLit len => highLit len loc
        | _ =>
          match sym.kind with
          | .constant (.string s) => highLit s.utf8ByteSize loc
          | _ => highLit 0 loc
      | none => highLit 0 loc
    else
      match arg.place with
      | some place =>
        match b.typeOf place.ty with
        | .array _ _ _ high => highLit high loc
        | _ => highLit 0 loc
      | none => highLit 0 loc
  | _ => highLit 0 loc

/-- A string of one character is a string where an open array is wanted. -/
def promoteString : HirExpr → HirExpr
  | ⟨.stringLit s, ty, loc⟩ => ⟨.stringLit s, if ty = tyChar then tyString else ty, loc⟩
  | e => e

/-- The place is a pointer already when it is passed to a `VAR` open array. -/
def isAlreadyPtr (place : Place) : Bool :=
  (match place.base with
    | .localVar sid => sid.isOpenArray || sid.isVarParam
    | .globalVar sid => sid.isOpenArray || sid.isVarParam
    | _ => false) ||
  place.ty = tyAddress ||
  (match b.typeOf place.ty with
    | .array _ _ _ _ => true
    | .openArray _ => true
    | _ => false)

/-- The value that is passed for an argument. -/
def argValue (arg : Actual) (isVar isOpen : Bool) (loc : SourceLoc) : HirExpr :=
  match isVar, isOpen, arg.place with
  | true, false, some place => ⟨.addrOf place, tyAddress, loc⟩
  | true, true, some place =>
    if b.isAlreadyPtr place then ⟨.place place, tyAddress, loc⟩ else ⟨.addrOf place, tyAddress, loc⟩
  | _, true, _ => promoteString arg.lowered
  | _, false, _ => arg.lowered

/-- What `expand_call_args` pushes for one argument. -/
def expandArg (arg : Actual) (mode : Bool × Bool) (loc : SourceLoc) : List HirExpr :=
  if mode.2 then [b.argValue arg mode.1 mode.2 loc, b.computeHighForArg arg loc]
  else [b.argValue arg mode.1 mode.2 loc]

/-- `expand_call_args`: an argument without a parameter is passed as it is. -/
def expandCallArgs : List Actual → List (Bool × Bool) → SourceLoc → List HirExpr
  | [], _, _ => []
  | arg :: args, modes, loc =>
    b.expandArg arg (modes.headD (false, false)) loc ++ expandCallArgs args modes.tail loc

/-- The declared return type of a symbol. -/
def returnTypeOf (sym : Symbol) : Option TypeId :=
  match sym.kind with
  | .procedure _ returnType _ => returnType
  | _ => none

/-- `infer_return_type`. -/
def inferReturnType (sid : SymbolId) : TypeId :=
  (((b.symtab.lookupAny sid.sourceName).bind returnTypeOf).or
    (sid.moduleName.bind fun m =>
      (b.symtab.lookupQualified m sid.sourceName).bind returnTypeOf)).getD tyInteger

/-- `resolve_type_transfer_target`. -/
def resolveTypeTransferTarget (name : String) : TypeId :=
  match name with
  | "INTEGER" | "INT" | "TRUNC" | "SHORT" => tyInteger
  | "CARDINAL" => tyCardinal
  | "REAL" | "FLOAT" => tyReal
  | "LONGREAL" | "LFLOAT" => tyLongReal
  | "LONGINT" | "LONG" => tyLongInt
  | "LONGCARD" => tyLongCard
  | "BOOLEAN" => tyBoolean
  | "CHAR" | "CHR" => tyChar
  | "WORD" => tyWord
  | "BYTE" => tyByte
  | "ADDRESS" => tyAddress
  | _ => (((b.symtab.lookupAny name).filter (·.kind = .typ)).map (·.typ)).getD tyInteger

/-- `resolve_type_name_from_expr`. -/
def resolveTypeNameFromExpr (e : Expr) : TypeId :=
  match e.kind with
  | .designator d => b.resolveTypeTransferTarget d.ident.name
  | _ => tyInteger

/-- The call is a type transfer. -/
def isTypeTransfer (desig : Designator) : Bool :=
  desig.ident.moduleName.isNone && desig.selectors.isEmpty &&
    (isBuiltinTypeTransfer desig.ident.name ||
      (b.symtab.lookupAny desig.ident.name).any fun s => s.kind = .typ)

/-- The call is one of a built-in procedure. -/
def isBuiltinCall (desig : Designator) : Bool :=
  desig.ident.moduleName.isNone && desig.selectors.isEmpty && isBuiltinProc desig.ident.name

/-- A type transfer; the first argument of `VAL` is the type. -/
def lowerTransfer (name : String) (args : List Actual) (loc : SourceLoc) : HirExpr :=
  match name, args with
  | "VAL", typ :: arg :: _ => ⟨.typeTransfer arg.lowered, b.resolveTypeNameFromExpr typ.expr, loc⟩
  | _, _ =>
    ⟨.typeTransfer ((args.head?.map (·.lowered)).getD ⟨.intLit 0, tyInteger, loc⟩),
      b.resolveTypeTransferTarget name, loc⟩

/-- The call of a built-in procedure. -/
def lowerBuiltin (name : String) (args : List Actual) (loc : SourceLoc) : HirExpr :=
  ⟨.directCall
    { mangled := name
      sourceName := name
      moduleName := none
      ty := builtinReturnType name
      isVarParam := false
      isOpenArray := false } (args.map (·.lowered)), builtinReturnType name, loc⟩

/-- A call, on lowered arguments and with the place that its designator resolves to. -/
def lowerCall (desig : Designator) (place : Option Place) (args : List Actual) (loc : SourceLoc) :
    HirExpr :=
  if b.isTypeTransfer desig then b.lowerTransfer desig.ident.name args loc
  else if isBuiltinCall desig then
    match desig.ident.name, args with
    | "HIGH", [arg] => b.computeHighForArg arg loc
    | name, _ => lowerBuiltin name args loc
  else
    let expanded := b.expandCallArgs args (b.lookupProcParams desig place) loc
    match place with
    | some ⟨.funcRef sid, _, _, _⟩ => ⟨.directCall sid expanded, b.inferReturnType sid, loc⟩
    | some p => ⟨.indirectCall ⟨.place p, p.ty, loc⟩ expanded, tyInteger, loc⟩
    | none => ⟨.intLit 0, tyError, loc⟩

/-! ## Expressions -/

/-- `binary_result_type`. -/
def binaryResultType (op : BinaryOp) (leftTy rightTy : TypeId) : TypeId :=
  b.types.binaryResultType op leftTy rightTy

/-- The literal that a constant is unwrapped to. -/
def constLiteral : ConstVal → HirExprKind
  | .integer v => .intLit v
  | .real bits => .realLit bits
  | .boolean v => .boolLit v
  | .char c => .charLit c
  | .string s => .stringLit s
  | .nil => .nilLit
  | .set bits => .intLit bits.toBitVec.toInt
  | .enumVariant v => .intLit v

/-- A designator: constants without projections become literals. -/
def placeExpr (place : Option Place) (loc : SourceLoc) : HirExpr :=
  match place with
  | some ⟨.constant v, [], ty, _⟩ => ⟨constLiteral v, ty, loc⟩
  | some p => ⟨.place p, p.ty, loc⟩
  | none => ⟨.intLit 0, tyError, loc⟩

/-- The type that a dereferenced expression has. -/
def derefType (ty : TypeId) : TypeId :=
  match b.typeOf ty with
  | .pointer base => b.resolveAlias base
  | _ => tyAddress

mutual

/-- `lower_expr`. -/
def lowerExpr : Expr → HirExpr
  | ⟨.intLit v, loc⟩ => ⟨.intLit v, tyInteger, loc⟩
  | ⟨.realLit bits, loc⟩ => ⟨.realLit bits, tyReal, loc⟩
  | ⟨.stringLit s, loc⟩ =>
    ⟨.stringLit s, if s.utf8ByteSize ≤ 1 then tyChar else tyString, loc⟩
  | ⟨.charLit c, loc⟩ => ⟨.charLit c, tyChar, loc⟩
  | ⟨.boolLit v, loc⟩ => ⟨.boolLit v, tyBoolean, loc⟩
  | ⟨.nilLit, loc⟩ => ⟨.nilLit, tyNil, loc⟩
  | ⟨.designator d, loc⟩ => placeExpr (resolveDesignator d) loc
  | ⟨.funcCall desig args, loc⟩ =>
    b.lowerCall desig (resolveDesignator desig) (lowerActuals args) loc
  | ⟨.unaryOp op operand, loc⟩ =>
    ⟨.unaryOp op (lowerExpr operand), (lowerExpr operand).ty, loc⟩
  | ⟨.binaryOp op left right, loc⟩ =>
    ⟨.binaryOp op (lowerExpr left) (lowerExpr right),
      b.binaryResultType op (lowerExpr left).ty (lowerExpr right).ty, loc⟩
  | ⟨.setConstructor _ elements, loc⟩ => ⟨.setConstructor (lowerElements elements), tyBitset, loc⟩
  | ⟨.not operand, loc⟩ => ⟨.not (lowerExpr operand), tyBoolean, loc⟩
  | ⟨.deref operand, loc⟩ =>
    ⟨.deref (lowerExpr operand), b.derefType (lowerExpr operand).ty, loc⟩

/-- `resolve_designator`. -/
def resolveDesignator : Designator → Option Place
  | ⟨ident, selectors, loc⟩ => b.resolveLowered ident (lowerSelectors selectors) loc

/-- The selectors of a designator, with their expressions lowered. -/
def lowerSelectors : List Selector → List LoweredSelector
  | [] => []
  | .field name :: sels => .field name :: lowerSelectors sels
  | .index es :: sels => .index (lowerExprs es) :: lowerSelectors sels
  | .deref :: sels => .deref :: lowerSelectors sels
  | .call args :: sels => .call (lowerExprs args) :: lowerSelectors sels

/-- Expressions one after the other. -/
def lowerExprs : List Expr → List HirExpr
  | [] => []
  | e :: es => lowerExpr e :: lowerExprs es

/-- The arguments of a call. -/
def lowerActuals : List Expr → List Actual
  | [] => []
  | ⟨.designator d, loc⟩ :: es =>
    ⟨⟨.designator d, loc⟩, lowerExpr ⟨.designator d, loc⟩, resolveDesignator d⟩ :: lowerActuals es
  | e :: es => ⟨e, lowerExpr e, none⟩ :: lowerActuals es

/-- The elements of a set. -/
def lowerElements : List SetElement → List HirSetElement
  | [] => []
  | .single e :: es => .single (lowerExpr e) :: lowerElements es
  | .range lo hi :: es => .range (lowerExpr lo) (lowerExpr hi) :: lowerElements es

end

/-- The place of an argument that is a designator. -/
def actualPlace (e : Expr) : Option Place :=
  match e.kind with
  | .designator d => b.resolveDesignator d
  | _ => none

/-- The argument that an expression is. -/
def actual (e : Expr) : Actual := ⟨e, b.lowerExpr e, b.actualPlace e⟩

theorem lowerActuals_eq (es : List Expr) : b.lowerActuals es = es.map b.actual := by
  induction es with
  | nil => rfl
  | cons e es ih =>
    obtain ⟨kind, loc⟩ := e
    cases kind <;> simp [lowerActuals, ih, actual, actualPlace]

end HirBuilder

end Mx.HirBuild

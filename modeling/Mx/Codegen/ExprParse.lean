import Mx.Codegen.ExprText

/-!
# Parsing the text of an expression back

The text of an expression parses to the tree of the expression exactly if every operand binds
strongly enough for the place it is written in and no two minus signs meet. Both are read off
the expression: comparisons are the only operations without parentheses around them, and a
minus sign stands at the front of a negative constant.
-/

namespace Mx

open CGrammar List

/-- The operator of a comparison without parentheses. -/
def BinaryEmission.bareOperator : BinaryEmission → Option Binary
  | .bare op => some (CodeGen.operator op)
  | _ => none

/-- How strongly the operands of a binary operation have to bind. -/
def BinaryEmission.operandStrengths : BinaryEmission → Nat × Nat
  | .parens op | .bare op =>
    let p := (CodeGen.operator op).strength.getD 0
    (p, p + 1)
  | .andNot => (8, 2)
  | .member => (12, 11)
  | .call _ | .notCall _ | .realDiv => (2, 2)

namespace CodeGen

/-! ## What is seen of an operand -/

/-- Where an expression is written: as a value, in a subscript, or as an argument that loses
the `&` at its front. -/
inductive Position where
  | value | index | stripped
  deriving DecidableEq, Repr

/-- The position of an operand that goes to the emitter of its parent. -/
def Position.operand : Position → Position
  | .index => .index
  | _ => .value

/-- The position of an operand whose text starts the text of its parent. -/
def Position.front : Position → Position
  | .stripped => .stripped
  | _ => .value

/-- The operator in front of a constant. -/
def constLead : ConstVal → Option Unary
  | .integer v | .enumVariant v => if v < 0 then some .neg else none
  | .real bits => if isNegative bits then some .neg else none
  | _ => none

/-- A projection is a subscript. -/
def isIndex : Projection → Bool
  | ⟨.index _, _⟩ => true
  | _ => false

/-- A projection ends in a name. -/
def isMember : Projection → Bool
  | ⟨.field _ _ _, _⟩ | ⟨.variantField _ _ _ _, _⟩ => true
  | _ => false

/-- The operator in front of a place. -/
def placeLead : Place → Option Unary
  | ⟨.constant v, _, _, _⟩ => constLead v
  | _ => none

/-- How strongly a place binds. -/
def placeBinding : Place → Nat
  | ⟨.constant v, projections, _, _⟩ =>
    if projections.any isIndex ∨ constLead v = none then 15 else 14
  | _ => 15

/-- The text of a variable is its name. -/
def isPlainVar (g : CodeGen) (sym : SymbolId) : Bool :=
  !g.isEnvVar sym.sourceName && !g.isVarParam sym.sourceName

/-- The text of a place ends in a name. -/
def placeEndsInName (g : CodeGen) : Place → Bool
  | ⟨.constant v, projections, _, _⟩ => v == .nil && !projections.any isIndex
  | ⟨.funcRef _, _, _, _⟩ => true
  | ⟨.localVar sym, projections, _, _⟩ | ⟨.globalVar sym, projections, _, _⟩ =>
    (projections.getLast?.map isMember).getD (g.isPlainVar sym)

/-- The text of an expression ends in a name. -/
def endsInName (g : CodeGen) : HirExpr → Bool
  | ⟨.nilLit, _, _⟩ => true
  | ⟨.place p, _, _⟩ => g.placeEndsInName p
  | ⟨.unaryOp .pos operand, _, _⟩ => endsInName g operand
  | ⟨.directCall target [], _, _⟩ => target.sourceName == "RE" || target.sourceName == "IM"
  | ⟨.directCall target (a :: _), _, _⟩ =>
    target.sourceName == "RE" || target.sourceName == "IM" ||
      (target.sourceName == "HIGH" && endsInName g a)
  | _ => false

/-- The operator in front of an expression. -/
def leadOf (g : CodeGen) (index : Bool) : HirExpr → Option Unary
  | ⟨.intLit v, _, _⟩ => if v < 0 then some .neg else none
  | ⟨.realLit bits, _, _⟩ => if isNegative bits then some .neg else none
  | ⟨.place p, _, _⟩ => placeLead p
  | ⟨.addrOf _, _, _⟩ => some .addr
  | ⟨.directCall target _, _, _⟩ =>
    if target.sourceName = "SIZE" then some .sizeOf else none
  | ⟨.indirectCall callee _, _, _⟩ => leadOf g false callee
  | ⟨.unaryOp .pos operand, _, _⟩ => leadOf g false operand
  | ⟨.binaryOp op left right, _, _⟩ =>
    if index ∨ (g.types.selectBinaryOp op left.ty right.ty).bareOperator = none then none
    else leadOf g false left
  | ⟨.typeTransfer operand, _, _⟩ => if index then leadOf g true operand else none
  | _ => none

/-- How strongly an expression binds. -/
def binding (g : CodeGen) (pos : Position) : HirExpr → Nat
  | ⟨.intLit v, _, _⟩ => if v < 0 then 14 else 15
  | ⟨.realLit bits, _, _⟩ => if isNegative bits then 14 else 15
  | ⟨.place p, _, _⟩ => placeBinding p
  | ⟨.addrOf p, _, _⟩ => if pos = .stripped then placeBinding p else 14
  | ⟨.directCall target _, _, _⟩ => if target.sourceName = "SIZE" then 14 else 15
  | ⟨.unaryOp .pos operand, _, _⟩ => binding g pos.front operand
  | ⟨.binaryOp op left right, _, _⟩ =>
    if pos = .index then 15
    else match (g.types.selectBinaryOp op left.ty right.ty).bareOperator with
      | some o => o.strength.getD 0
      | none => 15
  | ⟨.typeTransfer operand, _, _⟩ => if pos = .index then binding g .index operand else 15
  | _ => 15

/-! ## Expressions whose text parses -/

/-- A constant that is written as it is has no character that ends it. -/
def constKeeps : ConstVal → Prop
  | .char c => breaksConstant '\'' c = false
  | .string s => s.toList.any (breaksConstant '"') = false
  | _ => True

/-- What a builtin needs of its arguments: which of them it uses, and for `HIGH` that the first
one ends in a name. A type argument is not an expression. -/
def builtinKeeps (g : CodeGen) (name : String) (texts : List Layout) (named : Bool)
    (keeps : List Prop) : Prop :=
  match name with
  | "ABS" | "CAP" | "CHR" | "FLOAT" | "LFLOAT" | "LONG" | "SHORT" | "MAX" | "MIN" | "ODD" | "ORD"
  | "TRUNC" | "ADR" | "RE" | "IM" | "BNOT" | "DISPOSE" => keeps.getD 0 False
  | "SHL" | "SHR" | "BAND" | "BOR" | "BXOR" | "SHIFT" | "ROTATE" =>
    keeps.getD 0 False ∧ keeps.getD 1 False
  | "HALT" => keeps.headD True
  | "CMPLX" => keeps.getD 0 False ∧ keeps.getD 1 True
  | "VAL" => if 2 ≤ keeps.length then keeps.getD 1 False else keeps.getD 0 False
  | "SIZE" | "TSIZE" =>
    (g.typeArg (texts.getD 0 (.other name))).isSome ∨ keeps.getD 0 False
  | "HIGH" => named ∧ keeps.getD 0 False
  | _ => False

/-- The binary operators that exist in a subscript. -/
def isIndexOperator : BinaryOp → Bool
  | .add | .sub | .mul | .intDiv | .mod => true
  | _ => false

mutual

/-- Every operand in an expression binds strongly enough for its position, and no minus sign
stands directly in front of another one. -/
def KeepsTree (g : CodeGen) (pos : Position) : HirExpr → Prop
  | ⟨.place p, _, _⟩ | ⟨.addrOf p, _, _⟩ => KeepsPlace g p
  | ⟨.directCall target args, _, _⟩ =>
    if isBuiltinProc target.sourceName then
      builtinKeeps g target.sourceName (g.exprTexts args) (args.head?.any g.endsInName)
        (keepsEach g args)
    else match g.nativeParams target with
      | some (proc, params) =>
        KeepsNative g (proc.toUpper == "ALLOCATE" || proc.toUpper == "DEALLOCATE") params args
      | none =>
        KeepsArgs g ((g.callName target).endsWith "ALLOCATE" ||
          (g.callName target).endsWith "DEALLOCATE") args
  | ⟨.indirectCall callee args, _, _⟩ =>
    (KeepsTree g pos.front callee ∧ 15 ≤ g.binding pos.front callee) ∧ KeepsArgs g false args
  | ⟨.unaryOp .neg operand, _, _⟩ =>
    KeepsTree g pos.operand operand ∧
      ((pos ≠ .index ∧ g.types.isHirComplex operand.ty) ∨
        (14 ≤ g.binding pos.operand operand ∧ g.leadOf (pos = .index) operand ≠ some .neg))
  | ⟨.unaryOp .pos operand, _, _⟩ => KeepsTree g pos.front operand
  | ⟨.binaryOp op left right, _, _⟩ =>
    if pos = .index then
      isIndexOperator op ∧
        (KeepsTree g .index left ∧ (indexOperator op).strength.getD 0 ≤ g.binding .index left) ∧
        KeepsTree g .index right ∧ (indexOperator op).strength.getD 0 < g.binding .index right
    else
      let emission := g.types.selectBinaryOp op left.ty right.ty
      let leftPos := if emission.bareOperator = none then .value else pos.front
      (KeepsTree g leftPos left ∧ emission.operandStrengths.1 ≤ g.binding leftPos left) ∧
        KeepsTree g .value right ∧ emission.operandStrengths.2 ≤ g.binding .value right
  | ⟨.not operand, _, _⟩ | ⟨.deref operand, _, _⟩ =>
    KeepsTree g .value operand ∧ 14 ≤ g.binding .value operand
  | ⟨.setConstructor elements, _, _⟩ => KeepsElements g elements
  | ⟨.typeTransfer operand, _, _⟩ => KeepsTree g pos.operand operand
  | _ => True

/-- The arguments of a builtin, each for itself. -/
def keepsEach (g : CodeGen) : List HirExpr → List Prop
  | [] => []
  | e :: es => KeepsTree g .value e :: keepsEach g es

/-- The arguments of a procedure. An address at the front of the first one of an allocation is
cast to `void **`. -/
def KeepsArgs (g : CodeGen) (allocates : Bool) : List HirExpr → Prop
  | [] => True
  | e :: es =>
    (KeepsTree g .value e ∧
      (allocates → g.leadOf false e = some .addr → 14 ≤ g.binding .value e)) ∧
      KeepsArgs g false es

/-- The arguments of a procedure of a native library module. The bound of an open array that
is no `VAR` parameter is not written. -/
def KeepsNative (g : CodeGen) (allocates : Bool) : List (Bool × Bool) → List HirExpr → Prop
  | [], es => KeepsArgs g false es
  | _ :: _, [] => True
  | (_, false) :: params, e :: es =>
    (KeepsTree g .value e ∧
      (allocates → g.leadOf false e = some .addr → 14 ≤ g.binding .value e)) ∧
      KeepsNative g false params es
  | (_, true) :: _, [e] => KeepsTree g .stripped e
  | (isVar, true) :: params, e :: high :: es =>
    KeepsTree g .stripped e ∧ (isVar → KeepsTree g .value high) ∧ KeepsNative g false params es

/-- The elements of a set. -/
def KeepsElements (g : CodeGen) : List HirSetElement → Prop
  | [] => True
  | .single e :: es =>
    (KeepsTree g .value e ∧ 12 ≤ g.binding .value e) ∧ KeepsElements g es
  | .range lo hi :: es => (KeepsTree g .value lo ∧ KeepsTree g .value hi) ∧ KeepsElements g es

/-- A place. A constant that is indexed has no sign. -/
def KeepsPlace (g : CodeGen) : Place → Prop
  | ⟨.constant v, projections, _, _⟩ =>
    constKeeps v ∧ (projections.any isIndex → constLead v = none) ∧ KeepsIndices g projections
  | ⟨.funcRef _, _, _, _⟩ => True
  | ⟨.localVar _, projections, _, _⟩ | ⟨.globalVar _, projections, _, _⟩ =>
    KeepsProjections g True projections

/-- The subscripts of a constant. -/
def KeepsIndices (g : CodeGen) : List Projection → Prop
  | [] => True
  | ⟨.index e, _⟩ :: projections => KeepsTree g .index e ∧ KeepsIndices g projections
  | _ :: projections => KeepsIndices g projections

/-- The subscripts and transfers of a place. A transfer drops the text in front of it. -/
def KeepsProjections (g : CodeGen) (kept : Prop) : List Projection → Prop
  | [] => kept
  | ⟨.index e, _⟩ :: projections =>
    KeepsProjections g (kept ∧ KeepsTree g .index e) projections
  | ⟨.typeTransfer e, _⟩ :: projections => KeepsProjections g (KeepsTree g .value e) projections
  | _ :: projections => KeepsProjections g kept projections

end

/-! ## The front and the strength of the text -/

theorem strength_callText (f : Layout) (args : List Layout) : (callText f args).strength = 15 := by
  cases args <;> rfl

theorem lead_callText (f : Layout) (args : List Layout) : (callText f args).lead = f.lead := by
  cases args <;> rfl

@[simp] theorem strength_namedCall (name : String) (args : List Layout) :
    (namedCall name args).strength = 15 := strength_callText _ _

@[simp] theorem lead_namedCall (name : String) (args : List Layout) :
    (namedCall name args).lead = none := lead_callText _ _

theorem lead_signed (negative : Bool) (digits : String) :
    (signed negative digits).lead = if negative then some .neg else none := by
  cases negative <;> rfl

theorem strength_signed (negative : Bool) (digits : String) :
    (signed negative digits).strength = if negative then 14 else 15 := by
  cases negative <;> rfl

theorem lead_constText (g : CodeGen) (v : ConstVal) : (g.constText v).lead = constLead v := by
  cases v <;> simp only [constText, constLead]
  case integer | enumVariant | real => simp [intText, lead_signed]
  case char | string => split <;> rfl
  all_goals rfl

theorem strength_constText (g : CodeGen) (v : ConstVal) :
    (g.constText v).strength = if constLead v = none then 15 else 14 := by
  cases v <;> simp only [constText, constLead]
  case integer | enumVariant | real =>
    simp only [intText, strength_signed]
    split <;> simp_all
  case char | string => split <;> rfl
  all_goals rfl

/-- The text starts with no operator and binds as strongly as a name. -/
def Closed (a : Layout) : Prop := a.strength = 15 ∧ a.lead = none

theorem closed_baseText (g : CodeGen) (sym : SymbolId) :
    Closed (g.baseText (.localVar sym)) ∧ Closed (g.baseText (.globalVar sym)) := by
  constructor <;> simp only [baseText, baseText.envText] <;> split_ifs <;> exact ⟨rfl, rfl⟩

theorem closed_projectText (g : CodeGen) : ∀ (a : Layout) (ps : List Projection), Closed a →
    Closed (g.projectText a ps)
  | a, [], h => by simpa only [projectText] using h
  | a, ⟨.field _ name _, _⟩ :: ps, h | a, ⟨.variantField v _ name _, _⟩ :: ps, h
  | a, ⟨.index e, _⟩ :: ps, h | a, ⟨.deref, _⟩ :: ⟨.field _ name _, _⟩ :: ps, h
  | a, ⟨.deref, _⟩ :: ⟨.variantField v _ name _, _⟩ :: ps, h => by
    simp only [projectText]
    exact closed_projectText g _ ps ⟨rfl, h.2⟩
  | a, [⟨.deref, ty⟩, ⟨.index e, _⟩], h => by
    simp only [projectText]
    split_ifs <;> exact ⟨rfl, rfl⟩
  | a, ⟨.deref, _⟩ :: ⟨.index e, _⟩ :: p :: ps, h => by
    simp only [projectText]
    exact closed_projectText g _ (p :: ps) ⟨rfl, rfl⟩
  | a, [⟨.deref, _⟩], h => by
    simp only [projectText]
    exact closed_projectText g _ [] ⟨rfl, rfl⟩
  | a, ⟨.deref, _⟩ :: ⟨.deref, t⟩ :: ps, h => by
    simp only [projectText]
    exact closed_projectText g _ (⟨.deref, t⟩ :: ps) ⟨rfl, rfl⟩
  | a, ⟨.deref, _⟩ :: ⟨.typeTransfer e, t⟩ :: ps, h => by
    simp only [projectText]
    exact closed_projectText g (.paren (.unary .deref a)) (⟨.typeTransfer e, t⟩ :: ps) ⟨rfl, rfl⟩
  | a, ⟨.typeTransfer e, _⟩ :: ps, h => by
    simp only [projectText]
    exact closed_projectText g _ ps ⟨rfl, rfl⟩

theorem indexText_front (g : CodeGen) : ∀ (a : Layout) (ps : List Projection),
    (g.indexText a ps).lead = a.lead ∧
      (g.indexText a ps).strength = if ps.any isIndex then 15 else a.strength
  | a, [] => by simp [indexText]
  | a, ⟨.index e, _⟩ :: ps => by
    have ih := indexText_front g (.index a (g.exprText true e)) ps
    simp only [indexText, ih, any_cons, isIndex, Bool.true_or, if_true]
    exact ⟨rfl, by split_ifs <;> rfl⟩
  | a, ⟨.field _ _ _, _⟩ :: ps | a, ⟨.variantField _ _ _ _, _⟩ :: ps => by
    simpa [indexText, isIndex] using indexText_front g a ps
  | a, ⟨.deref, _⟩ :: ps | a, ⟨.typeTransfer _, _⟩ :: ps => by
    simpa [indexText, isIndex] using indexText_front g a ps

theorem placeText_front (g : CodeGen) : ∀ p : Place,
    (g.placeText p).lead = placeLead p ∧ (g.placeText p).strength = placeBinding p
  | ⟨.constant v, ps, _, _⟩ => by
    have h := indexText_front g (g.constText v) ps
    simp only [placeText, placeLead, placeBinding, h, lead_constText, strength_constText]
    refine ⟨trivial, ?_⟩
    cases ps.any isIndex <;> simp
  | ⟨.funcRef sym, ps, _, _⟩ => by simp only [placeText]; exact ⟨rfl, rfl⟩
  | ⟨.localVar sym, ps, _, _⟩ => by
    simp only [placeText, placeLead, placeBinding]
    exact (closed_projectText g _ ps (g.closed_baseText sym).1).symm
  | ⟨.globalVar sym, ps, _, _⟩ => by
    simp only [placeText, placeLead, placeBinding]
    exact (closed_projectText g _ ps (g.closed_baseText sym).2).symm

/-! ## Texts that end in a name -/

/-- The text ends in a name that can be extended. -/
def isNamed : Layout → Bool
  | .atom (.ident _) | .field _ _ | .arrow _ _ => true
  | _ => false

theorem isNamed_projectText (g : CodeGen) : ∀ (a : Layout) (ps : List Projection),
    isNamed (g.projectText a ps) = (ps.getLast?.map isMember).getD (isNamed a)
  | a, [] | a, [⟨.field _ name _, _⟩] | a, [⟨.variantField v _ name _, _⟩]
  | a, [⟨.index e, _⟩] | a, [⟨.deref, _⟩] | a, [⟨.typeTransfer e, _⟩]
  | a, [⟨.deref, _⟩, ⟨.field _ name _, _⟩] | a, [⟨.deref, _⟩, ⟨.variantField v _ name _, _⟩] => by
    simp [projectText, variantText, castText, isNamed, isMember]
  | a, [⟨.deref, ty⟩, ⟨.index e, _⟩] => by
    simp only [projectText]
    split_ifs <;> simp [isNamed, isMember]
  | a, ⟨.field _ name _, _⟩ :: p :: ps | a, ⟨.variantField v _ name _, _⟩ :: p :: ps
  | a, ⟨.index e, _⟩ :: p :: ps | a, ⟨.typeTransfer e, _⟩ :: p :: ps
  | a, ⟨.deref, _⟩ :: ⟨.index e, _⟩ :: p :: ps | a, ⟨.deref, _⟩ :: ⟨.field _ name _, _⟩ :: p :: ps
  | a, ⟨.deref, _⟩ :: ⟨.variantField v _ name _, _⟩ :: p :: ps => by
    simp only [projectText]
    rw [isNamed_projectText g _ (p :: ps)]
    simp [getLast?_cons_cons, getLast?_cons]
  | a, ⟨.deref, _⟩ :: ⟨.deref, t⟩ :: ps => by
    simp only [projectText]
    rw [isNamed_projectText g _ (⟨.deref, t⟩ :: ps)]
    simp [getLast?_cons_cons, getLast?_cons]
  | a, ⟨.deref, _⟩ :: ⟨.typeTransfer e, t⟩ :: ps => by
    have ih := isNamed_projectText g (.paren (.unary .deref a)) (⟨.typeTransfer e, t⟩ :: ps)
    simpa [projectText, getLast?_cons_cons, getLast?_cons] using ih

theorem isNamed_indexText (g : CodeGen) : ∀ (a : Layout) (ps : List Projection),
    isNamed (g.indexText a ps) = (isNamed a && !ps.any isIndex)
  | a, [] => by simp [indexText]
  | a, ⟨.index e, _⟩ :: ps => by
    have ih := isNamed_indexText g (.index a (g.exprText true e)) ps
    simpa [indexText, isIndex, isNamed] using ih
  | a, ⟨.field _ _ _, _⟩ :: ps | a, ⟨.deref, _⟩ :: ps => by
    simpa [indexText, isIndex] using isNamed_indexText g a ps
  | a, ⟨.variantField _ _ _ _, _⟩ :: ps | a, ⟨.typeTransfer _, _⟩ :: ps => by
    simpa [indexText, isIndex] using isNamed_indexText g a ps

theorem isNamed_constText (g : CodeGen) (v : ConstVal) :
    isNamed (g.constText v) = (v == .nil) := by
  have hsigned : ∀ b digits, isNamed (signed b digits) = false := by
    intro b digits
    cases b <;> rfl
  cases v <;> simp only [constText]
  case char | string => split <;> rfl
  case integer | enumVariant | real => simp [intText, hsigned]
  all_goals rfl

theorem isNamed_baseText (g : CodeGen) (sym : SymbolId) :
    isNamed (g.baseText (.localVar sym)) = g.isPlainVar sym ∧
      isNamed (g.baseText (.globalVar sym)) = g.isPlainVar sym := by
  constructor <;> simp only [baseText, baseText.envText, isPlainVar] <;> split_ifs <;>
    simp_all [isNamed]

theorem isNamed_placeText (g : CodeGen) : ∀ p : Place,
    isNamed (g.placeText p) = g.placeEndsInName p
  | ⟨.constant v, ps, _, _⟩ => by
    simp only [placeText, placeEndsInName, isNamed_indexText, isNamed_constText]
  | ⟨.funcRef sym, ps, _, _⟩ => by simp [placeText, placeEndsInName, baseText, isNamed]
  | ⟨.localVar sym, ps, _, _⟩ | ⟨.globalVar sym, ps, _, _⟩ => by
    simp only [placeText, placeEndsInName, isNamed_projectText, isNamed_baseText]

theorem isNamed_callText (f : Layout) (args : List Layout) : isNamed (callText f args) = false := by
  cases args <;> rfl

theorem isNamed_highText (a : Layout) : isNamed (highText a) = isNamed a := by
  unfold highText
  split <;> simp_all [isNamed]

theorem lead_highText (a : Layout) : (highText a).lead = if isNamed a then a.lead else none := by
  unfold highText
  split <;> simp_all [isNamed, Layout.lead]

theorem isNamed_codegenBuiltin (g : CodeGen) (name : String) (args : List Layout) :
    isNamed (g.codegenBuiltin name args) = match name with
      | "RE" | "IM" => true
      | "HIGH" => isNamed (args.getD 0 (.other name))
      | _ => false := by
  have hsize : ∀ a, isNamed (g.sizeText a) = false := by
    intro a
    unfold sizeText
    split <;> rfl
  unfold codegenBuiltin
  dsimp only
  split <;> first
    | rfl
    | exact isNamed_callText _ _
    | exact hsize _
    | exact isNamed_highText _
    | (split_ifs <;> rfl)
    | skip
  split <;> simp_all [isNamed]

theorem codegenBuiltin_front (g : CodeGen) (name : String) (args : List Layout)
    (h : isNamed (args.getD 0 (.other name)) → (args.getD 0 (.other name)).lead = none) :
    (g.codegenBuiltin name args).lead = (if name = "SIZE" then some .sizeOf else none) ∧
      (g.codegenBuiltin name args).strength = if name = "SIZE" then 14 else 15 := by
  have hsize : ∀ a, (g.sizeText a).lead = some .sizeOf ∧ (g.sizeText a).strength = 14 := by
    intro a
    unfold sizeText
    split <;> exact ⟨rfl, rfl⟩
  have hhigh : (highText (args.getD 0 (.other name))).lead = none ∧
      (highText (args.getD 0 (.other name))).strength = 15 := by
    constructor
    · rw [lead_highText]
      split_ifs with hnamed
      · exact h hnamed
      · rfl
    · unfold highText
      split <;> rfl
  by_cases hname : name = "SIZE"
  · subst hname
    simpa [codegenBuiltin] using hsize _
  · unfold codegenBuiltin
    dsimp only
    simp only [hname, if_false]
    split <;> first
      | exact absurd rfl hname
      | exact ⟨rfl, rfl⟩
      | exact hhigh
      | (split_ifs <;> exact ⟨rfl, rfl⟩)

theorem procCallText_front (g : CodeGen) (target : SymbolId) (args : List Layout) :
    Closed (g.procCallText target args) ∧ isNamed (g.procCallText target args) = false := by
  unfold procCallText
  dsimp only
  split <;> exact ⟨⟨strength_callText _ _, lead_callText _ _⟩, isNamed_callText _ _⟩

/-- Of a direct call only the builtins look at their arguments. -/
theorem directCallText_cases (g : CodeGen) (target : SymbolId) (args : List HirExpr)
    (texts : List Layout) :
    (isBuiltinProc target.sourceName = true ∧
      g.directCallText target args texts = g.codegenBuiltin target.sourceName texts) ∨
    (target.sourceName = "ADR" ∧ ∃ s ty loc, args = [⟨.stringLit s, ty, loc⟩] ∧
      g.directCallText target args texts = .paren (.cast "void *" (stringText s))) ∨
    (target.sourceName = "ADR" ∧ ∃ p ty loc text, args = [⟨.place p, ty, loc⟩] ∧ texts = [text] ∧
      g.directCallText target args texts = castText "void *" text) ∨
    (isBuiltinProc target.sourceName = false ∧
      g.directCallText target args texts = g.procCallText target texts) := by
  unfold directCallText
  split_ifs with hbuiltin
  · split
    · next hname => exact .inr (.inl ⟨hname, _, _, _, rfl, rfl⟩)
    · next hname =>
      split_ifs with hbare
      · exact .inr (.inr (.inl ⟨hname, _, _, _, _, rfl, rfl, rfl⟩))
      · exact .inl ⟨hbuiltin, by rw [hname]⟩
    · exact .inl ⟨hbuiltin, rfl⟩
  · exact .inr (.inr (.inr ⟨by simpa using hbuiltin, rfl⟩))

theorem directCallText_front (g : CodeGen) (target : SymbolId) (args : List HirExpr)
    (texts : List Layout)
    (h : ∀ a, isNamed (texts.getD 0 (.other a)) → (texts.getD 0 (.other a)).lead = none) :
    (g.directCallText target args texts).lead =
        (if target.sourceName = "SIZE" then some .sizeOf else none) ∧
      (g.directCallText target args texts).strength =
        if target.sourceName = "SIZE" then 14 else 15 := by
  obtain ⟨-, heq⟩ | ⟨hname, s, ty, loc, -, heq⟩ | ⟨hname, p, ty, loc, text, -, -, heq⟩ |
    ⟨hbuiltin, heq⟩ := g.directCallText_cases target args texts
  · rw [heq]
    exact g.codegenBuiltin_front _ texts (h _)
  · rw [heq, hname]
    exact ⟨rfl, rfl⟩
  · rw [heq, hname]
    exact ⟨rfl, rfl⟩
  · have hsize : target.sourceName ≠ "SIZE" := by
      rintro hsize
      rw [hsize] at hbuiltin
      exact absurd hbuiltin (by decide)
    rw [heq, if_neg hsize, if_neg hsize]
    exact (g.procCallText_front target texts).1.symm

theorem isNamed_directCallText (g : CodeGen) (target : SymbolId) (args : List HirExpr)
    (texts : List Layout) :
    isNamed (g.directCallText target args texts) = match target.sourceName with
      | "RE" | "IM" => true
      | "HIGH" => isNamed (texts.getD 0 (.other target.sourceName))
      | _ => false := by
  obtain ⟨-, heq⟩ | ⟨hname, s, ty, loc, -, heq⟩ | ⟨hname, p, ty, loc, text, -, -, heq⟩ |
    ⟨hbuiltin, heq⟩ := g.directCallText_cases target args texts
  · rw [heq, isNamed_codegenBuiltin]
  · rw [heq, hname]
    rfl
  · rw [heq, hname]
    rfl
  · rw [heq, (g.procCallText_front target texts).2]
    split <;> simp_all [isBuiltinProc]

/-! ## What is seen of an operand is what its text has -/

theorem isNamed_signed (negative : Bool) (digits : String) :
    isNamed (signed negative digits) = false := by
  cases negative <;> rfl

theorem isNamed_unionText (texts : List Layout) : isNamed (unionText texts) = false := by
  cases texts <;> rfl

theorem isNamed_binaryText (l r : Layout) (emission : BinaryEmission) :
    isNamed (binaryText l r emission) = false := by
  cases emission <;> rfl

theorem isNamed_exprText (g : CodeGen) : ∀ e : HirExpr,
    isNamed (g.exprText false e) = g.endsInName e
  | ⟨.intLit v, _, _⟩ => by simp [exprText, endsInName, intText, isNamed_signed]
  | ⟨.realLit bits, _, _⟩ => by simp [exprText, endsInName, isNamed_signed]
  | ⟨.stringLit s, _, _⟩ | ⟨.unaryOp .neg operand, _, _⟩ => by
    simp only [exprText, endsInName]
    split_ifs <;> rfl
  | ⟨.charLit c, _, _⟩ => by simp [exprText, endsInName, charText, isNamed]
  | ⟨.boolLit b, _, _⟩ | ⟨.nilLit, _, _⟩ | ⟨.addrOf p, _, _⟩ | ⟨.not operand, _, _⟩
  | ⟨.deref operand, _, _⟩ => by simp [exprText, endsInName, isNamed]
  | ⟨.place p, _, _⟩ => by simp [exprText, endsInName, isNamed_placeText]
  | ⟨.directCall target [], _, _⟩ => by
    simp only [exprText, endsInName, isNamed_directCallText, exprTexts]
    split <;> simp_all [isNamed]
  | ⟨.directCall target (a :: as), _, _⟩ => by
    have ih := isNamed_exprText g a
    simp only [exprText, endsInName, isNamed_directCallText, exprTexts, getD_cons_zero, ih]
    split <;> simp_all
  | ⟨.indirectCall callee args, _, _⟩ => by simp [exprText, endsInName, isNamed_callText]
  | ⟨.unaryOp .pos operand, _, _⟩ => by
    simpa only [exprText, endsInName] using isNamed_exprText g operand
  | ⟨.binaryOp op left right, _, _⟩ => by
    simp only [exprText, endsInName]
    split_ifs <;> first | contradiction | exact isNamed_binaryText _ _ _
  | ⟨.setConstructor elements, _, _⟩ => by simp [exprText, endsInName, isNamed_unionText]
  | ⟨.typeTransfer operand, _, _⟩ => by
    simp only [exprText, endsInName]
    split_ifs <;> first | contradiction | rfl

theorem placeLead_of_endsInName (g : CodeGen) :
    ∀ p : Place, g.placeEndsInName p → placeLead p = none
  | ⟨.constant v, ps, _, _⟩, h => by
    obtain ⟨rfl, -⟩ : v = .nil ∧ _ := by simpa [placeEndsInName] using h
    rfl
  | ⟨.funcRef _, _, _, _⟩, _ => rfl
  | ⟨.localVar _, _, _, _⟩, _ => rfl
  | ⟨.globalVar _, _, _, _⟩, _ => rfl

theorem leadOf_of_endsInName (g : CodeGen) : ∀ e : HirExpr, g.endsInName e →
    g.leadOf false e = none
  | ⟨.nilLit, _, _⟩, _ => by simp [leadOf]
  | ⟨.place p, _, _⟩, h => by
    simp only [endsInName] at h
    simpa only [leadOf] using g.placeLead_of_endsInName p h
  | ⟨.unaryOp .pos operand, _, _⟩, h => by
    simp only [endsInName] at h
    simpa only [leadOf] using leadOf_of_endsInName g operand h
  | ⟨.directCall target [], _, _⟩, h => by
    simp only [endsInName, Bool.or_eq_true, beq_iff_eq] at h
    obtain h | h := h <;> simp [leadOf, h]
  | ⟨.directCall target (a :: as), _, _⟩, h => by
    simp only [endsInName, Bool.or_eq_true, Bool.and_eq_true, beq_iff_eq] at h
    obtain (h | h) | h := h <;> simp [leadOf, h]

theorem lead_exprText (g : CodeGen) (index : Bool) : ∀ e : HirExpr,
    (g.exprText index e).lead = g.leadOf index e
  | ⟨.intLit v, _, _⟩ => by simp [exprText, leadOf, intText, lead_signed]
  | ⟨.realLit bits, _, _⟩ => by simp [exprText, leadOf, lead_signed]
  | ⟨.stringLit s, _, _⟩ | ⟨.charLit c, _, _⟩ | ⟨.unaryOp .neg operand, _, _⟩ => by
    simp only [exprText, leadOf]
    split_ifs <;> rfl
  | ⟨.boolLit b, _, _⟩ | ⟨.nilLit, _, _⟩ | ⟨.addrOf p, _, _⟩ => by
    simp [exprText, leadOf, Layout.lead]
  | ⟨.place p, _, _⟩ => by simp [exprText, leadOf, g.placeText_front p]
  | ⟨.directCall target [], _, _⟩ => by
    simp only [exprText, leadOf]
    exact (g.directCallText_front target [] (g.exprTexts []) (by simp [exprTexts, isNamed])).1
  | ⟨.directCall target (a :: as), _, _⟩ => by
    have ih := lead_exprText g false a
    simp only [exprText, leadOf]
    refine (g.directCallText_front target (a :: as) (g.exprTexts (a :: as)) fun _ h => ?_).1
    simp only [exprTexts, getD_cons_zero, isNamed_exprText] at h ⊢
    rw [ih, g.leadOf_of_endsInName a h]
  | ⟨.indirectCall callee args, _, _⟩ => by
    simpa only [exprText, leadOf, lead_callText] using lead_exprText g false callee
  | ⟨.unaryOp .pos operand, _, _⟩ => by
    simpa only [exprText, leadOf] using lead_exprText g false operand
  | ⟨.binaryOp op left right, _, _⟩ => by
    have ih := lead_exprText g false left
    have hscalar : (scalarText left (g.exprText false left)).lead = g.leadOf false left := by
      unfold scalarText
      split
      · next s ty loc =>
        rw [← ih]
        split_ifs
        · simp only [exprText]
          split_ifs <;> rfl
        · rfl
      · exact ih
    have hbinary : ∀ (l r : Layout) (emission : BinaryEmission),
        (binaryText l r emission).lead =
          if emission.bareOperator = none then none else l.lead := by
      intro l r emission
      cases emission <;> rfl
    cases index
    · simp only [exprText, leadOf, Bool.false_eq_true, if_false, false_or]
      split_ifs <;> simp_all
    · simp [exprText, leadOf]
  | ⟨.not operand, _, _⟩ | ⟨.deref operand, _, _⟩ => by simp [exprText, leadOf]
  | ⟨.setConstructor elements, _, _⟩ => by
    simp only [exprText, leadOf]
    cases g.elementTexts elements <;> rfl
  | ⟨.typeTransfer operand, _, _⟩ => by
    have ih := lead_exprText g true operand
    cases index
    · simp only [exprText, leadOf, Bool.false_eq_true, if_false]
      split_ifs <;> rfl
    · simpa only [exprText, leadOf, if_true] using ih

/-- The text without the `&` at its front. -/
def stripAddr (a : Layout) : Layout := if a.lead = some .addr then dropLead a else a

/-- The text of an expression in its position. -/
def textAt (g : CodeGen) : Position → HirExpr → Layout
  | .value, e => g.exprText false e
  | .index, e => g.exprText true e
  | .stripped, e => stripAddr (g.exprText false e)

theorem stripAddr_of_lead {a : Layout} (h : a.lead ≠ some .addr) : stripAddr a = a := if_neg h

theorem stripAddr_unary (a : Layout) : stripAddr (.unary .addr a) = a := rfl

theorem stripAddr_callText (f : Layout) (args : List Layout) :
    stripAddr (callText f args) = callText (stripAddr f) args := by
  unfold stripAddr
  rw [lead_callText]
  cases args <;> split_ifs <;> rfl

theorem stripAddr_binary (o : Binary) (a b : Layout) :
    stripAddr (.binary o a b) = .binary o (stripAddr a) b := by
  by_cases h : a.lead = some .addr <;> simp [stripAddr, Layout.lead, h, dropLead]

theorem strength_binaryText (l r : Layout) (emission : BinaryEmission) :
    (binaryText l r emission).strength =
      match emission.bareOperator with
      | some o => o.strength.getD 0
      | none => 15 := by
  cases emission <;> simp only [binaryText, BinaryEmission.bareOperator, strength_namedCall] <;> rfl

theorem strength_exprText (g : CodeGen) (index : Bool) : ∀ e : HirExpr,
    (g.exprText index e).strength = g.binding (if index then .index else .value) e
  | ⟨.intLit v, _, _⟩ => by simp [exprText, binding, intText, strength_signed]
  | ⟨.realLit bits, _, _⟩ => by simp [exprText, binding, strength_signed]
  | ⟨.stringLit s, _, _⟩ | ⟨.charLit c, _, _⟩ | ⟨.unaryOp .neg operand, _, _⟩ => by
    simp only [exprText, binding]
    split_ifs <;> rfl
  | ⟨.boolLit b, _, _⟩ | ⟨.nilLit, _, _⟩ | ⟨.not operand, _, _⟩ | ⟨.deref operand, _, _⟩ => by
    simp [exprText, binding, Layout.strength]
  | ⟨.place p, _, _⟩ => by simp [exprText, binding, g.placeText_front p]
  | ⟨.addrOf p, _, _⟩ => by cases index <;> simp [exprText, binding, Layout.strength]
  | ⟨.directCall target args, _, _⟩ => by
    simp only [exprText, binding]
    refine (g.directCallText_front target args (g.exprTexts args) fun _ h => ?_).2
    cases args with
    | nil => rfl
    | cons a as =>
      simp only [exprTexts, getD_cons_zero, isNamed_exprText] at h ⊢
      rw [lead_exprText, g.leadOf_of_endsInName a h]
  | ⟨.indirectCall callee args, _, _⟩ => by
    simp only [exprText, binding, strength_callText]
  | ⟨.unaryOp .pos operand, _, _⟩ => by
    have ih := strength_exprText g false operand
    cases index <;> simpa [exprText, binding, Position.front] using ih
  | ⟨.binaryOp op left right, _, _⟩ => by
    cases index
    · simp only [exprText, binding, Bool.false_eq_true, if_false, reduceCtorEq]
      split_ifs <;> exact strength_binaryText _ _ _
    · simp [exprText, binding, Layout.strength]
  | ⟨.setConstructor elements, _, _⟩ => by
    simp only [exprText, binding]
    cases g.elementTexts elements <;> rfl
  | ⟨.typeTransfer operand, _, _⟩ => by
    have ih := strength_exprText g true operand
    cases index
    · simp only [exprText, binding, Bool.false_eq_true, if_false, reduceCtorEq]
      split_ifs <;> rfl
    · simpa only [exprText, binding, if_true] using ih

theorem placeLead_ne_addr : ∀ p : Place, placeLead p ≠ some .addr
  | ⟨.constant v, _, _, _⟩ => by
    cases v <;> simp only [placeLead, constLead] <;> first | (split_ifs <;> decide) | decide
  | ⟨.funcRef _, _, _, _⟩ | ⟨.localVar _, _, _, _⟩ | ⟨.globalVar _, _, _, _⟩ => by simp [placeLead]

variable {e : HirExpr} {g : CodeGen}

theorem textAt_stripped_of_lead (h : g.leadOf false e ≠ some .addr) :
    g.textAt .stripped e = g.textAt .value e :=
  stripAddr_of_lead (by rwa [lead_exprText])

/-- Expressions whose text cannot start with `&`. -/
def isRigid (g : CodeGen) : HirExpr → Bool
  | ⟨.addrOf _, _, _⟩ | ⟨.unaryOp .pos _, _, _⟩ | ⟨.indirectCall _ _, _, _⟩ => false
  | ⟨.binaryOp op left right, _, _⟩ =>
    (g.types.selectBinaryOp op left.ty right.ty).bareOperator.isNone
  | _ => true

theorem leadOf_of_isRigid (g : CodeGen) : ∀ e : HirExpr, g.isRigid e →
    g.leadOf false e ≠ some .addr
  | ⟨.intLit _, _, _⟩, _ | ⟨.realLit _, _, _⟩, _ | ⟨.directCall _ _, _, _⟩, _ => by
    simp only [leadOf]
    split_ifs <;> decide
  | ⟨.place p, _, _⟩, _ => by simpa only [leadOf] using placeLead_ne_addr p
  | ⟨.binaryOp op left right, _, _⟩, h => by
    simp only [isRigid, Option.isNone_iff_eq_none] at h
    simp [leadOf, h]
  | ⟨.stringLit _, _, _⟩, _ | ⟨.charLit _, _, _⟩, _ | ⟨.boolLit _, _, _⟩, _ | ⟨.nilLit, _, _⟩, _
  | ⟨.unaryOp .neg _, _, _⟩, _ | ⟨.not _, _, _⟩, _ | ⟨.deref _, _, _⟩, _
  | ⟨.setConstructor _, _, _⟩, _ | ⟨.typeTransfer _, _, _⟩, _ => by simp [leadOf]

theorem binding_of_isRigid (g : CodeGen) : ∀ e : HirExpr, g.isRigid e →
    g.binding .stripped e = g.binding .value e
  | ⟨.binaryOp op left right, _, _⟩, h => by
    simp only [isRigid, Option.isNone_iff_eq_none] at h
    simp [binding, h]
  | ⟨.intLit _, _, _⟩, _ | ⟨.realLit _, _, _⟩, _ | ⟨.directCall _ _, _, _⟩, _
  | ⟨.place _, _, _⟩, _ | ⟨.stringLit _, _, _⟩, _ | ⟨.charLit _, _, _⟩, _
  | ⟨.boolLit _, _, _⟩, _ | ⟨.nilLit, _, _⟩, _ | ⟨.unaryOp .neg _, _, _⟩, _ | ⟨.not _, _, _⟩, _
  | ⟨.deref _, _, _⟩, _ | ⟨.setConstructor _, _, _⟩, _ | ⟨.typeTransfer _, _, _⟩, _ => by
    simp [binding]

/-- Only an address binds differently without the `&`. -/
theorem strength_stripAddr (g : CodeGen) : ∀ e : HirExpr,
    (g.textAt .stripped e).strength = g.binding .stripped e
  | ⟨.addrOf p, _, _⟩ => by
    simp [textAt, exprText, binding, stripAddr_unary, g.placeText_front p]
  | ⟨.unaryOp .pos operand, _, _⟩ => by
    have ih := strength_stripAddr g operand
    simpa [textAt, exprText, binding, Position.front] using ih
  | ⟨.indirectCall callee args, _, _⟩ => by
    simp only [textAt, exprText, binding, stripAddr_callText, strength_callText]
  | ⟨.binaryOp op left right, _, _⟩ => by
    have hstrip : ∀ (l r : Layout) (emission : BinaryEmission),
        (stripAddr (binaryText l r emission)).strength = (binaryText l r emission).strength := by
      intro l r emission
      cases emission <;> simp only [binaryText, stripAddr_binary] <;> rfl
    simp only [textAt, exprText, binding, Bool.false_eq_true, if_false, reduceCtorEq]
    split_ifs <;> rw [hstrip, strength_binaryText]
  | ⟨.intLit _, _, _⟩ | ⟨.realLit _, _, _⟩ | ⟨.stringLit _, _, _⟩ | ⟨.charLit _, _, _⟩
  | ⟨.boolLit _, _, _⟩ | ⟨.nilLit, _, _⟩ | ⟨.place _, _, _⟩ | ⟨.directCall _ _, _, _⟩
  | ⟨.unaryOp .neg _, _, _⟩ | ⟨.not _, _, _⟩ | ⟨.deref _, _, _⟩ | ⟨.setConstructor _, _, _⟩
  | ⟨.typeTransfer _, _, _⟩ => rigid g _ rfl
where
  rigid (g : CodeGen) (e : HirExpr) (h : g.isRigid e) :
      (g.textAt .stripped e).strength = g.binding .stripped e := by
    rw [textAt_stripped_of_lead (g.leadOf_of_isRigid e h), g.binding_of_isRigid e h]
    exact g.strength_exprText false e

theorem strength_textAt (g : CodeGen) (pos : Position) (e : HirExpr) :
    (g.textAt pos e).strength = g.binding pos e := by
  cases pos with
  | value => exact g.strength_exprText false e
  | index => exact g.strength_exprText true e
  | stripped => exact g.strength_stripAddr e

/-- The operators without operands strong enough for any place are in no text. -/
theorem selectBinaryOp_operator (reg : TypeRegistry) (op : BinaryOp) (left right : TypeId) :
    ∀ o, reg.selectBinaryOp op left right = .parens o ∨ reg.selectBinaryOp op left right = .bare o →
      ∃ p, (operator o).strength = some p ∧ 2 ≤ p := by
  intro o h
  cases op <;> simp only [TypeRegistry.selectBinaryOp] at h <;> (try split_ifs at h) <;>
    simp only [BinaryEmission.parens.injEq, BinaryEmission.bare.injEq, reduceCtorEq, or_false,
      false_or] at h <;> subst h <;> exact ⟨_, rfl, by decide⟩

theorem fourteen_le_placeBinding : ∀ p : Place, 14 ≤ placeBinding p
  | ⟨.constant _, _, _, _⟩ => by
    simp only [placeBinding]
    split_ifs <;> decide
  | ⟨.funcRef _, _, _, _⟩ | ⟨.localVar _, _, _, _⟩ | ⟨.globalVar _, _, _, _⟩ => by
    simp [placeBinding]

theorem two_le_binding (g : CodeGen) (pos : Position) : ∀ e : HirExpr, 2 ≤ g.binding pos e
  | ⟨.intLit _, _, _⟩ | ⟨.realLit _, _, _⟩ | ⟨.directCall _ _, _, _⟩ => by
    simp only [binding]
    split_ifs <;> decide
  | ⟨.place p, _, _⟩ => by
    simp only [binding]
    exact Nat.le_trans (by decide) (fourteen_le_placeBinding p)
  | ⟨.addrOf p, _, _⟩ => by
    simp only [binding]
    split_ifs
    · exact Nat.le_trans (by decide) (fourteen_le_placeBinding p)
    · decide
  | ⟨.unaryOp .pos operand, _, _⟩ => by
    simpa only [binding] using two_le_binding g pos.front operand
  | ⟨.binaryOp op left right, _, _⟩ => by
    simp only [binding]
    split_ifs
    · decide
    · cases hsel : g.types.selectBinaryOp op left.ty right.ty with
      | bare o =>
        obtain ⟨p, hp, h2⟩ := selectBinaryOp_operator _ _ _ _ o (.inr hsel)
        simpa [BinaryEmission.bareOperator, hp] using h2
      | _ => simp [BinaryEmission.bareOperator]
  | ⟨.typeTransfer operand, _, _⟩ => by
    have ih := two_le_binding g .index operand
    simp only [binding]
    split_ifs
    · exact ih
    · decide
  | ⟨.stringLit _, _, _⟩ | ⟨.charLit _, _, _⟩ | ⟨.boolLit _, _, _⟩ | ⟨.nilLit, _, _⟩
  | ⟨.unaryOp .neg _, _, _⟩ | ⟨.not _, _, _⟩ | ⟨.deref _, _, _⟩ | ⟨.setConstructor _, _, _⟩
  | ⟨.indirectCall _ _, _, _⟩ => by simp [binding]

theorem two_le_strength (g : CodeGen) (pos : Position) (e : HirExpr) :
    2 ≤ (g.textAt pos e).strength := by
  rw [strength_textAt]
  exact g.two_le_binding pos e

/-! ## Layouts of calls and operations that parse -/

section Parses

variable {f l r : Layout} {args : List Layout}

theorem parses_chain {a : Layout} {as : List Layout} (h : ∀ b ∈ a :: as, 2 ≤ b.strength) :
    (callText.chain a as).Fits 1 ↔ ∀ b ∈ a :: as, b.Parses := by
  induction as generalizing a with
  | nil =>
    have ha : 1 ≤ a.strength := Nat.le_of_succ_le (h a (by simp))
    simp [callText.chain, Layout.fits_iff_parses ha]
  | cons b bs ih =>
    have hstrength : 1 ≤ (Layout.args a (callText.chain b bs)).strength := Nat.le_refl 1
    rw [callText.chain, Layout.fits_iff_parses hstrength, Layout.parses_args,
      Layout.fits_iff_parses (h a (by simp)), ih fun c hc => h c (mem_cons_of_mem _ hc)]
    exact forall_mem_cons.symm

theorem parses_callText (h : ∀ a ∈ args, 2 ≤ a.strength) :
    (callText f args).Parses ↔ f.Fits 15 ∧ ∀ a ∈ args, a.Parses := by
  cases args with
  | nil => simp [callText]
  | cons a as => rw [callText, Layout.parses_call, parses_chain h]

theorem parses_namedCall {name : String} (h : ∀ a ∈ args, 2 ≤ a.strength) :
    (namedCall name args).Parses ↔ ∀ a ∈ args, a.Parses := by
  have hname : (Layout.atom (.ident name)).Fits 15 := ⟨Layout.parses_atom, Nat.le_refl 15⟩
  rw [namedCall, parses_callText h, and_iff_right hname]

variable {ty : String}

@[simp] theorem parses_castText : (castText ty l).Parses ↔ l.Fits 2 := by
  simp [castText, Layout.Fits]

@[simp] theorem strength_uncastText : (uncastText ty l).strength = 14 := by
  simp only [uncastText, Layout.strength]

@[simp] theorem lead_uncastText : (uncastText ty l).lead = none := by
  simp only [uncastText, Layout.lead]

@[simp] theorem parses_uncastText : (uncastText ty l).Parses ↔ l.Fits 2 := by
  simp [uncastText, Layout.Fits]

theorem parses_allocArg :
    (allocArg l).Parses ↔ l.Parses ∧ (l.lead = some .addr → 14 ≤ l.strength) := by
  unfold allocArg
  split_ifs with h <;> simp [Layout.Fits, h]

theorem parses_binaryText {emission : BinaryEmission}
    (h : ∀ o, emission = .parens o ∨ emission = .bare o →
      ∃ p, (operator o).strength = some p ∧ 2 ≤ p)
    (hl : 2 ≤ l.strength) (hr : 2 ≤ r.strength) :
    (binaryText l r emission).Parses ↔
      l.Fits emission.operandStrengths.1 ∧ r.Fits emission.operandStrengths.2 := by
  have hargs : ∀ a ∈ [l, r], 2 ≤ a.strength := by simpa using ⟨hl, hr⟩
  cases emission with
  | parens o | bare o =>
    obtain ⟨p, hp, h2⟩ := h o (by simp)
    have hstrength : 2 ≤ (Layout.binary (operator o) l r).strength := by
      simpa [hp] using h2
    simp [binaryText, BinaryEmission.operandStrengths, hp, Layout.fits_iff_parses hstrength]
  | call name =>
    simp [binaryText, BinaryEmission.operandStrengths, parses_namedCall hargs,
      Layout.fits_iff_parses hl, Layout.fits_iff_parses hr]
  | notCall name =>
    have hstrength : 2 ≤ (Layout.unary .not (namedCall name [l, r])).strength := by simp
    have hcall : 14 ≤ (namedCall name [l, r]).strength := by simp
    simp [binaryText, BinaryEmission.operandStrengths, Layout.fits_iff_parses hstrength,
      Layout.fits_iff_parses hcall, parses_namedCall hargs, Layout.fits_iff_parses hl,
      Layout.fits_iff_parses hr]
  | andNot =>
    simp [binaryText, BinaryEmission.operandStrengths, Layout.Fits, hr, Binary.strength]
  | realDiv =>
    simp [binaryText, BinaryEmission.operandStrengths, Layout.Fits, hl, hr, Binary.strength]
  | member =>
    simp [binaryText, BinaryEmission.operandStrengths, Layout.Fits, Binary.strength, and_comm]
    exact fun _ _ _ => Iff.rfl

theorem parses_unionText (h : ∀ a ∈ args, a.strength = 15) :
    (unionText args).Parses ↔ ∀ a ∈ args, a.Parses := by
  have hfold : ∀ (as : List Layout) (a : Layout), 6 ≤ a.strength → (∀ b ∈ as, b.strength = 15) →
      (((as.foldl (Layout.binary .or) a).Parses ↔ a.Parses ∧ ∀ b ∈ as, b.Parses) ∧
        6 ≤ (as.foldl (Layout.binary .or) a).strength) := by
    intro as
    induction as with
    | nil => simp
    | cons b bs ih =>
      intro a ha hbs
      have hb : b.strength = 15 := hbs b (by simp)
      have hrest := ih (.binary .or a b) (Nat.le_refl 6) fun c hc => hbs c (mem_cons_of_mem _ hc)
      refine ⟨?_, hrest.2⟩
      rw [foldl_cons, hrest.1]
      simp [Layout.Fits, Binary.strength, ha, hb, and_assoc]
  cases args with
  | nil => simp [unionText]
  | cons a as =>
    have ha : 6 ≤ a.strength := by
      rw [h a (by simp)]
      decide
    obtain ⟨hparses, hstrength⟩ := hfold as a ha fun b hb => h b (mem_cons_of_mem _ hb)
    have h2 : 2 ≤ (as.foldl (Layout.binary .or) a).strength := Nat.le_trans (by decide) hstrength
    rw [unionText, Layout.parses_paren, Layout.fits_iff_parses h2, hparses]
    exact forall_mem_cons.symm

end Parses

theorem parses_highText (a : Layout) : (highText a).Parses ↔ isNamed a ∧ a.Parses := by
  unfold highText
  split <;> simp_all [isNamed]

theorem parses_sizeText (g : CodeGen) (a : Layout) (h : (g.typeArg a).isSome ∨ 2 ≤ a.strength) :
    (g.sizeText a).Parses ↔ (g.typeArg a).isSome ∨ a.Parses := by
  unfold sizeText
  cases hty : g.typeArg a with
  | some ty => simp
  | none =>
    have h2 : 2 ≤ a.strength := by simpa [hty] using h
    simp [Layout.Fits, h2]

section Builtin

variable {texts : List Layout} {name : String}

theorem two_le_getD (h : ∀ t ∈ texts, 2 ≤ t.strength) (i : Nat) {d : Layout}
    (hd : 2 ≤ d.strength) : 2 ≤ (texts.getD i d).strength := by
  rw [getD_eq_getElem?_getD]
  cases hi : texts[i]? with
  | none => exact hd
  | some t => exact h t (mem_of_getElem? hi)

theorem fits_getD (h : ∀ t ∈ texts, 2 ≤ t.strength) (i : Nat) {d : Layout} (hd : 2 ≤ d.strength) :
    (texts.getD i d).Fits 2 ↔ (texts.map Layout.Parses).getD i d.Parses := by
  rw [Layout.fits_iff_parses (two_le_getD h i hd), getD_eq_getElem?_getD,
    getD_eq_getElem?_getD, getElem?_map]
  cases texts[i]? <;> simp

/-- A builtin call parses if the arguments that it uses do. -/
theorem parses_codegenBuiltin (g : CodeGen) (h : ∀ t ∈ texts, 2 ≤ t.strength) :
    (g.codegenBuiltin name texts).Parses ↔
      builtinKeeps g name texts (texts.head?.any isNamed) (texts.map Layout.Parses) := by
  have hother : (Layout.other name).Parses = False := by simp
  have h0 := fits_getD h 0 (d := .other name) (by simp [Layout.strength])
  have h1 := fits_getD h 1 (d := .other name) (by simp [Layout.strength])
  rw [hother] at h0 h1
  have ha := two_le_getD h 0 (d := .other name) (by simp [Layout.strength])
  have hexit : 2 ≤ (texts.headD (.atom (.number "0"))).strength := by
    cases texts with
    | nil => simp
    | cons t ts => exact h t (by simp)
  have hhalt : (texts.headD (.atom (.number "0"))).Fits 2 ↔
      (texts.map Layout.Parses).headD True := by
    cases texts with
    | nil => simp [Layout.Fits]
    | cons t ts => simp [Layout.Fits, h t (by simp)]
  have hsecond : (if texts.length ≥ 2 then texts.getD 1 (.other name)
      else .atom (.number "0.0f")).Fits 2 ↔ (texts.map Layout.Parses).getD 1 True := by
    cases texts with
    | nil => simp [Layout.Fits]
    | cons t ts =>
      cases ts with
      | nil => simp [Layout.Fits]
      | cons u us => simp [Layout.Fits, h u (by simp)]
  have hnamed : texts.head?.any isNamed = isNamed (texts.getD 0 (.other name)) := by
    cases texts <;> simp [isNamed]
  have hsize14 : ∀ a, (g.sizeText a).strength = 14 := by
    intro a
    unfold sizeText
    split <;> rfl
  have hsize := g.parses_sizeText (texts.getD 0 (.other name)) (.inr ha)
  have hcall : ∀ f a, 2 ≤ a.strength → ((namedCall f [a]).Parses ↔ a.Fits 2) := by
    intro f a h2
    rw [parses_namedCall (by simpa using h2), Layout.fits_iff_parses h2]
    simp
  have hcall2 : ∀ f a b, (namedCall f [uncastText "uint32_t" a, .paren b]).Parses ↔
      a.Fits 2 ∧ b.Fits 2 := by
    intro f a b
    rw [parses_namedCall (by simp)]
    simp
  unfold codegenBuiltin builtinKeeps
  dsimp only
  rw [hnamed, length_map]
  rw [← Layout.fits_iff_parses ha] at hsize
  simp only [← h0, ← h1, ← hsecond, ← hhalt]
  generalize texts.getD 0 (.other name) = a at *
  generalize texts.getD 1 (.other name) = b at *
  split
  all_goals first
    | exact parses_castText
    | exact hsize
    | exact hcall _ _ ha
    | exact hcall _ _ hexit
    | exact hcall2 _ _ _
    | (rw [parses_highText, Layout.fits_iff_parses ha]; exact Iff.rfl)
    | (split_ifs <;> exact parses_castText)
    | simp [Layout.Fits, Binary.strength, hsize, hsize14]

end Builtin

/-! ## Arguments -/

/-- `hir_args_to_string` of a procedure that allocates or not. -/
def allocHead (allocates : Bool) : List Layout → List Layout
  | [] => []
  | a :: as => (if allocates then allocArg a else a) :: as

theorem regularArgs_eq (name : String) (texts : List Layout) :
    regularArgs name texts =
      allocHead (name.endsWith "ALLOCATE" || name.endsWith "DEALLOCATE") texts := by
  cases texts with
  | nil => rfl
  | cons a as =>
    simp only [regularArgs, allocHead]
    split_ifs <;> rfl

theorem two_le_allocArg {a : Layout} (h : 2 ≤ a.strength) : 2 ≤ (allocArg a).strength := by
  unfold allocArg
  split_ifs
  · simp
  · exact h

theorem two_le_exprTexts (g : CodeGen) : ∀ (es : List HirExpr), ∀ a ∈ g.exprTexts es, 2 ≤ a.strength
  | [] => by simp [exprTexts]
  | e :: es => by
    simp only [exprTexts, forall_mem_cons]
    exact ⟨g.two_le_strength .value e, two_le_exprTexts g es⟩

theorem two_le_allocHead (g : CodeGen) (allocates : Bool) (es : List HirExpr) :
    ∀ a ∈ allocHead allocates (g.exprTexts es), 2 ≤ a.strength := by
  have h := g.two_le_exprTexts es
  cases htexts : g.exprTexts es with
  | nil => simp [allocHead]
  | cons a as =>
    rw [htexts] at h
    intro b hb
    obtain rfl | hb := mem_cons.mp hb
    · have ha := h a (by simp)
      split_ifs
      · exact two_le_allocArg ha
      · exact ha
    · exact h b (mem_cons_of_mem _ hb)

/-- The first argument of a native procedure. -/
theorem nativeArgs_cons (first isVar isOpen : Bool) (params : List (Bool × Bool)) (a : Layout)
    (as : List Layout) :
    nativeArgs first ((isVar, isOpen) :: params) (a :: as) =
      (if first then allocArg (if isOpen then stripAddr a else a)
        else if isOpen then stripAddr a else a) ::
      match isOpen, as with
      | true, high :: as =>
        if isVar then high :: nativeArgs false params as else nativeArgs false params as
      | _, as => nativeArgs false params as := by
  have hstrip : (if (isOpen && a.lead == some .addr) = true then dropLead a else a) =
      if isOpen then stripAddr a else a := by
    cases isOpen <;> simp [stripAddr]
  simp only [nativeArgs, hstrip]
  cases isOpen <;> cases as <;> cases isVar <;> rfl

/-- An address is not followed by another one. -/
theorem lead_stripAddr (g : CodeGen) : ∀ e : HirExpr, (g.textAt .stripped e).lead ≠ some .addr
  | ⟨.addrOf p, _, _⟩ => by
    simpa [textAt, exprText, stripAddr_unary, g.placeText_front p] using placeLead_ne_addr p
  | ⟨.unaryOp .pos operand, _, _⟩ => by
    simpa [textAt, exprText] using lead_stripAddr g operand
  | ⟨.indirectCall callee args, _, _⟩ => by
    simpa [textAt, exprText, stripAddr_callText, lead_callText] using lead_stripAddr g callee
  | ⟨.binaryOp op left right, ty, loc⟩ => by
    have ih := lead_stripAddr g left
    cases hsel : g.types.selectBinaryOp op left.ty right.ty with
    | bare o =>
      have hscalar : (stripAddr (scalarText left (g.exprText false left))).lead ≠ some .addr := by
        unfold scalarText
        split
        · split_ifs
          · simp [stripAddr, charText, Layout.lead]
          · exact ih
        · exact ih
      simp only [textAt, exprText, hsel, binaryText, Bool.false_eq_true, if_false]
      split_ifs <;> rw [stripAddr_binary]
      · exact hscalar
      · exact ih
    | _ => exact rigid g _ (by simp [isRigid, hsel, BinaryEmission.bareOperator])
  | ⟨.intLit _, _, _⟩ | ⟨.realLit _, _, _⟩ | ⟨.stringLit _, _, _⟩ | ⟨.charLit _, _, _⟩
  | ⟨.boolLit _, _, _⟩ | ⟨.nilLit, _, _⟩ | ⟨.place _, _, _⟩ | ⟨.directCall _ _, _, _⟩
  | ⟨.unaryOp .neg _, _, _⟩ | ⟨.not _, _, _⟩ | ⟨.deref _, _, _⟩ | ⟨.setConstructor _, _, _⟩
  | ⟨.typeTransfer _, _, _⟩ => rigid g _ rfl
where
  rigid (g : CodeGen) (e : HirExpr) (h : g.isRigid e) :
      (g.textAt .stripped e).lead ≠ some .addr := by
    rw [textAt_stripped_of_lead (g.leadOf_of_isRigid e h), textAt, lead_exprText]
    exact g.leadOf_of_isRigid e h

theorem allocArg_stripAddr (g : CodeGen) (e : HirExpr) :
    allocArg (stripAddr (g.exprText false e)) = stripAddr (g.exprText false e) :=
  if_neg (g.lead_stripAddr e)

theorem two_le_nativeArgs (g : CodeGen) : ∀ (first : Bool) (params : List (Bool × Bool))
    (es : List HirExpr), ∀ a ∈ nativeArgs first params (g.exprTexts es), 2 ≤ a.strength
  | first, [], es => by simpa [nativeArgs] using g.two_le_exprTexts es
  | first, _ :: _, [] => by simp [nativeArgs, exprTexts]
  | first, (isVar, false) :: params, e :: es => by
    have ih := two_le_nativeArgs g false params es
    have he := g.two_le_strength .value e
    simp only [exprTexts, nativeArgs_cons, forall_mem_cons, Bool.false_eq_true, if_false]
    refine ⟨?_, ih⟩
    split_ifs
    · exact two_le_allocArg he
    · exact he
  | first, (isVar, true) :: params, [e] => by
    have he : 2 ≤ (stripAddr (g.exprText false e)).strength := g.two_le_strength .stripped e
    simp only [exprTexts, nativeArgs_cons, if_true, allocArg_stripAddr, ite_self]
    cases params <;> simpa [nativeArgs] using he
  | first, (isVar, true) :: params, e :: high :: es => by
    have ih := two_le_nativeArgs g false params es
    have he := g.two_le_strength .stripped e
    have hh := g.two_le_strength .value high
    simp only [exprTexts, nativeArgs_cons, if_true, allocArg_stripAddr, ite_self, forall_mem_cons]
    refine ⟨he, ?_⟩
    split_ifs
    · exact forall_mem_cons.mpr ⟨hh, ih⟩
    · exact ih

theorem strength_elementTexts (g : CodeGen) : ∀ (es : List HirSetElement),
    ∀ a ∈ g.elementTexts es, a.strength = 15
  | [] => by simp [elementTexts]
  | .single e :: es | .range lo hi :: es => by
    simpa [elementTexts] using strength_elementTexts g es

/-! ## The text parses exactly if the tree is kept -/

theorem keepsTree_of_isRigid (g : CodeGen) : ∀ e : HirExpr, g.isRigid e →
    (KeepsTree g .stripped e ↔ KeepsTree g .value e)
  | ⟨.binaryOp op left right, _, _⟩, h => by
    simp only [isRigid, Option.isNone_iff_eq_none] at h
    simp [KeepsTree, h]
  | ⟨.intLit _, _, _⟩, _ | ⟨.realLit _, _, _⟩, _ | ⟨.directCall _ _, _, _⟩, _
  | ⟨.place _, _, _⟩, _ | ⟨.stringLit _, _, _⟩, _ | ⟨.charLit _, _, _⟩, _
  | ⟨.boolLit _, _, _⟩, _ | ⟨.nilLit, _, _⟩, _ | ⟨.unaryOp .neg _, _, _⟩, _ | ⟨.not _, _, _⟩, _
  | ⟨.deref _, _, _⟩, _ | ⟨.setConstructor _, _, _⟩, _ | ⟨.typeTransfer _, _, _⟩, _ => by
    simp [KeepsTree, Position.operand]

/-- The position of the two emitters. -/
def Position.of (index : Bool) : Position := if index then .index else .value

/-- A text that cannot start with `&` is the same in two positions. -/
theorem parses_of_isRigid (hrigid : g.isRigid e)
    (h : ∀ index, (g.exprText index e).Parses ↔ KeepsTree g (.of index) e) (pos : Position) :
    (g.textAt pos e).Parses ↔ KeepsTree g pos e := by
  cases pos with
  | value => exact h false
  | index => exact h true
  | stripped =>
    rw [textAt_stripped_of_lead (g.leadOf_of_isRigid e hrigid), g.keepsTree_of_isRigid e hrigid]
    exact h false

theorem fits_textAt {pos : Position} (n : Nat) (h : (g.textAt pos e).Parses ↔ KeepsTree g pos e) :
    (g.textAt pos e).Fits n ↔ KeepsTree g pos e ∧ n ≤ g.binding pos e := by
  rw [Layout.Fits, h, strength_textAt]

theorem parses_signed (negative : Bool) (digits : String) : (signed negative digits).Parses := by
  cases negative <;> simp [signed, Layout.Fits, Layout.lead]

theorem joined_of_ne {o o' : Unary} (h : o ≠ o') : joined (.op o.text) (.op o'.text) = none := by
  cases o <;> cases o' <;> first | decide | exact absurd rfl h

/-- Two minus signs run together. -/
theorem parses_neg {a : Layout} :
    (Layout.paren (.unary .neg a)).Parses ↔ a.Fits 14 ∧ a.lead ≠ some .neg := by
  have hjoin : (∀ o' ∈ a.lead, joined (.op Unary.neg.text) (.op o'.text) = none) ↔
      a.lead ≠ some .neg := by
    cases hlead : a.lead with
    | none => simp
    | some o' => cases o' <;> simp [joined, Unary.text, longOperators]
  simp only [Layout.parses_paren, Layout.Fits, Layout.strength_unary, Layout.parses_unary, hjoin]
  exact and_iff_left (by decide)

/-- Negations and dereferences stay apart. -/
theorem parses_not_deref {o : Unary} {a : Layout} (ho : o = .not ∨ o = .deref) :
    (Layout.paren (.unary o a)).Parses ↔ a.Fits 14 := by
  have hjoin : ∀ o' ∈ a.lead, joined (.op o.text) (.op o'.text) = none := by
    intro o' _
    obtain rfl | rfl := ho <;> cases o' <;> decide
  simp only [Layout.parses_paren, Layout.Fits, Layout.strength_unary, Layout.parses_unary,
    and_iff_left hjoin]
  exact and_iff_left (by decide)

theorem parses_addrOf (g : CodeGen) (p : Place) :
    (Layout.unary .addr (g.placeText p)).Parses ↔ (g.placeText p).Parses := by
  obtain ⟨hlead, hstrength⟩ := g.placeText_front p
  have h14 : 14 ≤ (g.placeText p).strength := by
    rw [hstrength]
    exact fourteen_le_placeBinding p
  have hjoin : ∀ o' ∈ (g.placeText p).lead,
      joined (.op Unary.addr.text) (.op o'.text) = none := by
    intro o' ho'
    apply joined_of_ne
    rintro rfl
    rw [hlead] at ho'
    exact placeLead_ne_addr p ho'
  rw [Layout.parses_unary, Layout.fits_iff_parses h14, and_iff_left hjoin]

theorem parses_constText (g : CodeGen) (v : ConstVal) : (g.constText v).Parses ↔ constKeeps v := by
  cases v <;> simp only [constText, constKeeps, iff_true]
  case integer | enumVariant | real => exact parses_signed _ _
  case char c | string s => split_ifs <;> simp_all
  all_goals exact Layout.parses_atom

theorem parses_baseText (g : CodeGen) (sym : SymbolId) :
    (g.baseText (.localVar sym)).Parses ∧ (g.baseText (.globalVar sym)).Parses := by
  constructor <;> simp only [baseText, baseText.envText] <;> split_ifs <;>
    simp [Layout.Fits, Layout.lead]

/-- A layout that can stand for another one in every place. -/
def Alike (a b : Layout) : Prop := a.strength = b.strength ∧ (a.Parses ↔ b.Parses)

theorem alike_scalarText (g : CodeGen) (e : HirExpr) :
    Alike (scalarText e (g.exprText false e)) (g.textAt .value e) ∧
      Alike (stripAddr (scalarText e (g.exprText false e))) (g.textAt .stripped e) := by
  have hatom : ∀ a : Atom, stripAddr (.atom a) = .atom a := fun _ => rfl
  unfold scalarText
  split
  · next s ty loc =>
    simp only [textAt, exprText]
    split_ifs <;> simp [charText, stringText, hatom, Alike]
  · exact ⟨⟨rfl, Iff.rfl⟩, ⟨rfl, Iff.rfl⟩⟩

theorem Alike.fits {a b : Layout} (h : Alike a b) (n : Nat) : a.Fits n ↔ b.Fits n := by
  rw [Layout.Fits, Layout.Fits, h.1, h.2]

/-- The address of the environment goes before the arguments. -/
theorem parses_envCall {env : Option String} {f : String} {args : List Layout}
    (hargs : ∀ a ∈ args, 2 ≤ a.strength) :
    (match env with
      | some env => namedCall f (.unary .addr (.atom (.ident env)) :: args)
      | none => namedCall f args).Parses ↔ ∀ a ∈ args, a.Parses := by
  split
  · rw [parses_namedCall (forall_mem_cons.mpr ⟨by simp, hargs⟩), forall_mem_cons]
    simp [Layout.Fits, Layout.lead]
  · exact parses_namedCall hargs

theorem parses_procCallText (g : CodeGen) (target : SymbolId) (es : List HirExpr) :
    (g.procCallText target (g.exprTexts es)).Parses ↔
      ∀ a ∈ (match g.nativeParams target with
        | some (proc, params) =>
          nativeArgs (proc.toUpper == "ALLOCATE" || proc.toUpper == "DEALLOCATE") params
            (g.exprTexts es)
        | none => regularArgs (g.callName target) (g.exprTexts es)), a.Parses := by
  unfold procCallText
  apply parses_envCall
  split
  · exact g.two_le_nativeArgs _ _ es
  · rw [regularArgs_eq]
    exact g.two_le_allocHead _ es

theorem parses_directCallText (g : CodeGen) (target : SymbolId) (es : List HirExpr) :
    (g.directCallText target es (g.exprTexts es)).Parses ↔
      if isBuiltinProc target.sourceName then
        builtinKeeps g target.sourceName (g.exprTexts es) (es.head?.any g.endsInName)
          ((g.exprTexts es).map Layout.Parses)
      else (g.procCallText target (g.exprTexts es)).Parses := by
  have hnamed : (g.exprTexts es).head?.any isNamed = es.head?.any g.endsInName := by
    cases es <;> simp [exprTexts, isNamed_exprText]
  obtain ⟨hbuiltin, heq⟩ | ⟨hname, s, ty, loc, rfl, heq⟩ |
    ⟨hname, p, ty, loc, text, rfl, htexts, heq⟩ |
    ⟨hbuiltin, heq⟩ := g.directCallText_cases target es (g.exprTexts es)
  · rw [heq, if_pos hbuiltin, parses_codegenBuiltin g (g.two_le_exprTexts es), hnamed]
  · rw [heq, hname, if_pos (by decide)]
    simp only [exprTexts, exprText, stringText, builtinKeeps, Layout.parses_paren, Layout.Fits,
      Layout.parses_cast, Layout.strength_cast, Layout.parses_atom, Layout.strength_atom]
    split_ifs <;> simp [charText]
  · have h2 := g.two_le_strength .value ⟨.place p, ty, loc⟩
    simp only [exprTexts, List.cons.injEq, and_true] at htexts
    subst htexts
    rw [heq, hname, if_pos (by decide), parses_castText]
    exact Layout.fits_iff_parses h2
  · rw [heq, hbuiltin]
    simp

theorem allocHead_false (texts : List Layout) : allocHead false texts = texts := by
  cases texts <;> rfl

theorem parses_first (allocates : Bool) (h : (g.textAt .value e).Parses ↔ KeepsTree g .value e) :
    (if allocates = true then allocArg (g.exprText false e) else g.exprText false e).Parses ↔
      KeepsTree g .value e ∧
        (allocates → g.leadOf false e = some .addr → 14 ≤ g.binding .value e) := by
  have hstrength := g.strength_textAt .value e
  simp only [textAt] at h hstrength
  cases allocates
  · simpa using h
  · simp [parses_allocArg, h, lead_exprText, hstrength]

section Closed

variable {a : Layout}

theorem fits_of_closed (h : a.strength = 15) {n : Nat} (hn : n ≤ 15) : a.Fits n ↔ a.Parses :=
  Layout.fits_iff_parses (h ▸ hn)

theorem parses_field_eq (h : a.strength = 15) (name : String) :
    (Layout.field a name).Parses = a.Parses := by
  rw [Layout.parses_field, fits_of_closed h (Nat.le_refl 15)]

theorem parses_arrow_eq (h : a.strength = 15) (name : String) :
    (Layout.arrow a name).Parses = a.Parses := by
  rw [Layout.parses_arrow, fits_of_closed h (Nat.le_refl 15)]

theorem parses_variantText_eq (h : a.strength = 15) (variant name : String) :
    (variantText a variant name).Parses = a.Parses := by
  rw [variantText, parses_field_eq rfl, parses_field_eq h]

theorem parses_deref_eq (h : a.strength = 15) :
    (Layout.paren (.unary .deref a)).Parses = a.Parses := by
  rw [parses_not_deref (.inr rfl), fits_of_closed h (by decide)]

theorem parses_index_eq (h : a.strength = 15)
    (he : (g.textAt .index e).Parses ↔ KeepsTree g .index e) :
    (Layout.index a (g.exprText true e)).Parses = (a.Parses ∧ KeepsTree g .index e) := by
  have hfits : (g.exprText true e).Fits 2 ↔ KeepsTree g .index e :=
    (Layout.fits_iff_parses (g.two_le_strength .index e)).trans he
  rw [Layout.parses_index, fits_of_closed h (Nat.le_refl 15), hfits]

end Closed

/-- Without the `&` at its front a comparison starts with the stripped left operand. -/
theorem stripAddr_binaryText (l r : Layout) (emission : BinaryEmission) :
    stripAddr (binaryText l r emission) =
      binaryText (if emission.bareOperator = none then l else stripAddr l) r emission := by
  cases emission <;> first | exact stripAddr_binary _ _ _ | rfl

theorem parses_binary {left right : HirExpr} {p : Position}
    (hl : (g.textAt p left).Parses ↔ KeepsTree g p left)
    (hr : (g.textAt .value right).Parses ↔ KeepsTree g .value right) (op : BinaryOp)
    {l r : Layout} (hl' : Alike l (g.textAt p left)) (hr' : Alike r (g.textAt .value right)) :
    (binaryText l r (g.types.selectBinaryOp op left.ty right.ty)).Parses ↔
      (KeepsTree g p left ∧
        (g.types.selectBinaryOp op left.ty right.ty).operandStrengths.1 ≤ g.binding p left) ∧
      KeepsTree g .value right ∧
        (g.types.selectBinaryOp op left.ty right.ty).operandStrengths.2 ≤
          g.binding .value right := by
  have h2l : 2 ≤ l.strength := hl'.1 ▸ g.two_le_strength p left
  have h2r : 2 ≤ r.strength := hr'.1 ▸ g.two_le_strength .value right
  rw [parses_binaryText (selectBinaryOp_operator _ _ _ _) h2l h2r, hl'.fits, hr'.fits,
    fits_textAt _ hl, fits_textAt _ hr]

mutual

/-- The text of an expression parses exactly if the expression keeps its tree. -/
theorem parses_textAt (g : CodeGen) : ∀ (e : HirExpr) (pos : Position),
    (g.textAt pos e).Parses ↔ KeepsTree g pos e
  | ⟨.intLit v, _, _⟩, pos => parses_of_isRigid rfl (fun index => by
      simpa only [exprText, intText, KeepsTree, iff_true] using parses_signed _ _) pos
  | ⟨.realLit bits, _, _⟩, pos => parses_of_isRigid rfl (fun index => by
      simpa only [exprText, KeepsTree, iff_true] using parses_signed _ _) pos
  | ⟨.stringLit s, _, _⟩, pos | ⟨.charLit c, _, _⟩, pos => parses_of_isRigid rfl (fun index => by
      simp only [exprText, KeepsTree, iff_true]
      split_ifs <;> exact Layout.parses_atom) pos
  | ⟨.boolLit b, _, _⟩, pos | ⟨.nilLit, _, _⟩, pos => parses_of_isRigid rfl (fun index => by
      simp [exprText, KeepsTree]) pos
  | ⟨.place p, _, _⟩, pos => parses_of_isRigid rfl (fun index => by
      simpa only [exprText, KeepsTree] using parses_placeText g p) pos
  | ⟨.addrOf p, _, _⟩, pos => by
    have hp := parses_placeText g p
    cases pos <;>
      simpa only [textAt, exprText, KeepsTree, stripAddr_unary, parses_addrOf] using hp
  | ⟨.directCall target args, _, _⟩, pos => parses_of_isRigid rfl (fun index => by
      simp only [exprText, KeepsTree, parses_directCallText, parses_exprTexts g args]
      split_ifs
      · exact Iff.rfl
      · rw [parses_procCallText]
        split
        · exact parses_nativeArgs g args _ _
        · rw [regularArgs_eq]
          exact parses_allocHead g args _) pos
  | ⟨.indirectCall callee args, ty, loc⟩, pos => by
    have hargs := parses_allocHead g args false
    have hcallee := fits_textAt 15 (parses_textAt g callee pos.front)
    rw [allocHead_false] at hargs
    have htext : g.textAt pos ⟨.indirectCall callee args, ty, loc⟩ =
        callText (g.textAt pos.front callee) (g.exprTexts args) := by
      cases pos <;> simp only [textAt, exprText, Position.front, stripAddr_callText]
    rw [htext, parses_callText (g.two_le_exprTexts args), hcallee, hargs]
    simp only [KeepsTree]
  | ⟨.unaryOp .neg operand, _, _⟩, pos => parses_of_isRigid rfl (fun index => by
      have ih := fits_textAt 14 (parses_textAt g operand (.of index))
      have h2 := g.two_le_strength .value operand
      cases index
      · simp only [exprText, KeepsTree, Bool.false_eq_true, if_false]
        split_ifs with hcomplex
        · rw [parses_namedCall (by simpa [textAt] using h2)]
          simpa [Position.of, Position.operand, hcomplex, textAt] using
            parses_textAt g operand .value
        · rw [parses_neg, lead_exprText]
          simpa [Position.of, Position.operand, hcomplex, textAt, and_assoc] using
            and_congr_left' ih
      · simp only [exprText, KeepsTree, if_true]
        rw [parses_neg, lead_exprText]
        simpa [Position.of, Position.operand, textAt, and_assoc] using and_congr_left' ih) pos
  | ⟨.unaryOp .pos operand, _, _⟩, pos => by
    have ih := parses_textAt g operand pos.front
    cases pos <;> simpa only [textAt, exprText, KeepsTree, Position.front] using ih
  | ⟨.binaryOp op left right, ty, loc⟩, pos => by
    have ihl := parses_textAt g left
    have ihr := parses_textAt g right
    cases pos with
    | index =>
      have hl := fits_textAt ((indexOperator op).strength.getD 0) (ihl .index)
      have hr := fits_textAt ((indexOperator op).strength.getD 0 + 1) (ihr .index)
      simp only [textAt] at hl hr
      simp only [textAt, exprText, KeepsTree, if_true, ← Nat.succ_le_iff, ← hl, ← hr]
      cases op <;> simp [Layout.Fits, indexOperator, isIndexOperator, Binary.strength]
      all_goals exact fun _ _ _ => Iff.rfl
    | value =>
      have h := @parses_binary g left right .value (ihl .value) (ihr .value) op
      simp only [textAt, exprText, KeepsTree, Bool.false_eq_true, if_false, reduceCtorEq,
        Position.front, ite_self]
      split_ifs
      · exact h (g.alike_scalarText left).1 (g.alike_scalarText right).1
      · exact h ⟨rfl, Iff.rfl⟩ ⟨rfl, Iff.rfl⟩
    | stripped =>
      have hv := @parses_binary g left right .value (ihl .value) (ihr .value) op
      have hs := @parses_binary g left right .stripped (ihl .stripped) (ihr .value) op
      simp only [textAt, exprText, KeepsTree, Bool.false_eq_true, if_false, reduceCtorEq,
        Position.front]
      by_cases hbare : (g.types.selectBinaryOp op left.ty right.ty).bareOperator = none
      · simp only [hbare, if_true]
        split_ifs <;> rw [stripAddr_binaryText, if_pos hbare]
        · exact hv (g.alike_scalarText left).1 (g.alike_scalarText right).1
        · exact hv ⟨rfl, Iff.rfl⟩ ⟨rfl, Iff.rfl⟩
      · simp only [hbare, if_false]
        split_ifs <;> rw [stripAddr_binaryText, if_neg hbare]
        · exact hs (g.alike_scalarText left).2 (g.alike_scalarText right).1
        · exact hs ⟨rfl, Iff.rfl⟩ ⟨rfl, Iff.rfl⟩
  | ⟨.not operand, _, _⟩, pos => parses_of_isRigid rfl (fun index => by
      have ih := fits_textAt 14 (parses_textAt g operand .value)
      simp only [exprText, KeepsTree]
      exact (parses_not_deref (.inl rfl)).trans ih) pos
  | ⟨.deref operand, _, _⟩, pos => parses_of_isRigid rfl (fun index => by
      have ih := fits_textAt 14 (parses_textAt g operand .value)
      simp only [exprText, KeepsTree]
      exact (parses_not_deref (.inr rfl)).trans ih) pos
  | ⟨.setConstructor elements, _, _⟩, pos => parses_of_isRigid rfl (fun index => by
      simp only [exprText, KeepsTree]
      rw [parses_unionText (g.strength_elementTexts elements), parses_elementTexts g elements]) pos
  | ⟨.typeTransfer operand, _, _⟩, pos => parses_of_isRigid rfl (fun index => by
      have ih := parses_textAt g operand (.of index)
      have h2 := g.two_le_strength .value operand
      cases index
      · simp only [exprText, KeepsTree, Bool.false_eq_true, if_false]
        have hfits : (g.exprText false operand).Fits 2 ↔ KeepsTree g .value operand :=
          (Layout.fits_iff_parses h2).trans ih
        split_ifs
        · simpa [Layout.Fits, Position.of, Position.operand] using hfits
        · exact parses_castText.trans hfits
      · simp only [exprText, KeepsTree, if_true]
        exact ih) pos

theorem parses_exprTexts (g : CodeGen) : ∀ es : List HirExpr,
    (g.exprTexts es).map Layout.Parses = keepsEach g es
  | [] => by simp [exprTexts, keepsEach]
  | e :: es => by
    have ih := parses_textAt g e .value
    simp only [exprTexts, keepsEach, map_cons, parses_exprTexts g es]
    congr 1
    exact propext ih

theorem parses_allocHead (g : CodeGen) : ∀ (es : List HirExpr) (allocates : Bool),
    (∀ a ∈ allocHead allocates (g.exprTexts es), a.Parses) ↔ KeepsArgs g allocates es
  | [], allocates => by simp [exprTexts, allocHead, KeepsArgs]
  | e :: es, allocates => by
    have ihe := parses_textAt g e .value
    have ihs := parses_allocHead g es false
    rw [allocHead_false] at ihs
    simp only [exprTexts, allocHead, forall_mem_cons, parses_first allocates ihe, ihs, KeepsArgs]

theorem parses_nativeArgs (g : CodeGen) : ∀ (es : List HirExpr) (first : Bool)
    (params : List (Bool × Bool)),
    (∀ a ∈ nativeArgs first params (g.exprTexts es), a.Parses) ↔ KeepsNative g first params es
  | [], first, [] => by simp [nativeArgs, exprTexts, KeepsNative, KeepsArgs]
  | e :: es, first, [] => by
    have ihe := parses_textAt g e .value
    have ihs := parses_allocHead g es false
    rw [allocHead_false] at ihs
    simp only [nativeArgs, exprTexts, KeepsNative, KeepsArgs, forall_mem_cons, ihs]
    exact and_congr_left' (parses_first false ihe)
  | [], first, _ :: _ => by simp [nativeArgs, exprTexts, KeepsNative]
  | e :: es, first, (isVar, false) :: params => by
    have ihe := parses_textAt g e .value
    have ihs := parses_nativeArgs g es false params
    simp only [exprTexts, nativeArgs_cons, forall_mem_cons, KeepsNative, ihs,
      Bool.false_eq_true, if_false, parses_first first ihe]
  | [e], first, (isVar, true) :: params => by
    have ihe := parses_textAt g e .stripped
    have hnil : nativeArgs false params [] = [] := by cases params <;> rfl
    simp only [exprTexts, nativeArgs_cons, if_true, allocArg_stripAddr, ite_self, KeepsNative,
      hnil, forall_mem_singleton]
    exact ihe
  | e :: high :: es, first, (isVar, true) :: params => by
    have ihe := parses_textAt g e .stripped
    have ihh := parses_textAt g high .value
    have ihs := parses_nativeArgs g es false params
    simp only [textAt] at ihe ihh
    simp only [exprTexts, nativeArgs_cons, if_true, allocArg_stripAddr, ite_self, KeepsNative,
      forall_mem_cons, ihe]
    cases isVar <;> simp [ihs, ihh]

theorem parses_elementTexts (g : CodeGen) : ∀ es : List HirSetElement,
    (∀ a ∈ g.elementTexts es, a.Parses) ↔ KeepsElements g es
  | [] => by simp [elementTexts, KeepsElements]
  | .single e :: es => by
    have ihe := fits_textAt 12 (parses_textAt g e .value)
    have ihs := parses_elementTexts g es
    simp only [textAt] at ihe
    simp only [elementTexts, KeepsElements, forall_mem_cons, ihs, ← ihe]
    simp [Layout.Fits, Binary.strength]
    exact fun _ _ => Iff.rfl
  | .range lo hi :: es => by
    have ihl := parses_textAt g lo .value
    have ihh := parses_textAt g hi .value
    have ihs := parses_elementTexts g es
    have h2 : ∀ a ∈ [g.exprText false lo, g.exprText false hi], 2 ≤ a.strength := by
      simpa using ⟨g.two_le_strength .value lo, g.two_le_strength .value hi⟩
    simp only [textAt] at ihl ihh
    simp only [elementTexts, KeepsElements, forall_mem_cons, ihs, parses_namedCall h2]
    simp [ihl, ihh]

theorem parses_placeText (g : CodeGen) : ∀ p : Place, (g.placeText p).Parses ↔ KeepsPlace g p
  | ⟨.constant v, ps, _, _⟩ => by
    have hstrength : 15 ≤ (g.constText v).strength ↔ constLead v = none := by
      rw [strength_constText]
      split_ifs with h <;> simp [h]
    simp only [placeText, KeepsPlace, parses_indexText g ps, parses_constText, hstrength]
  | ⟨.funcRef sym, ps, _, _⟩ => by simp [placeText, baseText, KeepsPlace]
  | ⟨.localVar sym, ps, _, _⟩ => by
    have hbase := eq_true (g.parses_baseText sym).1
    simp only [placeText, KeepsPlace]
    rw [parses_projectText g ps _ (g.closed_baseText sym).1.1, hbase]
  | ⟨.globalVar sym, ps, _, _⟩ => by
    have hbase := eq_true (g.parses_baseText sym).2
    simp only [placeText, KeepsPlace]
    rw [parses_projectText g ps _ (g.closed_baseText sym).2.1, hbase]

theorem parses_indexText (g : CodeGen) : ∀ (ps : List Projection) (a : Layout),
    (g.indexText a ps).Parses ↔
      a.Parses ∧ (ps.any isIndex → 15 ≤ a.strength) ∧ KeepsIndices g ps
  | [], a => by simp [indexText, KeepsIndices]
  | ⟨.index e, _⟩ :: ps, a => by
    have ih := parses_textAt g e .index
    have ihs := parses_indexText g ps (.index a (g.exprText true e))
    have hfits : (g.exprText true e).Fits 2 ↔ KeepsTree g .index e :=
      (Layout.fits_iff_parses (g.two_le_strength .index e)).trans ih
    have h15 : a.Fits 15 ↔ a.Parses ∧ 15 ≤ a.strength := Iff.rfl
    simp [indexText, KeepsIndices, ihs, hfits, isIndex, h15, and_assoc]
  | ⟨.field _ _ _, _⟩ :: ps, a | ⟨.variantField _ _ _ _, _⟩ :: ps, a | ⟨.deref, _⟩ :: ps, a
  | ⟨.typeTransfer _, _⟩ :: ps, a => by
    simpa [indexText, isIndex, KeepsIndices] using parses_indexText g ps a

theorem parses_projectText (g : CodeGen) : ∀ (ps : List Projection) (a : Layout),
    a.strength = 15 → ((g.projectText a ps).Parses ↔ KeepsProjections g a.Parses ps)
  | [], a, h => by simp [projectText, KeepsProjections]
  | ⟨.field _ name _, _⟩ :: ps, a, h => by
    have ih := parses_projectText g ps (.field a name) rfl
    rw [parses_field_eq h] at ih
    simpa only [projectText, KeepsProjections] using ih
  | ⟨.variantField v _ name _, _⟩ :: ps, a, h => by
    have ih := parses_projectText g ps
      (variantText (.field a "_variant") ("_v" ++ toString v) name) rfl
    rw [parses_variantText_eq rfl, parses_field_eq h] at ih
    simpa only [projectText, KeepsProjections] using ih
  | ⟨.index e, _⟩ :: ps, a, h => by
    have ihe := parses_textAt g e .index
    have ih := parses_projectText g ps (.index a (g.exprText true e)) rfl
    rw [parses_index_eq h ihe] at ih
    simpa only [projectText, KeepsProjections] using ih
  | [⟨.deref, ty⟩, ⟨.index e, _⟩], a, h => by
    have ihe := parses_textAt g e .index
    have hcast : (Layout.paren (.cast "char*" a)).Parses ↔ a.Parses := by
      rw [Layout.parses_paren, Layout.fits_iff_parses (by simp), Layout.parses_cast,
        fits_of_closed h (by decide)]
    simp only [projectText, KeepsProjections]
    split_ifs
    · rw [parses_index_eq rfl ihe, hcast]
    · rw [parses_index_eq rfl ihe, parses_deref_eq h]
  | ⟨.deref, _⟩ :: ⟨.index e, _⟩ :: p :: ps, a, h => by
    have ihe := parses_textAt g e .index
    have ih := parses_projectText g (p :: ps)
      (.index (.paren (.unary .deref a)) (g.exprText true e)) rfl
    rw [parses_index_eq rfl ihe, parses_deref_eq h] at ih
    simpa only [projectText, KeepsProjections] using ih
  | ⟨.deref, _⟩ :: ⟨.field _ name _, _⟩ :: ps, a, h => by
    have ih := parses_projectText g ps (.arrow a name) rfl
    rw [parses_arrow_eq h] at ih
    simpa only [projectText, KeepsProjections] using ih
  | ⟨.deref, _⟩ :: ⟨.variantField v _ name _, _⟩ :: ps, a, h => by
    have ih := parses_projectText g ps
      (variantText (.arrow a "variant") ("v" ++ toString v) name) rfl
    rw [parses_variantText_eq rfl, parses_arrow_eq h] at ih
    simpa only [projectText, KeepsProjections] using ih
  | [⟨.deref, _⟩], a, h => by
    simp only [projectText, KeepsProjections]
    rw [parses_deref_eq h]
  | ⟨.deref, _⟩ :: ⟨.deref, t⟩ :: ps, a, h => by
    have ih := parses_projectText g (⟨.deref, t⟩ :: ps) (.paren (.unary .deref a)) rfl
    rw [parses_deref_eq h] at ih
    simpa only [projectText, KeepsProjections] using ih
  | ⟨.deref, _⟩ :: ⟨.typeTransfer e, t⟩ :: ps, a, h => by
    have ih := parses_projectText g (⟨.typeTransfer e, t⟩ :: ps) (.paren (.unary .deref a)) rfl
    rw [parses_deref_eq h] at ih
    simpa only [projectText, KeepsProjections] using ih
  | ⟨.typeTransfer e, ty⟩ :: ps, a, h => by
    have ihe := parses_textAt g e .value
    have ih := parses_projectText g ps (castText (g.typeIdToC ty) (g.exprText false e)) rfl
    have hcast : (castText (g.typeIdToC ty) (g.exprText false e)).Parses =
        KeepsTree g .value e := by
      rw [parses_castText]
      exact propext ((Layout.fits_iff_parses (g.two_le_strength .value e)).trans ihe)
    rw [hcast] at ih
    simpa only [projectText, KeepsProjections] using ih

end

/-- The text that `hir_expr_to_string` returns parses to the tree of the expression if and only
if every operand binds strongly enough and no minus sign meets another one. -/
theorem derives_hirExprToString_iff (g : CodeGen) (e : HirExpr) :
    Derives 2 (tokenize (g.hirExprToString e)) (g.exprTree e) ↔ KeepsTree g .value e := by
  have hfits := Layout.fits_iff_parses (g.two_le_strength .value e)
  rw [hirExprToString, exprTree, Layout.derives_text_iff_fits]
  exact hfits.trans (g.parses_textAt e .value)

/-- A module without imports, nested procedures, parameters and declared types. -/
def plain : CodeGen where
  types := ⟨[]⟩
  isEnvVar _ := false
  isVarParam _ := false
  isNamedArrayValueParam _ := false
  mangle s := s
  localName sym := sym.sourceName
  globalName sym := sym.sourceName
  funcRefName sym := sym.sourceName
  callName sym := sym.sourceName
  envArg _ := none
  nativeParams _ := none
  typeIdToC _ := "int32_t"
  typeArg _ := none
  realText _ := "1.0"
  realExpText _ := "1e0"

/-- An integer variable as an expression. -/
def intVar (name : String) : HirExpr :=
  ⟨.place ⟨.localVar ⟨name, name, none, tyInteger, false, false⟩, [], tyInteger, ⟨"", 0, 0⟩⟩,
    tyInteger, ⟨"", 0, 0⟩⟩

end CodeGen

end Mx

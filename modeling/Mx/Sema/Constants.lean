import Mx.Sema.ConstEval

/-!
# Constant declarations of a block

`analyze_block` evaluates the constants of a block in textual order and then once more in textual
order. A reference to a constant declared further down reads zero, or an outer symbol, in the first
round and the value of the first round in the second. So a chain of references may go forward once.
-/

namespace Mx.Sema

open Ast

/-! ## Reads -/

/-- What folding an expression reads: the value of a name or the size of a type. -/
inductive Mention where
  | constant (name : String)
  | size (name : String)
  deriving DecidableEq, Repr

/-- The name. -/
def Mention.name : Mention → String
  | constant name | size name => name

/-- The type whose size a call asks for. -/
def sizeMentions : List Expr → List Mention
  | [⟨.designator d, _⟩] => [.size d.ident.name]
  | _ => []

/-- The reads of a call. -/
def callMentions (name : String) (args : List Expr) (mentions : List (List Mention)) :
    List Mention :=
  match name, mentions with
  | "CHR", [m] | "CHAR", [m] | "ORD", [m] => m
  | "VAL", _ :: m :: _ => m
  | "INTEGER", [m] | "INT", [m] | "CARDINAL", [m] | "LONGINT", [m] | "LONGCARD", [m] => m
  | "TSIZE", [_] | "SIZE", [_] => sizeMentions args
  | _, _ => []

mutual

/-- The reads of `eval_const_expr`. -/
def mentions : Expr → List Mention
  | ⟨.unaryOp .neg operand, _⟩ => mentions operand
  | ⟨.binaryOp _ left right, _⟩ => mentions left ++ mentions right
  | ⟨.designator d, _⟩ => [.constant d.ident.name]
  | ⟨.funcCall desig args, _⟩ =>
    if desig.selectors.isEmpty ∧ desig.ident.moduleName = none then
      callMentions desig.ident.name args (argMentions args)
    else []
  | _ => []

/-- The reads of the arguments. -/
def argMentions : List Expr → List (List Mention)
  | [] => []
  | e :: es => mentions e :: argMentions es

end

/-- `SIZE` and `TSIZE` over given reads. -/
def sizeWith (read : Mention → ConstValue) : List Expr → ConstValue
  | [⟨.designator d, _⟩] => read (.size d.ident.name)
  | _ => .integer 0

/-- The type transfer functions over given reads. -/
def callWith (read : Mention → ConstValue) (name : String) (args : List Expr)
    (values : List (Option ConstValue)) : Option ConstValue :=
  match name, values with
  | "CHR", [v] | "CHAR", [v] => v.map .chr
  | "ORD", [v] => v.map .ord
  | "VAL", _ :: v :: _ => v
  | "INTEGER", [v] | "INT", [v] | "CARDINAL", [v] | "LONGINT", [v] | "LONGCARD", [v] =>
    v.map .transfer
  | "TSIZE", [_] | "SIZE", [_] => some (sizeWith read args)
  | _, _ => some (.integer 0)

mutual

/-- The value of an expression over given reads. -/
def evalWith (read : Mention → ConstValue) : Expr → Option ConstValue
  | ⟨.intLit v, _⟩ => some (.integer v)
  | ⟨.realLit bits, _⟩ => some (.real bits)
  | ⟨.stringLit s, _⟩ => some (.string s)
  | ⟨.charLit c, _⟩ => some (.char c)
  | ⟨.boolLit b, _⟩ => some (.boolean b)
  | ⟨.nilLit, _⟩ => some .nil
  | ⟨.unaryOp .neg operand, _⟩ => (evalWith read operand).bind ConstValue.neg
  | ⟨.binaryOp op left right, _⟩ =>
    (evalWith read left).bind fun l => (evalWith read right).bind fun r => l.binary op r
  | ⟨.designator d, _⟩ => some (read (.constant d.ident.name))
  | ⟨.funcCall desig args, _⟩ =>
    if desig.selectors.isEmpty ∧ desig.ident.moduleName = none then
      callWith read desig.ident.name args (argsWith read args)
    else some (.integer 0)
  | _ => some (.integer 0)

/-- The values of the arguments. -/
def argsWith (read : Mention → ConstValue) : List Expr → List (Option ConstValue)
  | [] => []
  | e :: es => evalWith read e :: argsWith read es

end

/-- What an analyzer reads. -/
def SemanticAnalyzer.read (s : SemanticAnalyzer) : Mention → ConstValue
  | .constant name => s.constNamed name
  | .size name => .integer (s.sizeNamed name)

theorem callConst_eq_callWith (s : SemanticAnalyzer) (name : String) (args : List Expr)
    (values : List (Option ConstValue)) :
    s.callConst name args values = callWith s.read name args values := by
  have hsize : (match args with
      | [⟨.designator d, _⟩] => some (.integer (s.sizeNamed d.ident.name))
      | _ => some (.integer 0)) = some (sizeWith s.read args) := by
    unfold sizeWith
    split <;> rfl
  unfold SemanticAnalyzer.callConst callWith
  split
  case h_10 | h_11 => exact hsize
  case h_12 => simp [*]
  all_goals rfl

mutual

/-- Semantic analysis evaluates an expression over what it reads. -/
theorem evalConstExpr_eq_evalWith (s : SemanticAnalyzer) :
    ∀ e : Expr, s.evalConstExpr e = evalWith s.read e
  | ⟨.intLit _, _⟩ | ⟨.realLit _, _⟩ | ⟨.stringLit _, _⟩ | ⟨.charLit _, _⟩ | ⟨.boolLit _, _⟩
  | ⟨.nilLit, _⟩ | ⟨.designator _, _⟩ | ⟨.setConstructor _ _, _⟩ | ⟨.not _, _⟩ | ⟨.deref _, _⟩
  | ⟨.unaryOp .pos _, _⟩ => by
    simp [SemanticAnalyzer.evalConstExpr, evalWith, SemanticAnalyzer.read]
  | ⟨.unaryOp .neg operand, _⟩ => by
    rw [SemanticAnalyzer.evalConstExpr, evalWith, evalConstExpr_eq_evalWith s operand]
  | ⟨.binaryOp op left right, _⟩ => by
    rw [SemanticAnalyzer.evalConstExpr, evalWith, evalConstExpr_eq_evalWith s left,
      evalConstExpr_eq_evalWith s right]
  | ⟨.funcCall desig args, _⟩ => by
    rw [SemanticAnalyzer.evalConstExpr, evalWith, evalArgs_eq_argsWith s args,
      callConst_eq_callWith]

/-- The same for arguments. -/
theorem evalArgs_eq_argsWith (s : SemanticAnalyzer) :
    ∀ es : List Expr, s.evalArgs es = argsWith s.read es
  | [] => rfl
  | e :: es => by
    rw [SemanticAnalyzer.evalArgs, argsWith, evalConstExpr_eq_evalWith s e,
      evalArgs_eq_argsWith s es]

end

theorem sizeWith_congr {read read' : Mention → ConstValue} (args : List Expr)
    (h : ∀ m ∈ sizeMentions args, read m = read' m) : sizeWith read args = sizeWith read' args := by
  unfold sizeWith
  unfold sizeMentions at h
  split
  · simpa using h
  · rfl

/-- An evaluation depends on its reads only. -/
theorem evalWith_congr {read read' : Mention → ConstValue} :
    ∀ e : Expr, (∀ m ∈ mentions e, read m = read' m) → evalWith read e = evalWith read' e
  | ⟨.intLit _, _⟩, _ | ⟨.realLit _, _⟩, _ | ⟨.stringLit _, _⟩, _ | ⟨.charLit _, _⟩, _
  | ⟨.boolLit _, _⟩, _ | ⟨.nilLit, _⟩, _ | ⟨.setConstructor _ _, _⟩, _ | ⟨.not _, _⟩, _
  | ⟨.deref _, _⟩, _ | ⟨.unaryOp .pos _, _⟩, _ => by simp [evalWith]
  | ⟨.designator d, _⟩, h => by
    rw [evalWith, evalWith, h (.constant d.ident.name) (by simp [mentions])]
  | ⟨.unaryOp .neg operand, _⟩, h => by
    rw [mentions] at h
    rw [evalWith, evalWith, evalWith_congr operand h]
  | ⟨.binaryOp op left right, _⟩, h => by
    rw [mentions] at h
    rw [evalWith, evalWith, evalWith_congr left fun m hm => h m (List.mem_append_left _ hm),
      evalWith_congr right fun m hm => h m (List.mem_append_right _ hm)]
  | ⟨.funcCall desig [], _⟩, _ => by
    simp [evalWith, argsWith, callWith]
  | ⟨.funcCall desig [x], _⟩, h => by
    have ih := @evalWith_congr read read' x
    rw [evalWith, evalWith]
    rw [mentions] at h
    by_cases hplain : desig.selectors.isEmpty = true ∧ desig.ident.moduleName = none
    · rw [if_pos hplain] at h
      have hsize := @sizeWith_congr read read' [x]
      rw [if_pos hplain, if_pos hplain]
      simp only [argsWith, argMentions] at h ⊢
      unfold callMentions at h
      unfold callWith
      split at h <;> simp_all
    · rw [if_neg hplain, if_neg hplain]
  | ⟨.funcCall desig (y :: x :: rest), _⟩, h => by
    have ih := @evalWith_congr read read' x
    rw [evalWith, evalWith]
    rw [mentions] at h
    by_cases hplain : desig.selectors.isEmpty = true ∧ desig.ident.moduleName = none
    · rw [if_pos hplain] at h
      rw [if_pos hplain, if_pos hplain]
      by_cases hval : desig.ident.name = "VAL"
      · rw [hval] at h
        simp only [argMentions, callMentions] at h
        simp only [argsWith, hval, callWith]
        exact ih h
      · simp [argsWith, callWith, hval]
    · rw [if_neg hplain, if_neg hplain]
termination_by e => sizeOf e

/-! ## The passes -/

/-- A declaration of a block: a constant, or one of another kind. -/
inductive Declaration (δ : Type) where
  | const (name : String) (expr : Expr)
  | other (d : δ)

/-- What semantic analysis does beside folding constants: the placeholder of a type, a declaration
of another kind, and the analysis of the expression of a constant. -/
structure Analyses (δ : Type) where
  placeholder : δ → SemanticAnalyzer → SemanticAnalyzer
  declaration : δ → SemanticAnalyzer → SemanticAnalyzer
  expr : Expr → SemanticAnalyzer → SemanticAnalyzer × TypeId

namespace SemanticAnalyzer

/-- The symbol that the current scope itself has for a name. -/
def direct (s : SemanticAnalyzer) (name : String) : Option Symbol :=
  s.symtab.lookupInScopeDirect s.currentScope name

/-- `define_sym`: a refused definition is reported and leaves the table alone. -/
def defineSym (s : SemanticAnalyzer) (sym : Symbol) : SemanticAnalyzer :=
  match s.symtab.define s.currentScope sym with
  | .ok symtab => { s with symtab := symtab }
  | .error _ => s

/-- The new value of a constant that the current scope has. -/
def setConstant (s : SemanticAnalyzer) (name : String) (v : ConstValue) : SemanticAnalyzer :=
  match s.direct name with
  | some sym =>
    { s with symtab := s.symtab.insert s.currentScope name { sym with kind := .constant v } }
  | none => s

end SemanticAnalyzer

section

variable {δ : Type} (A : Analyses δ)

/-- `make_const_symbol`, with the type of the expression. -/
def constSymbol (name : String) (v : ConstValue) (typ : TypeId) : Symbol :=
  ⟨name, .constant v, typ, false, none, false, false⟩

/-- `analyze_declaration`. -/
def analyzeDeclaration : Declaration δ → SemanticAnalyzer → Option SemanticAnalyzer
  | .const name e, s =>
    let r := A.expr e s
    (r.1.evalConstExpr e).map fun v => r.1.defineSym (constSymbol name v r.2)
  | .other d, s => some (A.declaration d s)

/-- The second pass of `analyze_block`. -/
def analyzeDeclarations : List (Declaration δ) → SemanticAnalyzer → Option SemanticAnalyzer
  | [], s => some s
  | d :: ds, s => (analyzeDeclaration A d s).bind (analyzeDeclarations ds)

/-- The first pass: the placeholders of the types. -/
def registerTypes : List (Declaration δ) → SemanticAnalyzer → SemanticAnalyzer
  | [], s => s
  | .const _ _ :: ds, s => registerTypes ds s
  | .other d :: ds, s => registerTypes ds (A.placeholder d s)

/-- The third pass: every constant once more. -/
def reevaluate : List (Declaration δ) → SemanticAnalyzer → Option SemanticAnalyzer
  | [], s => some s
  | .const name e :: ds, s => (s.evalConstExpr e).bind fun v => reevaluate ds (s.setConstant name v)
  | .other _ :: ds, s => reevaluate ds s

/-- `analyze_block`, up to the statements of the block. -/
def analyzeBlock (decls : List (Declaration δ)) (s : SemanticAnalyzer) : Option SemanticAnalyzer :=
  (analyzeDeclarations A decls (registerTypes A decls s)).bind (reevaluate decls)

end

/-! ## Dependency order -/

section

variable {δ : Type}

/-- The constants of a block. -/
def constNames : List (Declaration δ) → List String
  | [] => []
  | .const name _ :: ds => name :: constNames ds
  | .other _ :: ds => constNames ds

/-- The names whose reading a declaration changes. -/
def declared (touches : δ → List String) : List (Declaration δ) → List String
  | [] => []
  | .const name _ :: ds => name :: declared touches ds
  | .other d :: ds => touches d ++ declared touches ds

/-- What an expression reads once every constant of the block has its value. -/
def settledRead (s : SemanticAnalyzer) (names : List String) (sol : String → ConstValue) :
    Mention → ConstValue
  | .constant name => if name ∈ names then sol name else s.constNamed name
  | .size name => .integer (s.sizeNamed name)

/-- The values of the constants of a block in dependency order: every one is what its expression
comes to over the others. -/
def Solves (decls : List (Declaration δ)) (s : SemanticAnalyzer) (sol : String → ConstValue) :
    Prop :=
  ∀ name e, .const name e ∈ decls →
    evalWith (settledRead s (constNames decls) sol) e = some (sol name)

/-- The references between the constants of a block have no cycle. -/
def Acyclic (decls : List (Declaration δ)) : Prop :=
  ∃ rank : String → Nat, ∀ name e, .const name e ∈ decls →
    ∀ n, .constant n ∈ mentions e → n ∈ constNames decls → rank n < rank name

end

/-! ## Reading an analyzer -/

namespace SemanticAnalyzer

variable {s : SemanticAnalyzer}

/-- A constant of the current scope is read. -/
theorem constNamed_of_direct {name : String} {v : ConstValue}
    (h : (s.direct name).map Symbol.kind = some (.constant v)) : s.constNamed name = v := by
  obtain ⟨sym, hsym, hkind⟩ := Option.map_eq_some_iff.1 h
  rw [constNamed, SymbolTable.lookupInScope_of_direct hsym]
  dsimp only
  rw [hkind]

/-- A symbol under another name changes no reading. -/
theorem read_insert {m : Mention} {name : String} (hne : m.name ≠ name) (scopeId : Nat)
    (sym : Symbol) :
    ({ s with symtab := s.symtab.insert scopeId name sym } : SemanticAnalyzer).read m =
      s.read m := by
  cases m with
  | constant n =>
    have hfind : (s.symtab.insert scopeId name sym).lookupInScope s.currentScope n =
        s.symtab.lookupInScope s.currentScope n :=
      SymbolTable.lookupUpTo_insert hne scopeId sym _ _
    simp only [read, constNamed, hfind]
  | size n =>
    have hfind : (s.symtab.insert scopeId name sym).findType n = s.symtab.findType n :=
      SymbolTable.findType_insert_ne hne scopeId sym
    simp only [read, sizeNamed, hfind]

/-- A constant in the place of a constant changes no size. -/
theorem sizeNamed_setConstant {name : String} {v w : ConstValue}
    (h : (s.direct name).map Symbol.kind = some (.constant v)) (n : String) :
    (s.setConstant name w).sizeNamed n = s.sizeNamed n := by
  obtain ⟨sym, hsym, hkind⟩ := Option.map_eq_some_iff.1 h
  have hfind : (s.symtab.insert s.currentScope name { sym with kind := .constant w }).findType n =
      s.symtab.findType n :=
    SymbolTable.findType_insert_of_not_type hsym (by simp [hkind]) (by simp) n
  rw [setConstant, hsym]
  simp only [sizeNamed, hfind]

end SemanticAnalyzer

end Mx.Sema

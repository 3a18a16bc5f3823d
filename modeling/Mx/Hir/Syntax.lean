import Mathlib

/-!
# The high-level intermediate representation

HIR expressions, places and statements as `hir.rs` declares them. Every
designator is a resolved place, `WITH` has been eliminated, and `FOR` carries
its direction. Floating-point and set literals are kept as their bit pattern:
no modelled function computes with them.
-/

namespace Mx

/-- A position in a source file. -/
structure SourceLoc where
  file : String
  line : Nat
  col : Nat
  deriving DecidableEq, Repr

/-- The location `SourceLoc::new("<cfg>", 0, 0)` of every synthesized node. -/
def SourceLoc.cfg : SourceLoc := ⟨"<cfg>", 0, 0⟩

/-- An index into the type registry. -/
abbrev TypeId := Nat

/-- `TY_BOOLEAN` of the type registry. -/
def tyBoolean : TypeId := 4

/-- `TY_VOID` of the type registry. -/
def tyVoid : TypeId := 7

/-- `TY_ADDRESS` of the type registry. -/
def tyAddress : TypeId := 12

/-- A resolved symbol: its mangled name, its source name and its declaration data. -/
structure SymbolId where
  mangled : String
  sourceName : String
  moduleName : Option String
  ty : TypeId
  isVarParam : Bool
  isOpenArray : Bool
  deriving DecidableEq, Repr

/-- A constant inlined into a place. -/
inductive ConstVal where
  | integer (v : Int)
  | real (bits : UInt64)
  | boolean (b : Bool)
  | char (c : Char)
  | string (s : String)
  | set (bits : UInt64)
  | nil
  | enumVariant (v : Int)
  deriving DecidableEq, Repr

/-- The root of a place expression. -/
inductive PlaceBase where
  | localVar (sym : SymbolId)
  | globalVar (sym : SymbolId)
  | constant (v : ConstVal)
  | funcRef (sym : SymbolId)
  deriving DecidableEq, Repr

/-- Unary operators. -/
inductive UnaryOp where
  | pos | neg
  deriving DecidableEq, Repr

/-- Binary operators; conjunction and disjunction are ordinary operators here. -/
inductive BinaryOp where
  | add | sub | mul | realDiv | intDiv | mod | and | or | eq | ne | lt | le | gt | ge | isIn
  deriving DecidableEq, Repr

/-- The direction of a `FOR` loop, fixed during HIR construction. -/
inductive ForDirection where
  | up | down
  deriving DecidableEq, Repr

mutual

/-- A typed expression. -/
structure HirExpr where
  kind : HirExprKind
  ty : TypeId
  loc : SourceLoc

/-- The expression forms. -/
inductive HirExprKind where
  | intLit (v : Int)
  | realLit (bits : UInt64)
  | stringLit (s : String)
  | charLit (c : Char)
  | boolLit (b : Bool)
  | nilLit
  | place (p : Place)
  | directCall (target : SymbolId) (args : List HirExpr)
  | indirectCall (callee : HirExpr) (args : List HirExpr)
  | unaryOp (op : UnaryOp) (operand : HirExpr)
  | binaryOp (op : BinaryOp) (left right : HirExpr)
  | setConstructor (elements : List HirSetElement)
  | not (operand : HirExpr)
  | deref (operand : HirExpr)
  | addrOf (p : Place)
  | typeTransfer (operand : HirExpr)

/-- One element of a set constructor. -/
inductive HirSetElement where
  | single (e : HirExpr)
  | range (lo hi : HirExpr)

/-- A resolved designator: a base and the projections applied to it. -/
structure Place where
  base : PlaceBase
  projections : List Projection
  ty : TypeId
  loc : SourceLoc

/-- One projection with the type it results in. -/
structure Projection where
  kind : ProjectionKind
  ty : TypeId

/-- The projection forms. -/
inductive ProjectionKind where
  | field (idx : Nat) (name : String) (recordTy : TypeId)
  | index (e : HirExpr)
  | deref
  | variantField (variantIndex fieldIndex : Nat) (name : String) (recordTy : TypeId)
  | typeTransfer (e : HirExpr)

end

/-- The callee of a procedure call statement. -/
inductive HirCallTarget where
  | direct (sym : SymbolId)
  | indirect (e : HirExpr)

/-- A `CASE` label. -/
inductive HirCaseLabel where
  | single (e : HirExpr)
  | range (lo hi : HirExpr)

mutual

/-- A statement with its position. -/
structure HirStmt where
  kind : HirStmtKind
  loc : SourceLoc

/-- The statement forms. -/
inductive HirStmtKind where
  | empty
  | assign (target : Place) (value : HirExpr)
  | procCall (target : HirCallTarget) (args : List HirExpr)
  | ifStmt (cond : HirExpr) (thenBody : List HirStmt)
      (elsifs : List (HirExpr × List HirStmt)) (elseBody : Option (List HirStmt))
  | caseStmt (expr : HirExpr) (branches : List HirCaseBranch)
      (elseBody : Option (List HirStmt))
  | whileStmt (cond : HirExpr) (body : List HirStmt)
  | repeatStmt (body : List HirStmt) (cond : HirExpr)
  | forStmt (var : String) (varTy : TypeId) (start stop : HirExpr) (step : Option HirExpr)
      (direction : ForDirection) (body : List HirStmt)
  | loop (body : List HirStmt)
  | ret (expr : Option HirExpr)
  | exit
  | raise (expr : Option HirExpr)
  | retry
  | tryStmt (body : List HirStmt) (excepts : List HirExceptClause)
      (finallyBody : Option (List HirStmt))
  | lock (mutex : HirExpr) (body : List HirStmt)
  | typeCase (expr : HirExpr) (branches : List HirTypeCaseBranch)
      (elseBody : Option (List HirStmt))

/-- A `CASE` branch. -/
structure HirCaseBranch where
  labels : List HirCaseLabel
  body : List HirStmt

/-- An `EXCEPT` clause; `exception = none` is a catch-all. -/
structure HirExceptClause where
  exception : Option SymbolId
  var : Option String
  body : List HirStmt

/-- A `TYPECASE` branch with its optional binding variable. -/
structure HirTypeCaseBranch where
  types : List SymbolId
  var : Option String
  body : List HirStmt

end

/-- The obligations of an induction over statement lists: one for each statement
form, with the induction hypothesis for every statement list nested in it. -/
structure HirStmt.Cases (P : List HirStmt → Prop) (Q : HirStmt → Prop) : Prop where
  nil : P []
  cons : ∀ s ss, Q s → P ss → P (s :: ss)
  empty : ∀ loc, Q ⟨.empty, loc⟩
  assign : ∀ target value loc, Q ⟨.assign target value, loc⟩
  procCall : ∀ target args loc, Q ⟨.procCall target args, loc⟩
  ifStmt : ∀ cond thenBody elsifs elseBody loc, P thenBody → (∀ e ∈ elsifs, P e.2) →
    (∀ b ∈ elseBody, P b) → Q ⟨.ifStmt cond thenBody elsifs elseBody, loc⟩
  caseStmt : ∀ expr branches elseBody loc, (∀ b ∈ branches, P b.body) →
    (∀ b ∈ elseBody, P b) → Q ⟨.caseStmt expr branches elseBody, loc⟩
  whileStmt : ∀ cond body loc, P body → Q ⟨.whileStmt cond body, loc⟩
  repeatStmt : ∀ body cond loc, P body → Q ⟨.repeatStmt body cond, loc⟩
  forStmt : ∀ var varTy start stop step direction body loc, P body →
    Q ⟨.forStmt var varTy start stop step direction body, loc⟩
  loop : ∀ body loc, P body → Q ⟨.loop body, loc⟩
  ret : ∀ expr loc, Q ⟨.ret expr, loc⟩
  exit : ∀ loc, Q ⟨.exit, loc⟩
  raise : ∀ expr loc, Q ⟨.raise expr, loc⟩
  retry : ∀ loc, Q ⟨.retry, loc⟩
  tryStmt : ∀ body excepts finallyBody loc, P body → (∀ c ∈ excepts, P c.body) →
    (∀ b ∈ finallyBody, P b) → Q ⟨.tryStmt body excepts finallyBody, loc⟩
  lock : ∀ mutex body loc, P body → Q ⟨.lock mutex body, loc⟩
  typeCase : ∀ expr branches elseBody loc, (∀ b ∈ branches, P b.body) →
    (∀ b ∈ elseBody, P b) → Q ⟨.typeCase expr branches elseBody, loc⟩

namespace HirStmt.Cases

variable {P : List HirStmt → Prop} {Q : HirStmt → Prop}

mutual

/-- Induction over a statement list, following the nesting of the HIR. -/
theorem stmts (h : HirStmt.Cases P Q) : ∀ ss, P ss
  | [] => h.nil
  | s :: ss => h.cons s ss (h.stmt s) (h.stmts ss)

/-- Induction over one statement. -/
theorem stmt (h : HirStmt.Cases P Q) : ∀ s, Q s
  | ⟨.empty, loc⟩ => h.empty loc
  | ⟨.assign target value, loc⟩ => h.assign target value loc
  | ⟨.procCall target args, loc⟩ => h.procCall target args loc
  | ⟨.ifStmt cond thenBody elsifs elseBody, loc⟩ =>
    h.ifStmt cond thenBody elsifs elseBody loc (h.stmts thenBody) (h.elsifs elsifs)
      (h.optional elseBody)
  | ⟨.caseStmt expr branches elseBody, loc⟩ =>
    h.caseStmt expr branches elseBody loc (h.branches branches) (h.optional elseBody)
  | ⟨.whileStmt cond body, loc⟩ => h.whileStmt cond body loc (h.stmts body)
  | ⟨.repeatStmt body cond, loc⟩ => h.repeatStmt body cond loc (h.stmts body)
  | ⟨.forStmt var varTy start stop step direction body, loc⟩ =>
    h.forStmt var varTy start stop step direction body loc (h.stmts body)
  | ⟨.loop body, loc⟩ => h.loop body loc (h.stmts body)
  | ⟨.ret expr, loc⟩ => h.ret expr loc
  | ⟨.exit, loc⟩ => h.exit loc
  | ⟨.raise expr, loc⟩ => h.raise expr loc
  | ⟨.retry, loc⟩ => h.retry loc
  | ⟨.tryStmt body excepts finallyBody, loc⟩ =>
    h.tryStmt body excepts finallyBody loc (h.stmts body) (h.clauses excepts)
      (h.optional finallyBody)
  | ⟨.lock mutex body, loc⟩ => h.lock mutex body loc (h.stmts body)
  | ⟨.typeCase expr branches elseBody, loc⟩ =>
    h.typeCase expr branches elseBody loc (h.typeBranches branches) (h.optional elseBody)

theorem elsifs (h : HirStmt.Cases P Q) : ∀ es : List (HirExpr × List HirStmt), ∀ e ∈ es, P e.2
  | [] => by simp
  | (c, b) :: es => by
    have hb := h.stmts b
    have hes := h.elsifs es
    simpa using ⟨hb, by simpa using hes⟩

theorem optional (h : HirStmt.Cases P Q) : ∀ o : Option (List HirStmt), ∀ b ∈ o, P b
  | none => by simp
  | some b => by
    have hb := h.stmts b
    simpa using hb

theorem branches (h : HirStmt.Cases P Q) : ∀ bs : List HirCaseBranch, ∀ b ∈ bs, P b.body
  | [] => by simp
  | ⟨labels, body⟩ :: bs => by
    have hb := h.stmts body
    have hbs := h.branches bs
    simpa using ⟨hb, by simpa using hbs⟩

theorem clauses (h : HirStmt.Cases P Q) : ∀ cs : List HirExceptClause, ∀ c ∈ cs, P c.body
  | [] => by simp
  | ⟨exception, var, body⟩ :: cs => by
    have hb := h.stmts body
    have hcs := h.clauses cs
    simpa using ⟨hb, by simpa using hcs⟩

theorem typeBranches (h : HirStmt.Cases P Q) :
    ∀ bs : List HirTypeCaseBranch, ∀ b ∈ bs, P b.body
  | [] => by simp
  | ⟨types, var, body⟩ :: bs => by
    have hb := h.stmts body
    have hbs := h.typeBranches bs
    simpa using ⟨hb, by simpa using hbs⟩

end

end HirStmt.Cases

end Mx

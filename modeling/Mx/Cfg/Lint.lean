import Mx.Cfg.Dataflow

/-!
# The lint for uninitialized variables

W10 of `cfg/lint.rs`: a forward analysis of the variables that are assigned on all paths,
and a scan that reports the first use of each variable that is not. The analysis and the
scan read statements with two different walkers. Both only mark variables, so a walker is
given as the list of the names it marks, in order.
-/

namespace Mx

/-- A type of the registry; only aliases and aggregates are told apart. -/
inductive Ty where
  | alias (target : TypeId)
  | array
  | openArray
  | record
  | other

/-- A local declaration; only variables carry data that is read here. -/
inductive HirLocalDecl where
  | var (name : String) (typeId : TypeId)
  | type
  | const
  | exception

/-- The parts of a procedure that the lint reads. -/
structure HirProcDecl where
  locals : List HirLocalDecl
  loc : SourceLoc
  cfg : Option Cfg

/-- A warning with its code. -/
structure CompileError where
  loc : SourceLoc
  code : String
  message : String

/-- The text of a W10 warning. -/
def usedUnassigned (name : String) : String :=
  "variable '" ++ name ++ "' may be used before being assigned"

/-! ## Tracked variables -/

/-- An entry of the registry. -/
def getType (types : List Ty) (id : TypeId) : Except Panic Ty :=
  match types[id]? with
  | some ty => .ok ty
  | none => .error (.indexOutOfBounds id)

/-- `resolve_alias`, for a bounded number of steps. -/
def resolveAlias (types : List Ty) : Nat → TypeId → Except Panic TypeId
  | 0, id => .ok id
  | n + 1, id => do
    match ← getType types id with
    | .alias target => resolveAlias types n target
    | _ => return id

/-- Arrays and records have storage from their declaration. -/
def Ty.isAggregate : Ty → Bool
  | .array | .record | .openArray => true
  | _ => false

/-- The tracked variables, by the position of their bit. -/
abbrev VarMap := List (String × SourceLoc)

/-- `VarMap::from_proc`: the local variables that are not aggregates. -/
def VarMap.fromLocals (types : List Ty) (loc : SourceLoc) : List HirLocalDecl → Except Panic VarMap
  | [] => .ok []
  | .var name typeId :: locals => do
    let ty ← getType types (← resolveAlias types 50 typeId)
    let vars ← fromLocals types loc locals
    return if ty.isAggregate then vars else (name, loc) :: vars
  | _ :: locals => fromLocals types loc locals

/-- The bit of a variable. -/
def VarMap.indexOf (vars : VarMap) (name : String) : Option Nat :=
  vars.findIdx? fun v => v.1 == name

/-- Which variables are assigned on all paths. -/
abbrev AssignedSet := List Bool

namespace AssignedSet

/-- Whether a bit is set. -/
def get (s : AssignedSet) (i : Nat) : Bool := s.getD i false

/-- The bits set in both. -/
def intersect (s t : AssignedSet) : AssignedSet := List.zipWith and s t

/-- Mark one variable, if it is tracked. -/
def define (vars : VarMap) (s : AssignedSet) (name : String) : AssignedSet :=
  match vars.indexOf name with
  | some i => s.set i true
  | none => s

/-- Mark several variables. -/
def defineAll (vars : VarMap) (s : AssignedSet) (names : List String) : AssignedSet :=
  names.foldl (define vars) s

end AssignedSet

/-! ## Definitions -/

/-- Builtins that define their first argument. -/
def isDefiningBuiltin (name : String) : Bool :=
  ["NEW", "INC", "DEC", "INCL", "EXCL"].contains name

/-- The callee is a defining builtin. -/
def HirCallTarget.isDefiningBuiltin : HirCallTarget → Bool
  | .direct sym => Mx.isDefiningBuiltin sym.sourceName
  | .indirect _ => false

/-- The local variable at the root of a place. -/
def PlaceBase.localName : PlaceBase → List String
  | .localVar sym => [sym.sourceName]
  | _ => []

/-- The local variable an argument passes by reference. -/
def addrOfDef : HirExpr → List String
  | ⟨.addrOf p, _, _⟩ => p.base.localName
  | _ => []

/-- The local variable that the first argument of a defining builtin names. -/
def firstPlaceDef : List HirExpr → List String
  | ⟨.place p, _, _⟩ :: _ => p.base.localName
  | _ => []

mutual

/-- `scan_expr_defs`. -/
def scanExprDefs : HirExpr → List String
  | ⟨.directCall target args, _, _⟩ =>
    scanArgDefs args ++ if isDefiningBuiltin target.sourceName then firstPlaceDef args else []
  | ⟨.indirectCall _ args, _, _⟩ => scanArgDefs args
  | ⟨.binaryOp _ left right, _, _⟩ => scanExprDefs left ++ scanExprDefs right
  | ⟨.unaryOp _ operand, _, _⟩ => scanExprDefs operand
  | ⟨.not operand, _, _⟩ => scanExprDefs operand
  | ⟨.deref operand, _, _⟩ => scanExprDefs operand
  | ⟨.typeTransfer operand, _, _⟩ => scanExprDefs operand
  | _ => []

/-- The arguments of a call in `scan_expr_defs`. -/
def scanArgDefs : List HirExpr → List String
  | [] => []
  | arg :: args => addrOfDef arg ++ scanExprDefs arg ++ scanArgDefs args

end

/-- `transfer_stmt`. -/
def transferStmtDefs : HirStmt → List String
  | ⟨.assign target value, _⟩ => scanExprDefs value ++ target.base.localName
  | ⟨.procCall target args, _⟩ =>
    args.flatMap addrOfDef ++ if target.isDefiningBuiltin then firstPlaceDef args else []
  | _ => []

/-- The expression a terminator evaluates. -/
def Terminator.expr : Terminator → Option HirExpr
  | .branch cond _ _ => some cond
  | .switch expr _ _ => some expr
  | .ret expr => expr
  | .raise expr => expr
  | .goto _ => none

/-- What the transfer function of a block marks. -/
def BasicBlock.transferDefs (block : BasicBlock) : List String :=
  block.stmts.flatMap transferStmtDefs ++
    match block.terminator.bind Terminator.expr with
    | some e => scanExprDefs e
    | none => []

/-- The analysis of definitely assigned variables. -/
def definitelyAssigned (vars : VarMap) : ForwardAnalysis AssignedSet where
  entryState := List.replicate vars.length false
  bottom := List.replicate vars.length true
  join := AssignedSet.intersect
  transfer cfg b s :=
    match cfg.blocks[b]? with
    | some block => s.defineAll vars block.transferDefs
    | none => s

/-! ## Uses -/

/-- The uses a walk finds, and the variables that calls inside it define. -/
structure Uses where
  uses : List (String × SourceLoc)
  defs : List String

namespace Uses

/-- Nothing found. -/
def none : Uses := ⟨[], []⟩

/-- A use of the root of a place. -/
def use (base : PlaceBase) (loc : SourceLoc) : Uses := ⟨base.localName.map fun n => (n, loc), []⟩

/-- A definition of the root of a place. -/
def define (base : PlaceBase) : Uses := ⟨[], base.localName⟩

instance : Append Uses := ⟨fun u v => ⟨u.uses ++ v.uses, u.defs ++ v.defs⟩⟩

@[simp] theorem append_defs (u v : Uses) : (u ++ v).defs = u.defs ++ v.defs := rfl

end Uses

mutual

/-- `collect_uses`. -/
def collectUses : HirExpr → Uses
  | ⟨.place ⟨base, projections, _, _⟩, _, loc⟩ => .use base loc ++ collectIndices projections
  | ⟨.binaryOp _ left right, _, _⟩ => collectUses left ++ collectUses right
  | ⟨.unaryOp _ operand, _, _⟩ => collectUses operand
  | ⟨.not operand, _, _⟩ => collectUses operand
  | ⟨.deref operand, _, _⟩ => collectUses operand
  | ⟨.typeTransfer operand, _, _⟩ => collectUses operand
  | ⟨.directCall target args, _, _⟩ => collectArgs (isDefiningBuiltin target.sourceName) args
  | ⟨.indirectCall _ args, _, _⟩ => collectArgs false args
  | ⟨.addrOf ⟨base, _, _, _⟩, _, loc⟩ => .use base loc
  | ⟨.setConstructor elements, _, _⟩ => collectElements elements
  | _ => .none

/-- The arguments of a call; the first one of a defining builtin is no use. -/
def collectArgs : Bool → List HirExpr → Uses
  | _, [] => .none
  | _, ⟨.addrOf ⟨base, projections, _, _⟩, _, _⟩ :: args =>
    .define base ++ collectIndices projections ++ collectArgs false args
  | true, ⟨.place ⟨base, _, _, _⟩, _, _⟩ :: args => .define base ++ collectArgs false args
  | true, _ :: args => collectArgs false args
  | false, arg :: args => collectUses arg ++ collectArgs false args

/-- The index expressions of a place. -/
def collectIndices : List Projection → Uses
  | [] => .none
  | ⟨.index e, _⟩ :: projections => collectUses e ++ collectIndices projections
  | _ :: projections => collectIndices projections

/-- The elements of a set constructor. -/
def collectElements : List HirSetElement → Uses
  | [] => .none
  | .single e :: elements => collectUses e ++ collectElements elements
  | .range lo hi :: elements => collectUses lo ++ collectUses hi ++ collectElements elements

end

/-- `collect_stmt_uses`. -/
def collectStmtUses : HirStmt → Uses
  | ⟨.assign target value, _⟩ => collectUses value ++ collectIndices target.projections
  | ⟨.procCall target args, _⟩ => collectArgs target.isDefiningBuiltin args
  | _ => .none

/-- `collect_terminator_uses`. -/
def collectTerminatorUses (t : Terminator) : Uses :=
  match t.expr with
  | some e => collectUses e
  | none => .none

/-! ## Warnings -/

/-- The warnings so far and the variables they are about. -/
structure Report where
  warnings : List CompileError
  warned : List String

/-- Check one use against the assigned variables. -/
def Report.checkUse (vars : VarMap) (state : AssignedSet) (r : Report)
    (use : String × SourceLoc) : Report :=
  match vars.indexOf use.1 with
  | some i =>
    if !state.get i && !r.warned.contains use.1 then
      { warnings := r.warnings ++ [⟨use.2, "W10", usedUnassigned use.1⟩]
        warned := use.1 :: r.warned }
    else r
  | none => r

/-- Check all uses of a statement or a terminator. -/
def Report.checkUses (vars : VarMap) (state : AssignedSet) (r : Report)
    (uses : List (String × SourceLoc)) : Report :=
  uses.foldl (checkUse vars state) r

/-- The assigned variables after a statement of the scan. -/
def AssignedSet.afterStmt (vars : VarMap) (state : AssignedSet) (s : HirStmt) : AssignedSet :=
  (state.defineAll vars (transferStmtDefs s)).defineAll vars (collectStmtUses s).defs

/-- The scan of a block: its statements, each updating the state, and its terminator. -/
def Report.checkBlock (vars : VarMap) (terminator : Option Terminator) :
    List HirStmt → AssignedSet → Report → Report
  | [], state, r =>
    match terminator with
    | some t => r.checkUses vars state (collectTerminatorUses t).uses
    | none => r
  | s :: ss, state, r =>
    checkBlock vars terminator ss (state.afterStmt vars s)
      (r.checkUses vars state (collectStmtUses s).uses)

/-- The scan of the blocks, each from its input state. -/
def Report.checkBlocks (vars : VarMap) (r : Report) (blocks : List (BasicBlock × AssignedSet)) :
    Report :=
  blocks.foldl (fun r b => r.checkBlock vars b.1.terminator b.1.stmts b.2) r

/-- `lint_uninitialized_vars`, with a bound on the rounds of the solver. -/
def lintUninitializedVars (proc : HirProcDecl) (types : List Ty) (fuel : Nat) :
    Except Stop (List CompileError) :=
  match proc.cfg with
  | none => .ok []
  | some cfg => do
    let vars ← orPanic (VarMap.fromLocals types proc.loc proc.locals)
    if vars.isEmpty then
      return []
    else
      let cfg ← if cfg.predsValid then pure cfg else orPanic cfg.computePreds
      let result ← (definitelyAssigned vars).solveForward cfg fuel
      return (Report.checkBlocks vars ⟨[], []⟩ (cfg.blocks.zip result.blockIn)).warnings

end Mx

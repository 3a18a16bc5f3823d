import Mx.HirBuild.ProcDecl

/-!
# Variable references of a body

The two collectors of `hir_build/mod.rs` that capture analysis uses, `collect_hir_var_refs` and
`collect_hir_refs_in_stmts`, and `compute_captures_hir` over the second one. Both walk the same
statements; the first one skips some of their parts.
-/

namespace Mx.HirBuild

/-- The variable at the root of a place. -/
def baseVar : PlaceBase → List String
  | .localVar sym | .globalVar sym => [sym.sourceName]
  | _ => []

/-- The name at the root of a place. -/
def baseName : PlaceBase → List String
  | .localVar sym | .globalVar sym | .funcRef sym => [sym.sourceName]
  | .constant _ => []

/-! ## `collect_hir_var_refs` -/

mutual

/-- `collect_from_expr`. -/
def exprVarRefs : HirExpr → List String
  | ⟨.place ⟨base, projections, _, _⟩, _, _⟩ => baseVar base ++ indexVarRefs projections
  | ⟨.binaryOp _ left right, _, _⟩ => exprVarRefs left ++ exprVarRefs right
  | ⟨.unaryOp _ operand, _, _⟩ => exprVarRefs operand
  | ⟨.not operand, _, _⟩ => exprVarRefs operand
  | ⟨.directCall _ args, _, _⟩ => argVarRefs args
  | ⟨.indirectCall _ args, _, _⟩ => argVarRefs args
  | _ => []

/-- The subscripts of a place. -/
def indexVarRefs : List Projection → List String
  | [] => []
  | ⟨.index e, _⟩ :: projections => exprVarRefs e ++ indexVarRefs projections
  | _ :: projections => indexVarRefs projections

/-- The arguments of a call. -/
def argVarRefs : List HirExpr → List String
  | [] => []
  | e :: es => exprVarRefs e ++ argVarRefs es

end

mutual

/-- `collect_hir_var_refs`. -/
def collectHirVarRefs : List HirStmt → List String
  | [] => []
  | s :: ss => stmtVarRefs s ++ collectHirVarRefs ss

/-- One statement of `collect_from_stmts`. -/
def stmtVarRefs : HirStmt → List String
  | ⟨.assign _ value, _⟩ => exprVarRefs value
  | ⟨.procCall _ args, _⟩ => argVarRefs args
  | ⟨.ifStmt cond thenBody elsifs elseBody, _⟩ =>
    exprVarRefs cond ++ collectHirVarRefs thenBody ++ elsifVarRefs elsifs ++
      optionalVarRefs elseBody
  | ⟨.whileStmt cond body, _⟩ => exprVarRefs cond ++ collectHirVarRefs body
  | ⟨.repeatStmt body cond, _⟩ => collectHirVarRefs body ++ exprVarRefs cond
  | ⟨.forStmt _ _ start stop _ _ body, _⟩ =>
    exprVarRefs start ++ exprVarRefs stop ++ collectHirVarRefs body
  | ⟨.loop body, _⟩ => collectHirVarRefs body
  | ⟨.ret (some e), _⟩ => exprVarRefs e
  | _ => []

/-- The `ELSIF` branches. -/
def elsifVarRefs : List (HirExpr × List HirStmt) → List String
  | [] => []
  | (cond, body) :: elsifs => exprVarRefs cond ++ collectHirVarRefs body ++ elsifVarRefs elsifs

/-- An optional body. -/
def optionalVarRefs : Option (List HirStmt) → List String
  | none => []
  | some body => collectHirVarRefs body

end

/-! ## `collect_hir_refs_in_stmts` -/

mutual

/-- `collect_hir_refs_in_expr`. -/
def exprRefs : HirExpr → List String
  | ⟨.place p, _, _⟩ => placeRefs p
  | ⟨.addrOf p, _, _⟩ => placeRefs p
  | ⟨.directCall target args, _, _⟩ => target.sourceName :: argRefs args
  | ⟨.indirectCall callee args, _, _⟩ => exprRefs callee ++ argRefs args
  | ⟨.unaryOp _ operand, _, _⟩ => exprRefs operand
  | ⟨.binaryOp _ left right, _, _⟩ => exprRefs left ++ exprRefs right
  | ⟨.setConstructor elements, _, _⟩ => elementRefs elements
  | ⟨.not operand, _, _⟩ => exprRefs operand
  | ⟨.deref operand, _, _⟩ => exprRefs operand
  | ⟨.typeTransfer operand, _, _⟩ => exprRefs operand
  | _ => []

/-- `collect_hir_refs_in_place`. -/
def placeRefs : Place → List String
  | ⟨base, projections, _, _⟩ => baseName base ++ indexRefs projections

/-- The subscripts of a place. -/
def indexRefs : List Projection → List String
  | [] => []
  | ⟨.index e, _⟩ :: projections => exprRefs e ++ indexRefs projections
  | _ :: projections => indexRefs projections

/-- The arguments of a call. -/
def argRefs : List HirExpr → List String
  | [] => []
  | e :: es => exprRefs e ++ argRefs es

/-- The elements of a set. -/
def elementRefs : List HirSetElement → List String
  | [] => []
  | .single e :: es => exprRefs e ++ elementRefs es
  | .range lo hi :: es => exprRefs lo ++ exprRefs hi ++ elementRefs es

end

/-- The callee of a procedure call. -/
def targetRefs : HirCallTarget → List String
  | .direct sym => [sym.sourceName]
  | .indirect e => exprRefs e

/-- An optional expression. -/
def optionalExprRefs : Option HirExpr → List String
  | none => []
  | some e => exprRefs e

mutual

/-- `collect_hir_refs_in_stmts`. -/
def collectHirRefs : List HirStmt → List String
  | [] => []
  | s :: ss => stmtRefs s ++ collectHirRefs ss

/-- `collect_hir_refs_in_stmt`. -/
def stmtRefs : HirStmt → List String
  | ⟨.assign target value, _⟩ => placeRefs target ++ exprRefs value
  | ⟨.procCall target args, _⟩ => targetRefs target ++ argRefs args
  | ⟨.ifStmt cond thenBody elsifs elseBody, _⟩ =>
    exprRefs cond ++ collectHirRefs thenBody ++ elsifRefs elsifs ++ optionalRefs elseBody
  | ⟨.caseStmt expr branches elseBody, _⟩ =>
    exprRefs expr ++ branchRefs branches ++ optionalRefs elseBody
  | ⟨.whileStmt cond body, _⟩ => exprRefs cond ++ collectHirRefs body
  | ⟨.repeatStmt body cond, _⟩ => collectHirRefs body ++ exprRefs cond
  | ⟨.forStmt var _ start stop step _ body, _⟩ =>
    var :: (exprRefs start ++ exprRefs stop ++ optionalExprRefs step ++ collectHirRefs body)
  | ⟨.loop body, _⟩ => collectHirRefs body
  | ⟨.ret expr, _⟩ => optionalExprRefs expr
  | ⟨.tryStmt body excepts finallyBody, _⟩ =>
    collectHirRefs body ++ clauseRefs excepts ++ optionalRefs finallyBody
  | ⟨.lock mutex body, _⟩ => exprRefs mutex ++ collectHirRefs body
  | ⟨.typeCase expr branches elseBody, _⟩ =>
    exprRefs expr ++ typeBranchRefs branches ++ optionalRefs elseBody
  | ⟨.raise expr, _⟩ => optionalExprRefs expr
  | ⟨.empty, _⟩ | ⟨.exit, _⟩ | ⟨.retry, _⟩ => []

/-- The `ELSIF` branches. -/
def elsifRefs : List (HirExpr × List HirStmt) → List String
  | [] => []
  | (cond, body) :: elsifs => exprRefs cond ++ collectHirRefs body ++ elsifRefs elsifs

/-- The bodies of the `CASE` branches; the labels are constants. -/
def branchRefs : List HirCaseBranch → List String
  | [] => []
  | ⟨_, body⟩ :: branches => collectHirRefs body ++ branchRefs branches

/-- The bodies of the `EXCEPT` clauses. -/
def clauseRefs : List HirExceptClause → List String
  | [] => []
  | ⟨_, _, body⟩ :: clauses => collectHirRefs body ++ clauseRefs clauses

/-- The bodies of the `TYPECASE` branches. -/
def typeBranchRefs : List HirTypeCaseBranch → List String
  | [] => []
  | ⟨_, _, body⟩ :: branches => collectHirRefs body ++ typeBranchRefs branches

/-- An optional body. -/
def optionalRefs : Option (List HirStmt) → List String
  | none => []
  | some body => collectHirRefs body

end

/-! ## `compute_captures_hir` -/

/-- A hash map with string keys; the last entry of a key counts. -/
abbrev NameMap (β : Type) := List (String × β)

/-- The entry of a key. -/
def NameMap.get {β : Type} (m : NameMap β) (name : String) : Option β := m.lookup name

/-- A key has an entry. -/
def NameMap.contains {β : Type} (m : NameMap β) (name : String) : Bool := (m.get name).isSome

/-- `insert`. -/
def NameMap.insert {β : Type} (m : NameMap β) (name : String) (v : β) : NameMap β :=
  (name, v) :: m

/-- `entry(name).or_insert(v)`. -/
def NameMap.orInsert {β : Type} (m : NameMap β) (name : String) (v : β) : NameMap β :=
  if m.contains name then m else m.insert name v

/-- What capture analysis reads of the rest of the program. -/
structure CaptureContext where
  /-- The keys of `import_map`. -/
  importMap : List String
  importedModules : List String
  /-- `is_builtin_proc` -/
  isBuiltinProc : String → Bool

/-- The names that a body mentions and its procedure takes from outside. -/
def capturedNames (c : CaptureContext) (procName : String) (body : List HirStmt)
    (paramNames localNames : List String) (outer : NameMap TypeId) : List String :=
  (collectHirRefs body).dedup.filter fun name =>
    outer.contains name && !(paramNames ++ localNames ++ [procName]).contains name &&
      !c.isBuiltinProc name && !c.importMap.contains name && !c.importedModules.contains name

/-- The bounds of captured open arrays. -/
def highCompanions (outer : NameMap TypeId) (names : List String) : List String :=
  (names.map (· ++ "_high")).filter fun high => outer.contains high && !names.contains high

/-- A captured variable with its type in the enclosing scope. -/
def capturedVar (outer : NameMap TypeId) (isHighCompanion : Bool) (name : String) :
    CapturedVar where
  name := name
  ty := (outer.get name).getD 0
  isHighCompanion := isHighCompanion

/-- `compute_captures_hir`. -/
def computeCapturesHir (c : CaptureContext) (procName : String) (body : List HirStmt)
    (paramNames localNames : List String) (outer : NameMap TypeId) : List CapturedVar :=
  let names := capturedNames c procName body paramNames localNames outer
  (names.map (capturedVar outer false) ++
    (highCompanions outer names).map (capturedVar outer true)).mergeSort
    fun a b => a.name ≤ b.name

end Mx.HirBuild

import Mx.Cfg.Lint

/-!
# Reads and writes of local variables

What evaluating an expression or a statement does to the local variables, whatever the
lint makes of it. A place that is assigned to or passed by reference writes its root
variable, unless it is reached through a pointer: then the root is read. A write in the right
operand of `AND` or `OR` may not happen. Every variable that the lint takes for defined is
accessed in one of these ways.
-/

namespace Mx

open List

/-- A read of a local variable, a write, or a write that may not happen. -/
inductive Access where
  | read (name : String)
  | write (name : String)
  | mayWrite (name : String)
  deriving DecidableEq

/-- An access that may not happen. -/
def Access.maybe : Access → Access
  | .write n => .mayWrite n
  | a => a

/-- The right operand is evaluated only for one value of the left one. -/
def BinaryOp.isShortCircuit : BinaryOp → Bool
  | .and | .or => true
  | _ => false

/-- The projection follows a pointer. -/
def Projection.isDeref : Projection → Bool
  | ⟨.deref, _⟩ => true
  | _ => false

/-- Reading the root of a place. -/
def PlaceBase.read (base : PlaceBase) : List Access := base.localName.map .read

/-- Computing the address of a place: its root is read if a pointer is followed. -/
def PlaceBase.address (base : PlaceBase) (projections : List Projection) : List Access :=
  if projections.any Projection.isDeref then base.read else []

/-- Assigning to a place or passing it by reference. -/
def PlaceBase.assign (base : PlaceBase) (projections : List Projection) : List Access :=
  if projections.any Projection.isDeref then base.read else base.localName.map .write

mutual

/-- The accesses of an expression. -/
def HirExpr.accesses : HirExpr → List Access
  | ⟨.place ⟨base, projections, _, _⟩, _, _⟩ => base.read ++ projectionAccesses projections
  | ⟨.addrOf ⟨base, projections, _, _⟩, _, _⟩ =>
    base.address projections ++ projectionAccesses projections
  | ⟨.directCall target args, _, _⟩ => argAccesses (isDefiningBuiltin target.sourceName) args
  | ⟨.indirectCall callee args, _, _⟩ => callee.accesses ++ argAccesses false args
  | ⟨.unaryOp _ operand, _, _⟩ => operand.accesses
  | ⟨.binaryOp op left right, _, _⟩ =>
    left.accesses ++
      if op.isShortCircuit then right.accesses.map Access.maybe else right.accesses
  | ⟨.setConstructor elements, _, _⟩ => elementAccesses elements
  | ⟨.not operand, _, _⟩ => operand.accesses
  | ⟨.deref operand, _, _⟩ => operand.accesses
  | ⟨.typeTransfer operand, _, _⟩ => operand.accesses
  | _ => []

/-- The accesses of the arguments of a call, the first of which may be defined by it. -/
def argAccesses : Bool → List HirExpr → List Access
  | _, [] => []
  | _, ⟨.addrOf ⟨base, projections, _, _⟩, _, _⟩ :: args =>
    base.assign projections ++ projectionAccesses projections ++ argAccesses false args
  | true, ⟨.place ⟨base, projections, _, _⟩, _, _⟩ :: args =>
    base.assign projections ++ projectionAccesses projections ++ argAccesses false args
  | _, arg :: args => arg.accesses ++ argAccesses false args

/-- The accesses of the expressions in projections. -/
def projectionAccesses : List Projection → List Access
  | [] => []
  | ⟨.index e, _⟩ :: projections => e.accesses ++ projectionAccesses projections
  | ⟨.typeTransfer e, _⟩ :: projections => e.accesses ++ projectionAccesses projections
  | _ :: projections => projectionAccesses projections

/-- The accesses of the elements of a set. -/
def elementAccesses : List HirSetElement → List Access
  | [] => []
  | .single e :: elements => e.accesses ++ elementAccesses elements
  | .range lo hi :: elements => lo.accesses ++ hi.accesses ++ elementAccesses elements

end

/-- The accesses of an assignment. -/
def assignAccesses (target : Place) (value : HirExpr) : List Access :=
  value.accesses ++ target.base.assign target.projections ++ projectionAccesses target.projections

/-- The accesses of a procedure call. -/
def callAccesses (target : HirCallTarget) (args : List HirExpr) : List Access :=
  (match target with
    | .direct _ => []
    | .indirect e => e.accesses) ++ argAccesses target.isDefiningBuiltin args

/-- The variable that is read. -/
def Access.readName : Access → Option String
  | .read n => some n
  | _ => none

/-- The variable that is written. -/
def Access.writeName : Access → Option String
  | .write n => some n
  | _ => none

/-- The variable that may be written. -/
def Access.mayWriteName : Access → Option String
  | .mayWrite n => some n
  | _ => none

/-- The variables that some access reads. -/
def readNames (as : List Access) : List String := as.filterMap Access.readName

/-- The variables that some access writes. -/
def writeNames (as : List Access) : List String := as.filterMap Access.writeName

/-- The variables that some access may write. -/
def mayWriteNames (as : List Access) : List String := as.filterMap Access.mayWriteName

/-- The variables an optional expression reads. -/
def optReads (e : Option HirExpr) : List String :=
  match e with
  | some e => readNames e.accesses
  | none => []

/-- The variables a case label reads. -/
def HirCaseLabel.reads : HirCaseLabel → List String
  | .single e => readNames e.accesses
  | .range lo hi => readNames lo.accesses ++ readNames hi.accesses

mutual

/-- The variables a statement reads on some way through it. -/
def HirStmt.reads : HirStmt → List String
  | ⟨.empty, _⟩ => []
  | ⟨.assign target value, _⟩ => readNames (assignAccesses target value)
  | ⟨.procCall target args, _⟩ => readNames (callAccesses target args)
  | ⟨.ifStmt cond thenBody elsifs elseBody, _⟩ =>
    readNames cond.accesses ++ stmtsReads thenBody ++ elsifsReads elsifs ++ optStmtsReads elseBody
  | ⟨.caseStmt expr branches elseBody, _⟩ =>
    readNames expr.accesses ++ branchesReads branches ++ optStmtsReads elseBody
  | ⟨.whileStmt cond body, _⟩ => readNames cond.accesses ++ stmtsReads body
  | ⟨.repeatStmt body cond, _⟩ => stmtsReads body ++ readNames cond.accesses
  | ⟨.forStmt _ _ start stop step _ body, _⟩ =>
    readNames start.accesses ++ readNames stop.accesses ++ optReads step ++ stmtsReads body
  | ⟨.loop body, _⟩ => stmtsReads body
  | ⟨.ret expr, _⟩ => optReads expr
  | ⟨.exit, _⟩ => []
  | ⟨.raise expr, _⟩ => optReads expr
  | ⟨.retry, _⟩ => []
  | ⟨.tryStmt body excepts finallyBody, _⟩ =>
    stmtsReads body ++ clausesReads excepts ++ optStmtsReads finallyBody
  | ⟨.lock mutex body, _⟩ => readNames mutex.accesses ++ stmtsReads body
  | ⟨.typeCase expr branches elseBody, _⟩ =>
    readNames expr.accesses ++ typeBranchesReads branches ++ optStmtsReads elseBody

/-- The variables a statement list reads. -/
def stmtsReads : List HirStmt → List String
  | [] => []
  | s :: ss => s.reads ++ stmtsReads ss

/-- The variables an optional body reads. -/
def optStmtsReads : Option (List HirStmt) → List String
  | none => []
  | some ss => stmtsReads ss

/-- The variables `ELSIF` parts read. -/
def elsifsReads : List (HirExpr × List HirStmt) → List String
  | [] => []
  | (cond, body) :: rest => readNames cond.accesses ++ stmtsReads body ++ elsifsReads rest

/-- The variables `CASE` branches read. -/
def branchesReads : List HirCaseBranch → List String
  | [] => []
  | ⟨labels, body⟩ :: rest =>
    labels.flatMap HirCaseLabel.reads ++ stmtsReads body ++ branchesReads rest

/-- The variables `EXCEPT` clauses read. -/
def clausesReads : List HirExceptClause → List String
  | [] => []
  | ⟨_, _, body⟩ :: rest => stmtsReads body ++ clausesReads rest

/-- The variables `TYPECASE` branches read. -/
def typeBranchesReads : List HirTypeCaseBranch → List String
  | [] => []
  | ⟨_, _, body⟩ :: rest => stmtsReads body ++ typeBranchesReads rest

end

/-- The variables a statement writes whenever it completes. A structured statement in a
block, which only a `FINALLY` body can put there, is not relied on to write any. -/
def HirStmt.writes : HirStmt → List String
  | ⟨.assign target value, _⟩ => writeNames (assignAccesses target value)
  | ⟨.procCall target args, _⟩ => writeNames (callAccesses target args)
  | _ => []

/-- The variables a statement may write when it completes, by a right operand of `AND` or `OR`. -/
def HirStmt.mayWrites : HirStmt → List String
  | ⟨.assign target value, _⟩ => mayWriteNames (assignAccesses target value)
  | ⟨.procCall target args, _⟩ => mayWriteNames (callAccesses target args)
  | _ => []

/-- The variables a switch label reads. -/
def CaseLabel.reads : CaseLabel → List String
  | .single e => readNames e.accesses
  | .range lo hi => readNames lo.accesses ++ readNames hi.accesses
  | .type _ _ => []

/-- The variables a terminator reads. -/
def Terminator.reads : Terminator → List String
  | .branch cond _ _ => readNames cond.accesses
  | .switch expr arms _ => readNames expr.accesses ++ arms.flatMap fun arm =>
      arm.labels.flatMap CaseLabel.reads
  | .ret expr => optReads expr
  | .raise expr => optReads expr
  | .goto _ => []

/-- The variables a terminator writes. -/
def Terminator.writes (t : Terminator) : List String :=
  match t.expr with
  | some e => writeNames e.accesses
  | none => []

/-- The variables a terminator may write. -/
def Terminator.mayWrites (t : Terminator) : List String :=
  match t.expr with
  | some e => mayWriteNames e.accesses
  | none => []

/-! ## What the lint takes for defined -/

/-- The variable is accessed. -/
def Accessed (as : List Access) (n : String) : Prop :=
  n ∈ readNames as ∨ n ∈ writeNames as ∨ n ∈ mayWriteNames as

section Accessed

variable {n : String} {as bs : List Access} {base : PlaceBase} {projections : List Projection}

@[simp] theorem readNames_append : readNames (as ++ bs) = readNames as ++ readNames bs := by
  simp [readNames]

@[simp] theorem writeNames_append : writeNames (as ++ bs) = writeNames as ++ writeNames bs := by
  simp [writeNames]

@[simp] theorem mayWriteNames_append :
    mayWriteNames (as ++ bs) = mayWriteNames as ++ mayWriteNames bs := by
  simp [mayWriteNames]

@[simp] theorem accessed_append : Accessed (as ++ bs) n ↔ Accessed as n ∨ Accessed bs n := by
  simp only [Accessed, readNames_append, writeNames_append, mayWriteNames_append, mem_append]
  tauto

/-- What may not happen is still an access. -/
theorem accessed_maybe : Accessed (as.map Access.maybe) n ↔ Accessed as n := by
  induction as with
  | nil => rfl
  | cons a as ih =>
    have hhead : Accessed [a.maybe] n ↔ Accessed [a] n := by
      cases a <;>
        simp [Accessed, Access.maybe, readNames, writeNames, mayWriteNames, Access.readName,
          Access.writeName, Access.mayWriteName]
    rw [map_cons, ← singleton_append, accessed_append, hhead, ih, ← accessed_append,
      singleton_append]

theorem accessed_read : Accessed base.read n ↔ n ∈ base.localName := by
  cases base <;> simp [PlaceBase.localName, PlaceBase.read, Accessed, readNames, writeNames,
    mayWriteNames, Access.readName, Access.writeName, Access.mayWriteName, eq_comm]

theorem accessed_address (h : Accessed (base.address projections) n) : n ∈ base.localName := by
  unfold PlaceBase.address at h
  split at h
  · exact accessed_read.mp h
  · simp [Accessed, readNames, writeNames, mayWriteNames] at h

theorem accessed_assign (h : n ∈ base.localName) : Accessed (base.assign projections) n := by
  unfold PlaceBase.assign
  split
  · exact accessed_read.mpr h
  · cases base <;> simp_all [PlaceBase.localName, Accessed, writeNames, Access.writeName]

/-- Both operands are accessed, whether or not the right one is evaluated. -/
theorem accessed_binaryOp {op : BinaryOp} {left right : HirExpr} {ty : TypeId} {loc : SourceLoc} :
    Accessed (HirExpr.accesses ⟨.binaryOp op left right, ty, loc⟩) n ↔
      Accessed left.accesses n ∨ Accessed right.accesses n := by
  rw [HirExpr.accesses, accessed_append]
  split_ifs
  · rw [accessed_maybe]
  · rfl

end Accessed

section Walkers

variable {n : String}

variable {arg : HirExpr} {args : List HirExpr} {first : Bool}

theorem accessed_addrOfDef
    (h : n ∈ addrOfDef arg) : Accessed (argAccesses first (arg :: args)) n := by
  obtain ⟨kind, ty, loc⟩ := arg
  cases kind <;> simp only [addrOfDef, not_mem_nil] at h
  next p =>
    obtain ⟨base, projections, pty, ploc⟩ := p
    simp only [argAccesses, accessed_append]
    exact Or.inl (Or.inl (accessed_assign h))

theorem accessed_firstPlaceDef (h : n ∈ firstPlaceDef args) :
    Accessed (argAccesses true args) n := by
  cases args with
  | nil => simp [firstPlaceDef] at h
  | cons arg args =>
    obtain ⟨kind, ty, loc⟩ := arg
    cases kind <;> simp only [firstPlaceDef, not_mem_nil] at h
    next p =>
      obtain ⟨base, projections, pty, ploc⟩ := p
      simp only [argAccesses, accessed_append]
      exact Or.inl (Or.inl (accessed_assign h))

/-- An argument is accessed at least as its evaluation accesses it. -/
theorem argAccesses_cons (first : Bool) (arg : HirExpr) (args : List HirExpr) :
    ∃ as, argAccesses first (arg :: args) = as ++ argAccesses false args ∧
      ∀ n, Accessed arg.accesses n → Accessed as n := by
  obtain ⟨kind, ty, loc⟩ := arg
  cases kind with
  | addrOf p =>
    obtain ⟨base, projections, pty, ploc⟩ := p
    refine ⟨_, by rw [argAccesses], fun n h => ?_⟩
    simp only [HirExpr.accesses, accessed_append] at h ⊢
    exact h.imp_left fun h => accessed_assign (accessed_address h)
  | place p =>
    obtain ⟨base, projections, pty, ploc⟩ := p
    cases first with
    | false => exact ⟨_, by simp [argAccesses], fun n h => h⟩
    | true =>
      refine ⟨_, by rw [argAccesses], fun n h => ?_⟩
      simp only [HirExpr.accesses, accessed_append] at h ⊢
      exact h.imp_left fun h => accessed_assign (accessed_read.mp h)
  | _ => cases first <;> exact ⟨_, by simp only [argAccesses], fun n h => h⟩

/-- An argument is accessed by a call that evaluates it. -/
theorem accessed_head
    (h : Accessed arg.accesses n) : Accessed (argAccesses first (arg :: args)) n := by
  obtain ⟨as, he, has⟩ := argAccesses_cons first arg args
  rw [he, accessed_append]
  exact Or.inl (has n h)

/-- The arguments after the first are walked in the same way for every callee. -/
theorem accessed_tail
    (h : Accessed (argAccesses false args) n) : Accessed (argAccesses first (arg :: args)) n := by
  obtain ⟨as, he, -⟩ := argAccesses_cons first arg args
  rw [he, accessed_append]
  exact Or.inr h

mutual

theorem accessed_of_scan : ∀ e : HirExpr, n ∈ scanExprDefs e → Accessed e.accesses n
  | ⟨.directCall target args, _, _⟩, h => by
    simp only [scanExprDefs, mem_append] at h
    rcases h with h | h
    · exact accessed_of_scanArgs args _ h
    · split at h
      · next hb =>
        rw [HirExpr.accesses, hb]
        exact accessed_firstPlaceDef h
      · simp at h
  | ⟨.indirectCall _ args, _, _⟩, h => by
    simp only [scanExprDefs] at h
    simp only [HirExpr.accesses, accessed_append]
    exact Or.inr (accessed_of_scanArgs args _ h)
  | ⟨.binaryOp _ left right, _, _⟩, h => by
    simp only [scanExprDefs, mem_append] at h
    exact accessed_binaryOp.mpr (h.imp (accessed_of_scan left) (accessed_of_scan right))
  | ⟨.unaryOp _ operand, _, _⟩, h | ⟨.not operand, _, _⟩, h | ⟨.deref operand, _, _⟩, h
  | ⟨.typeTransfer operand, _, _⟩, h => by
    simp only [scanExprDefs] at h
    simpa only [HirExpr.accesses] using accessed_of_scan operand h
  | ⟨.intLit _, _, _⟩, h | ⟨.realLit _, _, _⟩, h | ⟨.stringLit _, _, _⟩, h | ⟨.charLit _, _, _⟩, h
  | ⟨.boolLit _, _, _⟩, h | ⟨.nilLit, _, _⟩, h | ⟨.place _, _, _⟩, h | ⟨.addrOf _, _, _⟩, h
  | ⟨.setConstructor _, _, _⟩, h => by simp [scanExprDefs] at h

theorem accessed_of_scanArgs : ∀ (args : List HirExpr) (first : Bool), n ∈ scanArgDefs args →
    Accessed (argAccesses first args) n
  | [], _, h => by simp [scanArgDefs] at h
  | arg :: args, first, h => by
    simp only [scanArgDefs, mem_append] at h
    rcases h with (h | h) | h
    · exact accessed_addrOfDef h
    · exact accessed_head (accessed_of_scan arg h)
    · exact accessed_tail (accessed_of_scanArgs args false h)

end

mutual

theorem accessed_of_collect : ∀ e : HirExpr, n ∈ (collectUses e).defs → Accessed e.accesses n
  | ⟨.place ⟨base, projections, _, _⟩, _, _⟩, h => by
    simp only [collectUses, Uses.append_defs, Uses.use, nil_append] at h
    simp only [HirExpr.accesses, accessed_append]
    exact Or.inr (accessed_of_collectIndices projections h)
  | ⟨.binaryOp _ left right, _, _⟩, h => by
    simp only [collectUses, Uses.append_defs, mem_append] at h
    exact accessed_binaryOp.mpr (h.imp (accessed_of_collect left) (accessed_of_collect right))
  | ⟨.unaryOp _ operand, _, _⟩, h | ⟨.not operand, _, _⟩, h | ⟨.deref operand, _, _⟩, h
  | ⟨.typeTransfer operand, _, _⟩, h => by
    simp only [collectUses] at h
    simpa only [HirExpr.accesses] using accessed_of_collect operand h
  | ⟨.directCall target args, _, _⟩, h => by
    simp only [collectUses] at h
    simpa only [HirExpr.accesses] using accessed_of_collectArgs args _ h
  | ⟨.indirectCall _ args, _, _⟩, h => by
    simp only [collectUses] at h
    simp only [HirExpr.accesses, accessed_append]
    exact Or.inr (accessed_of_collectArgs args _ h)
  | ⟨.setConstructor elements, _, _⟩, h => by
    simp only [collectUses] at h
    simpa only [HirExpr.accesses] using accessed_of_collectElements elements h
  | ⟨.addrOf ⟨_, _, _, _⟩, _, _⟩, h => by simp [collectUses, Uses.use] at h
  | ⟨.intLit _, _, _⟩, h | ⟨.realLit _, _, _⟩, h | ⟨.stringLit _, _, _⟩, h | ⟨.charLit _, _, _⟩, h
  | ⟨.boolLit _, _, _⟩, h | ⟨.nilLit, _, _⟩, h => by simp [collectUses, Uses.none] at h

theorem accessed_of_collectArgs : ∀ (args : List HirExpr) (first : Bool),
    n ∈ (collectArgs first args).defs → Accessed (argAccesses first args) n
  | [], _, h => by simp [collectArgs, Uses.none] at h
  | arg :: args, first, h => by
    obtain ⟨kind, ty, loc⟩ := arg
    cases kind with
    | addrOf p =>
      obtain ⟨base, projections, pty, ploc⟩ := p
      simp only [collectArgs, Uses.append_defs, mem_append] at h
      simp only [argAccesses, accessed_append]
      rcases h with (h | h) | h
      · exact Or.inl (Or.inl (accessed_assign h))
      · exact Or.inl (Or.inr (accessed_of_collectIndices projections h))
      · exact Or.inr (accessed_of_collectArgs args false h)
    | place p =>
      obtain ⟨base, projections, pty, ploc⟩ := p
      cases first with
      | true =>
        simp only [collectArgs, Uses.append_defs, mem_append] at h
        simp only [argAccesses, accessed_append]
        exact h.imp (fun h => Or.inl (accessed_assign h)) (accessed_of_collectArgs args false)
      | false =>
        simp only [collectArgs, Uses.append_defs, mem_append] at h
        rcases h with h | h
        · exact accessed_head (accessed_of_collect _ h)
        · exact accessed_tail (accessed_of_collectArgs args false h)
    | _ =>
      cases first with
      | true =>
        exact accessed_tail (accessed_of_collectArgs args false (by simpa [collectArgs] using h))
      | false =>
        simp only [collectArgs, Uses.append_defs, mem_append] at h
        rcases h with h | h
        · exact accessed_head (accessed_of_collect _ h)
        · exact accessed_tail (accessed_of_collectArgs args false h)

theorem accessed_of_collectIndices : ∀ projections : List Projection,
    n ∈ (collectIndices projections).defs → Accessed (projectionAccesses projections) n
  | [], h => by simp [collectIndices, Uses.none] at h
  | ⟨.index e, _⟩ :: projections, h => by
    simp only [collectIndices, Uses.append_defs, mem_append] at h
    simp only [projectionAccesses, accessed_append]
    exact h.imp (accessed_of_collect e) (accessed_of_collectIndices projections)
  | ⟨.typeTransfer e, _⟩ :: projections, h => by
    simp only [collectIndices] at h
    simp only [projectionAccesses, accessed_append]
    exact Or.inr (accessed_of_collectIndices projections h)
  | ⟨.field _ _ _, _⟩ :: projections, h | ⟨.deref, _⟩ :: projections, h
  | ⟨.variantField _ _ _ _, _⟩ :: projections, h => by
    simp only [collectIndices] at h
    simpa only [projectionAccesses] using accessed_of_collectIndices projections h

theorem accessed_of_collectElements : ∀ elements : List HirSetElement,
    n ∈ (collectElements elements).defs → Accessed (elementAccesses elements) n
  | [], h => by simp [collectElements, Uses.none] at h
  | .single e :: elements, h => by
    simp only [collectElements, Uses.append_defs, mem_append] at h
    simp only [elementAccesses, accessed_append]
    exact h.imp (accessed_of_collect e) (accessed_of_collectElements elements)
  | .range lo hi :: elements, h => by
    simp only [collectElements, Uses.append_defs, mem_append] at h
    simp only [elementAccesses, accessed_append]
    exact h.imp (Or.imp (accessed_of_collect lo) (accessed_of_collect hi))
      (accessed_of_collectElements elements)

end

theorem accessed_of_addrOf (h : n ∈ args.flatMap addrOfDef) :
    Accessed (argAccesses first args) n := by
  induction args generalizing first with
  | nil => simp at h
  | cons arg args ih =>
    rw [flatMap_cons, mem_append] at h
    rcases h with h | h
    · exact accessed_addrOfDef h
    · exact accessed_tail (ih h)

/-- A variable that a statement of a block is taken to define is accessed by it. -/
theorem accessed_of_stmt {s : HirStmt}
    (h : n ∈ transferStmtDefs s ∨ n ∈ (collectStmtUses s).defs) :
    n ∈ s.reads ∨ n ∈ s.writes ∨ n ∈ s.mayWrites := by
  obtain ⟨kind, loc⟩ := s
  cases kind with
  | assign target value =>
    simp only [transferStmtDefs, collectStmtUses, Uses.append_defs, mem_append] at h
    rw [HirStmt.reads, HirStmt.writes, HirStmt.mayWrites]
    change Accessed (assignAccesses target value) n
    simp only [assignAccesses, accessed_append]
    rcases h with (h | h) | h | h
    · exact Or.inl (Or.inl (accessed_of_scan value h))
    · exact Or.inl (Or.inr (accessed_assign h))
    · exact Or.inl (Or.inl (accessed_of_collect value h))
    · exact Or.inr (accessed_of_collectIndices _ h)
  | procCall target args =>
    simp only [transferStmtDefs, collectStmtUses, mem_append] at h
    rw [HirStmt.reads, HirStmt.writes, HirStmt.mayWrites]
    change Accessed (callAccesses target args) n
    simp only [callAccesses, accessed_append]
    right
    rcases h with (h | h) | h
    · exact accessed_of_addrOf h
    · split at h
      · next hb =>
        rw [hb]
        exact accessed_firstPlaceDef h
      · simp at h
    · exact accessed_of_collectArgs args _ h
  | _ => simp [transferStmtDefs, collectStmtUses, Uses.none] at h

/-- A variable that a terminator is taken to define is accessed by it. -/
theorem accessed_of_terminator {t : Terminator} {e : HirExpr} (he : t.expr = some e)
    (h : n ∈ scanExprDefs e) : n ∈ t.reads ∨ n ∈ t.writes ∨ n ∈ t.mayWrites := by
  have hacc := accessed_of_scan e h
  unfold Terminator.writes Terminator.mayWrites
  rw [he]
  refine hacc.imp_left fun hr => ?_
  cases t <;> simp only [Terminator.expr, Option.some.injEq, reduceCtorEq] at he <;>
    subst he <;> simp [Terminator.reads, optReads, hr]

end Walkers

end Mx

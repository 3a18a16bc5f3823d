import Mx.Cfg.Graph

/-!
# CFG construction

The builder of `cfg/build.rs`. A lowering takes a builder to the builder after
it, or panics. The lowering of a construct receives the lowerings of its bodies,
so every construct is a combinator, and only `lowerStmts` recurses over the
statement syntax. Stacks are kept with their top first.
-/

namespace Mx

/-- The state of CFG construction. -/
structure CfgBuilder where
  /-- All blocks allocated so far. -/
  blocks : List BasicBlock
  /-- The block statements are appended to, none after a seal. -/
  current : Option Nat
  /-- Exit blocks of the enclosing loops, innermost first. -/
  loopExitStack : List Nat
  /-- Catch blocks of the enclosing `TRY` bodies, innermost first. -/
  handlerStack : List Nat

/-- Lower a piece of syntax into the builder. -/
abbrev Lowering := CfgBuilder → Except Panic CfgBuilder

namespace CfgBuilder

/-- The builder holding only the open entry block. -/
def new : CfgBuilder where
  blocks := [{ id := 0, stmts := [], terminator := none, handler := none }]
  current := some 0
  loopExitStack := []
  handlerStack := []

/-- The id the next allocation returns. -/
def nextId (st : CfgBuilder) : Nat := st.blocks.length

/-- Append an empty open block with the given handler. -/
def alloc (st : CfgBuilder) (handler : Option Nat) : CfgBuilder :=
  { st with
    blocks := st.blocks ++ [{ id := st.nextId, stmts := [], terminator := none,
                              handler := handler }] }

/-- `new_block`: allocate in the current handler region. -/
def newBlock (st : CfgBuilder) : CfgBuilder := st.alloc st.handlerStack.head?

/-- `new_block_no_handler`: allocate outside every handler region. -/
def newBlockNoHandler (st : CfgBuilder) : CfgBuilder := st.alloc none

/-- Allocate several blocks in the current handler region. -/
def newBlocks (st : CfgBuilder) : Nat → CfgBuilder
  | 0 => st
  | n + 1 => st.newBlock.newBlocks n

/-- Allocate several blocks outside every handler region. -/
def newBlocksNoHandler (st : CfgBuilder) : Nat → CfgBuilder
  | 0 => st
  | n + 1 => st.newBlockNoHandler.newBlocksNoHandler n

/-- `start_block`: make an open block current. -/
def startBlock (st : CfgBuilder) (id : Nat) : Except Panic CfgBuilder :=
  match st.current with
  | some cur => .error (.abandonsOpenBlock cur)
  | none =>
    match st.blocks[id]? with
    | none => .error (.indexOutOfBounds id)
    | some b =>
      if b.terminator.isSome then .error (.startsSealedBlock id)
      else .ok { st with current := some id }

/-- `seal`: terminate the current block. -/
def sealBlock (st : CfgBuilder) (t : Terminator) : Except Panic CfgBuilder :=
  match st.current with
  | none => .error .sealsNothing
  | some id =>
    match st.blocks[id]? with
    | none => .error (.indexOutOfBounds id)
    | some b =>
      if b.terminator.isSome then .error (.sealsTwice id)
      else .ok { st with
        blocks := st.blocks.set id { b with terminator := some t }
        current := none }

/-- `push_stmt`: append to the current block, if there is one. -/
def pushStmt (st : CfgBuilder) (s : HirStmt) : CfgBuilder :=
  match st.current with
  | some id =>
    { st with blocks := st.blocks.modify id fun b => { b with stmts := b.stmts ++ [s] } }
  | none => st

/-- Append several statements, without lowering them. -/
def pushStmts (st : CfgBuilder) (ss : List HirStmt) : CfgBuilder := ss.foldl pushStmt st

/-- Whether there is a current block. -/
def isOpen (st : CfgBuilder) : Bool := st.current.isSome

/-- Seal the current block if there is one. -/
def sealIfOpen (st : CfgBuilder) (t : Terminator) : Except Panic CfgBuilder :=
  if st.isOpen then st.sealBlock t else .ok st

/-- `any_path_reaches`: some sealed block has this successor. -/
def anyPathReaches (st : CfgBuilder) (target : Nat) : Bool :=
  st.blocks.any fun b => decide (target ∈ b.successors)

/-- Continue at a merge block if some sealed block leads there. -/
def startIfReached (st : CfgBuilder) (merge : Nat) : Except Panic CfgBuilder :=
  if st.anyPathReaches merge then st.startBlock merge else .ok st

/-- Enter a loop whose `EXIT` leads to the given block. -/
def pushLoopExit (st : CfgBuilder) (id : Nat) : CfgBuilder :=
  { st with loopExitStack := id :: st.loopExitStack }

/-- Leave the innermost loop. -/
def popLoopExit (st : CfgBuilder) : CfgBuilder :=
  { st with loopExitStack := st.loopExitStack.tail }

/-- Enter a `TRY` body whose exceptions go to the given block. -/
def pushHandler (st : CfgBuilder) (id : Nat) : CfgBuilder :=
  { st with handlerStack := id :: st.handlerStack }

/-- Leave the innermost `TRY` body. -/
def popHandler (st : CfgBuilder) : CfgBuilder :=
  { st with handlerStack := st.handlerStack.tail }

/-- `finish`: seal what is still open with a plain return and compute predecessors. -/
def finish (st : CfgBuilder) : Except Panic Cfg :=
  Cfg.computePreds
    { blocks := st.blocks.map fun b =>
        if b.terminator.isSome then b else { b with terminator := some (.ret none) }
      entry := 0
      preds := []
      predsValid := false }

end CfgBuilder

/-! ## Synthesized syntax -/

/-- The symbol the builder makes up for a variable name. -/
def localSym (var : String) (ty : TypeId) : SymbolId where
  mangled := var
  sourceName := var
  moduleName := none
  ty := ty
  isVarParam := false
  isOpenArray := false

/-- The place of a variable name. -/
def localPlace (var : String) (ty : TypeId) : Place where
  base := .localVar (localSym var ty)
  projections := []
  ty := ty
  loc := .cfg

/-- The statement `push_assign` appends: `var := value`. -/
def assignVar (var : String) (ty : TypeId) (value : HirExpr) : HirStmt :=
  ⟨.assign (localPlace var ty) value, .cfg⟩

/-- Whether `make_binop` gives the operator the type `BOOLEAN`. -/
def BinaryOp.isComparison : BinaryOp → Bool
  | .eq | .ne | .lt | .le | .gt | .ge => true
  | _ => false

/-- `make_binop`: the expression `var op rhs`. -/
def makeBinop (op : BinaryOp) (var : String) (varTy : TypeId) (rhs : HirExpr) : HirExpr where
  kind := .binaryOp op ⟨.place (localPlace var varTy), varTy, .cfg⟩ rhs
  ty := if op.isComparison then tyBoolean else varTy
  loc := .cfg

/-- The comparison that keeps a `FOR` loop running. -/
def forCmp : ForDirection → BinaryOp
  | .up => .le
  | .down => .ge

/-- The increment of a `FOR` loop: the `BY` expression, or one in the loop's direction. -/
def forStep (varTy : TypeId) (step : Option HirExpr) (direction : ForDirection) : HirExpr :=
  step.getD ⟨.intLit (match direction with | .up => 1 | .down => -1), varTy, .cfg⟩

/-- The condition that stands for "the caught exception is `exc`". -/
def exceptionCond (exc : SymbolId) : HirExpr where
  kind := .place { base := .localVar exc, projections := [], ty := exc.ty, loc := .cfg }
  ty := tyBoolean
  loc := .cfg

/-- A call of a runtime procedure on the mutex. -/
def mutexCall (mangled sourceName : String) (mutex : HirExpr) (loc : SourceLoc) : HirStmt where
  kind := .procCall (.direct ⟨mangled, sourceName, none, tyVoid, false, false⟩) [mutex]
  loc := loc

/-- The call `m2_Mutex_Lock(mutex)`. -/
def lockCall : HirExpr → SourceLoc → HirStmt := mutexCall "m2_Mutex_Lock" "Lock"

/-- The call `m2_Mutex_Unlock(mutex)`. -/
def unlockCall : HirExpr → SourceLoc → HirStmt := mutexCall "m2_Mutex_Unlock" "Unlock"

/-- The switch label of a `CASE` label. -/
def HirCaseLabel.toLabel : HirCaseLabel → CaseLabel
  | .single e => .single e
  | .range lo hi => .range lo hi

/-! ## Lowering constructs -/

/-- `lower_expr_as_branch`: short-circuit lowering of a condition. -/
def lowerExprAsBranch : HirExpr → Nat → Nat → Lowering
  | ⟨.binaryOp .and left right, _, _⟩, onTrue, onFalse, st => do
    -- the right operand is tested in a block of its own
    let st₁ ← lowerExprAsBranch left st.nextId onFalse st.newBlock
    let st₂ ← st₁.startBlock st.nextId
    lowerExprAsBranch right onTrue onFalse st₂
  | ⟨.binaryOp .or left right, _, _⟩, onTrue, onFalse, st => do
    let st₁ ← lowerExprAsBranch left onTrue st.nextId st.newBlock
    let st₂ ← st₁.startBlock st.nextId
    lowerExprAsBranch right onTrue onFalse st₂
  | ⟨.not inner, _, _⟩, onTrue, onFalse, st => lowerExprAsBranch inner onFalse onTrue st
  | e, onTrue, onFalse, st => st.sealBlock (.branch e onTrue onFalse)

/-- Start in block `start` with the statements `before`. -/
def armEntry (start : Nat) (before : List HirStmt) : Lowering := fun st => do
  let st ← st.startBlock start
  return st.pushStmts before

/-- Lower a body that starts in block `start`, after the statements `before`, and
continues at `next` when it completes. -/
def lowerArm (start : Nat) (before : List HirStmt) (body : Lowering) (next : Nat) :
    Lowering := fun st => do
  let st ← armEntry start before st
  let st ← body st
  st.sealIfOpen (.goto next)

/-- Where a failing test of `lower_if` continues: at a block of its own if an `ELSIF`
or `ELSE` follows, else at the merge block. -/
def falseTarget (merge : Nat) (more : Bool) (st : CfgBuilder) : Nat :=
  if more then st.nextId + 1 else merge

/-- One test of `lower_if`, whose body is placed in the first block it allocates. -/
def lowerTest (cond : HirExpr) (merge : Nat) (more : Bool) : Lowering := fun st =>
  lowerExprAsBranch cond st.nextId (falseTarget merge more st)
    (st.newBlocks (if more then 2 else 1))

/-- The `ELSIF` chain of `lower_if`: each test starts in the block its predecessor
falls to. Returns the block the last test falls to. -/
def lowerElsifs (merge : Nat) (hasElse : Bool) :
    List (HirExpr × Lowering) → Nat → CfgBuilder → Except Panic (Nat × CfgBuilder)
  | [], currentFalse, st => .ok (currentFalse, st)
  | (cond, body) :: rest, currentFalse, st => do
    let more := !rest.isEmpty || hasElse
    let st₁ ← st.startBlock currentFalse
    let st₂ ← lowerTest cond merge more st₁
    let st₃ ← lowerArm st₁.nextId [] body merge st₂
    lowerElsifs merge hasElse rest (falseTarget merge more st₁) st₃

/-- The `ELSE` body of `lower_if`, in the block the last test falls to. -/
def lowerElse (merge currentFalse : Nat) (elseBody : Option Lowering) : Lowering := fun st =>
  match elseBody with
  | some body => lowerArm currentFalse [] body merge st
  | none => .ok st

/-- `lower_if`. -/
def lowerIf (cond : HirExpr) (thenBody : Lowering) (elsifs : List (HirExpr × Lowering))
    (elseBody : Option Lowering) : Lowering := fun st => do
  let merge := st.nextId
  let more := !elsifs.isEmpty || elseBody.isSome
  let st₁ := st.newBlock
  let st₂ ← lowerTest cond merge more st₁
  let st₃ ← lowerArm st₁.nextId [] thenBody merge st₂
  let (currentFalse, st₄) ← lowerElsifs merge elseBody.isSome elsifs
    (falseTarget merge more st₁) st₃
  let st₅ ← lowerElse merge currentFalse elseBody st₄
  st₅.startIfReached merge

/-- The header of `lower_while`, up to the start of its body. -/
def whileEntry (cond : HirExpr) : Lowering := fun st => do
  let header := st.nextId
  let bodyBlock := header + 1
  let exitBlock := header + 2
  let st ← (st.newBlocks 3).sealBlock (.goto header)
  let st ← st.startBlock header
  let st ← lowerExprAsBranch cond bodyBlock exitBlock st
  (st.pushLoopExit exitBlock).startBlock bodyBlock

/-- The end of a loop body: jump back if it completes, and continue after the loop. -/
def leaveLoop (back exitBlock : Nat) : Lowering := fun st => do
  let st ← st.sealIfOpen (.goto back)
  st.popLoopExit.startBlock exitBlock

/-- `lower_while`. -/
def lowerWhile (cond : HirExpr) (body : Lowering) : Lowering := fun st => do
  let header := st.nextId
  let exitBlock := header + 2
  let st ← whileEntry cond st
  let st ← body st
  leaveLoop header exitBlock st

/-- The start of `lower_loop` and of `lower_repeat`: a body block and an exit block. -/
def loopEntry : Lowering := fun st => do
  let bodyBlock := st.nextId
  let exitBlock := bodyBlock + 1
  let st ← (st.newBlocks 2).sealBlock (.goto bodyBlock)
  (st.pushLoopExit exitBlock).startBlock bodyBlock

/-- `lower_loop`. -/
def lowerLoop (body : Lowering) : Lowering := fun st => do
  let header := st.nextId
  let exitBlock := header + 1
  let st ← loopEntry st
  let st ← body st
  leaveLoop header exitBlock st

/-- `lower_exit`: jump to the exit of the innermost loop of any kind. -/
def lowerExit : Lowering := fun st =>
  match st.loopExitStack with
  | [] => .error .exitOutsideLoop
  | exitTarget :: _ => st.sealBlock (.goto exitTarget)

/-- The test at the end of a `REPEAT` body, unless the body never completes. -/
def lowerUntil (cond : HirExpr) (exitBlock bodyBlock : Nat) : Lowering := fun st =>
  if st.isOpen then lowerExprAsBranch cond exitBlock bodyBlock st else .ok st

/-- `lower_repeat`. -/
def lowerRepeat (body : Lowering) (cond : HirExpr) : Lowering := fun st => do
  let bodyBlock := st.nextId
  let exitBlock := bodyBlock + 1
  let st ← loopEntry st
  let st ← body st
  let st ← lowerUntil cond exitBlock bodyBlock st
  st.popLoopExit.startBlock exitBlock

/-- The start of `lower_for`: initialization and condition, up to the start of the body. -/
def forEntry (var : String) (varTy : TypeId) (start stop : HirExpr)
    (direction : ForDirection) : Lowering := fun st => do
  let condBlock := st.nextId
  let bodyBlock := condBlock + 1
  let exitBlock := condBlock + 3
  let st := st.pushStmt (assignVar var varTy start)
  let st ← (st.newBlocks 4).sealBlock (.goto condBlock)
  let st ← st.startBlock condBlock
  let st ← st.sealBlock (.branch (makeBinop (forCmp direction) var varTy stop) bodyBlock exitBlock)
  (st.pushLoopExit exitBlock).startBlock bodyBlock

/-- The latch of `lower_for`: step the variable and jump back to the condition. -/
def forLatch (var : String) (varTy : TypeId) (step : Option HirExpr)
    (direction : ForDirection) (latch condBlock : Nat) : Lowering := fun st => do
  let newVal := makeBinop .add var varTy (forStep varTy step direction)
  let st ← armEntry latch [assignVar var varTy newVal] st
  st.sealBlock (.goto condBlock)

/-- `lower_for`. -/
def lowerFor (var : String) (varTy : TypeId) (start stop : HirExpr) (step : Option HirExpr)
    (direction : ForDirection) (body : Lowering) : Lowering := fun st => do
  let condBlock := st.nextId
  let latch := condBlock + 2
  let exitBlock := condBlock + 3
  let st ← forEntry var varTy start stop direction st
  let st ← body st
  let st ← st.sealIfOpen (.goto latch)
  let st ← forLatch var varTy step direction latch condBlock st.popLoopExit
  st.startBlock exitBlock

/-- One arm of a switch: its labels, the statements that open it and its body. -/
structure Arm where
  labels : List CaseLabel
  binding : List HirStmt
  body : Lowering

/-- The bodies of a switch, each continuing at `merge`. -/
def lowerArms (merge : Nat) : List (Nat × Arm) → Lowering
  | [], st => .ok st
  | (block, arm) :: rest, st => do
    let st ← lowerArm block arm.binding arm.body merge st
    lowerArms merge rest st

/-- The blocks of a switch and the terminator that dispatches to its arms. -/
def switchEntry (expr : HirExpr) (arms : List Arm) : Lowering := fun st => do
  let defaultBlock := st.nextId + 1
  let armBlocks := List.range' (st.nextId + 2) arms.length
  (st.newBlocks (2 + arms.length)).sealBlock
    (.switch expr (List.zipWith (fun b arm => ⟨arm.labels, b⟩) armBlocks arms) defaultBlock)

/-- The common shape of `lower_case` and `lower_typecase`. -/
def lowerSwitch (expr : HirExpr) (arms : List Arm) (elseBody : Option Lowering) : Lowering :=
    fun st => do
  let merge := st.nextId
  let defaultBlock := merge + 1
  let armBlocks := List.range' (merge + 2) arms.length
  let st ← switchEntry expr arms st
  let st ← lowerArms merge (armBlocks.zip arms) st
  let st ← lowerArm defaultBlock [] (elseBody.getD .ok) merge st
  st.startIfReached merge

/-- The exception tests of `lower_try`. A catch-all seals the block the next test
would be placed in. -/
def lowerDispatch (reraiseBlock : Nat) : List (Nat × Option SymbolId) → Lowering
  | [], st => .ok st
  | (handler, none) :: rest, st => do
    let st ← st.sealBlock (.goto handler)
    lowerDispatch reraiseBlock rest st
  | (handler, some exc) :: rest, st =>
    if rest.isEmpty then do
      let st ← st.sealBlock (.branch (exceptionCond exc) handler reraiseBlock)
      lowerDispatch reraiseBlock rest st
    else do
      let nextCheck := st.nextId
      let st ← st.newBlockNoHandler.sealBlock (.branch (exceptionCond exc) handler nextCheck)
      let st ← st.startBlock nextCheck
      lowerDispatch reraiseBlock rest st

/-- One `EXCEPT` clause with its lowered body. -/
structure Clause where
  exception : Option SymbolId
  body : Lowering

/-- A re-raise that first runs the `FINALLY` statements. -/
def lowerReraise (block : Nat) (finallyBody : Option (List HirStmt)) : Lowering := fun st => do
  let st ← armEntry block (finallyBody.getD []) st
  st.sealBlock (.raise none)

/-- The dispatch of `lower_try`: the re-raise block, the handler blocks and the tests. -/
def catchEntry (catchBlock : Nat) (exceptions : List (Option SymbolId)) : Lowering :=
    fun st => do
  let reraiseBlock := st.nextId
  let handlerBlocks := List.range' (reraiseBlock + 1) exceptions.length
  let st ← st.startBlock catchBlock
  lowerDispatch reraiseBlock (handlerBlocks.zip exceptions)
    (st.newBlocksNoHandler (1 + exceptions.length))

/-- The catch side of `lower_try`: dispatch, handler bodies and re-raise. -/
def lowerCatch (catchBlock finallyNormal : Nat) (clauses : List Clause)
    (finallyBody : Option (List HirStmt)) : Lowering := fun st => do
  if clauses.isEmpty then
    lowerReraise catchBlock finallyBody st
  else
    let reraiseBlock := st.nextId
    let handlerBlocks := List.range' (reraiseBlock + 1) clauses.length
    let st ← catchEntry catchBlock (clauses.map Clause.exception) st
    let st ← lowerArms finallyNormal
      (handlerBlocks.zip (clauses.map fun c => ⟨[], [], c.body⟩)) st
    lowerReraise reraiseBlock finallyBody st

/-- The `FINALLY` copy on the normal path. -/
def lowerFinally (finallyNormal merge : Nat) (finallyBody : Option (List HirStmt)) :
    Lowering := fun st =>
  match finallyBody with
  | none => .ok st
  | some ss => lowerArm finallyNormal ss .ok merge st

/-- The block that the normal path of a `TRY` continues at: the `FINALLY` copy if
there is one. -/
def finallyTarget (merge : Nat) (hasFinally : Bool) : Nat :=
  if hasFinally then merge + 2 else merge

/-- The start of `lower_try`: its merge, catch and `FINALLY` blocks, up to the start of
the body, in a region handled by the catch block. -/
def tryEntry (hasFinally : Bool) : Lowering := fun st => do
  let catchBlock := st.nextId + 1
  let st := st.newBlock.newBlockNoHandler
  let st := (if hasFinally then st.newBlock else st).pushHandler catchBlock
  let tryBody := st.nextId
  let st ← st.newBlock.sealIfOpen (.goto tryBody)
  st.startBlock tryBody

/-- `lower_try`. -/
def lowerTry (body : Lowering) (clauses : List Clause) (finallyBody : Option (List HirStmt)) :
    Lowering := fun st => do
  let merge := st.nextId
  let catchBlock := merge + 1
  let finallyNormal := finallyTarget merge finallyBody.isSome
  let st ← tryEntry finallyBody.isSome st
  let st ← body st
  let st ← st.popHandler.sealIfOpen (.goto finallyNormal)
  let st ← lowerCatch catchBlock finallyNormal clauses finallyBody st
  let st ← lowerFinally finallyNormal merge finallyBody st
  st.startIfReached merge

/-- `LOCK`: acquire, body, and a release if the body leaves the builder open. -/
def lowerLock (mutex : HirExpr) (loc : SourceLoc) (body : Lowering) : Lowering := fun st => do
  let st ← body (st.pushStmt (lockCall mutex loc))
  return if st.isOpen then st.pushStmt (unlockCall mutex loc) else st

/-- `lower_case`. -/
def lowerCase (expr : HirExpr) (branches : List (List HirCaseLabel × Lowering))
    (elseBody : Option Lowering) : Lowering :=
  lowerSwitch expr
    (branches.map fun b => ⟨b.1.map HirCaseLabel.toLabel, [], b.2⟩) elseBody

/-- The binding statement that opens a `TYPECASE` arm. -/
def typeBinding (expr : HirExpr) (var : Option String) : List HirStmt :=
  match var with
  | none => []
  | some name => [assignVar name tyAddress expr]

/-- `lower_typecase`. -/
def lowerTypecase (expr : HirExpr) (branches : List (List SymbolId × Option String × Lowering))
    (elseBody : Option Lowering) : Lowering :=
  lowerSwitch expr
    (branches.map fun b =>
      ⟨b.1.map fun sym => .type sym b.2.1, typeBinding expr b.2.1, b.2.2⟩) elseBody

mutual

/-- `lower_stmts`. -/
def lowerStmts : List HirStmt → Lowering
  | [], st => .ok st
  | s :: ss, st => do
    let st ← lowerStmt s st
    lowerStmts ss st

/-- `lower_stmt`: nothing is lowered once the builder is closed. -/
def lowerStmt : HirStmt → Lowering
  | ⟨kind, loc⟩, st => if st.isOpen then lowerKind kind loc st else .ok st

/-- `lower_stmt` in an open builder, by the form of the statement. -/
def lowerKind : HirStmtKind → SourceLoc → Lowering
  | .empty, _ => .ok
  | .assign target value, loc => fun st => .ok (st.pushStmt ⟨.assign target value, loc⟩)
  | .procCall target args, loc => fun st => .ok (st.pushStmt ⟨.procCall target args, loc⟩)
  | .ifStmt cond thenBody elsifs elseBody, _ =>
    lowerIf cond (lowerStmts thenBody) (elsifLowerings elsifs) (optLowering elseBody)
  | .whileStmt cond body, _ => lowerWhile cond (lowerStmts body)
  | .loop body, _ => lowerLoop (lowerStmts body)
  | .exit, _ => lowerExit
  | .repeatStmt body cond, _ => lowerRepeat (lowerStmts body) cond
  | .forStmt var varTy start stop step direction body, _ =>
    lowerFor var varTy start stop step direction (lowerStmts body)
  | .caseStmt expr branches elseBody, _ =>
    lowerCase expr (branchLowerings branches) (optLowering elseBody)
  | .typeCase expr branches elseBody, _ =>
    lowerTypecase expr (typeBranchLowerings branches) (optLowering elseBody)
  | .tryStmt body excepts finallyBody, _ =>
    lowerTry (lowerStmts body) (clauseLowerings excepts) finallyBody
  | .raise expr, _ => fun st => st.sealBlock (.raise expr)
  | .retry, loc => fun st => .ok (st.pushStmt ⟨.retry, loc⟩)
  | .lock mutex body, loc => lowerLock mutex loc (lowerStmts body)
  | .ret expr, _ => fun st => st.sealBlock (.ret expr)

/-- The lowerings of `ELSIF` bodies. -/
def elsifLowerings : List (HirExpr × List HirStmt) → List (HirExpr × Lowering)
  | [] => []
  | (cond, body) :: rest => (cond, lowerStmts body) :: elsifLowerings rest

/-- The lowering of an optional body. -/
def optLowering : Option (List HirStmt) → Option Lowering
  | none => none
  | some body => some (lowerStmts body)

/-- The lowerings of `CASE` branches. -/
def branchLowerings : List HirCaseBranch → List (List HirCaseLabel × Lowering)
  | [] => []
  | ⟨labels, body⟩ :: rest => (labels, lowerStmts body) :: branchLowerings rest

/-- The lowerings of `TYPECASE` branches. -/
def typeBranchLowerings :
    List HirTypeCaseBranch → List (List SymbolId × Option String × Lowering)
  | [] => []
  | ⟨types, var, body⟩ :: rest => (types, var, lowerStmts body) :: typeBranchLowerings rest

/-- The lowerings of `EXCEPT` clauses. -/
def clauseLowerings : List HirExceptClause → List Clause
  | [] => []
  | ⟨exception, _, body⟩ :: rest => ⟨exception, lowerStmts body⟩ :: clauseLowerings rest

end

/-- `build_cfg`: lower a body, close the graph and verify it. -/
def buildCfg (body : List HirStmt) : Except Panic Cfg := do
  let builder ← lowerStmts body CfgBuilder.new
  let cfg ← builder.finish
  cfg.verify
  return cfg

end Mx

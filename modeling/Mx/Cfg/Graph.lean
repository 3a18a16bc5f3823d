import Mx.Hir.Syntax

/-!
# Control-flow graphs and their verifier

Basic blocks, terminators and the graph invariants of `cfg/mod.rs`. A block id
is the position of the block in the graph. The verifier keeps the order of its
assertions; a failed assertion is a panic that names the violated rule.
-/

namespace Mx

/-- A label of a switch arm. -/
inductive CaseLabel where
  | single (e : HirExpr)
  | range (lo hi : HirExpr)
  | type (sym : SymbolId) (binding : Option String)

/-- One arm of a switch. -/
structure SwitchArm where
  labels : List CaseLabel
  target : Nat

/-- How a block exits. -/
inductive Terminator where
  | goto (target : Nat)
  | branch (cond : HirExpr) (onTrue onFalse : Nat)
  | switch (expr : HirExpr) (arms : List SwitchArm) (default : Nat)
  | ret (expr : Option HirExpr)
  | raise (expr : Option HirExpr)

namespace Terminator

/-- The blocks a terminator can transfer control to. -/
def successors : Terminator → List Nat
  | .goto b => [b]
  | .branch _ onTrue onFalse => [onTrue, onFalse]
  | .switch _ arms default => arms.map SwitchArm.target ++ [default]
  | .ret _ => []
  | .raise _ => []

/-- Rewrite every target through a mapping. -/
def mapTargets (f : Nat → Nat) : Terminator → Terminator
  | .goto t => .goto (f t)
  | .branch c onTrue onFalse => .branch c (f onTrue) (f onFalse)
  | .switch e arms default =>
    .switch e (arms.map fun arm => { arm with target := f arm.target }) (f default)
  | .ret e => .ret e
  | .raise e => .raise e

/-- Replace the target `old` by `new` wherever it occurs. -/
def replaceTarget (old new : Nat) (t : Terminator) : Terminator :=
  t.mapTargets fun b => if b = old then new else b

@[simp] theorem successors_mapTargets (f : Nat → Nat) (t : Terminator) :
    (t.mapTargets f).successors = t.successors.map f := by
  cases t <;> simp [mapTargets, successors]

end Terminator

/-- A basic block; `terminator = none` while it is under construction, and
`handler` is the block that receives an exception raised here. -/
structure BasicBlock where
  id : Nat
  stmts : List HirStmt
  terminator : Option Terminator
  handler : Option Nat

/-- Successors of a block, none while it is open. -/
def BasicBlock.successors (b : BasicBlock) : List Nat :=
  (b.terminator.map Terminator.successors).getD []

/-- The assertions of the graph verifier. -/
inductive VerifyRule where
  | s1 | s2 | s3 | s4 | t1 | t3 | t5 | h1 | h2 | h3 | predsLength | p1 | p2 | p3
  deriving DecidableEq, Repr

/-- The ways CFG construction and verification can panic. -/
inductive Panic where
  /-- `start_block: abandoning open block` -/
  | abandonsOpenBlock (id : Nat)
  /-- `start_block: block is already sealed` -/
  | startsSealedBlock (id : Nat)
  /-- `seal: no current block` -/
  | sealsNothing
  /-- `seal: block already has a terminator` -/
  | sealsTwice (id : Nat)
  /-- `EXIT outside LOOP (sema should have caught this)` -/
  | exitOutsideLoop
  /-- A vector index out of bounds. -/
  | indexOutOfBounds (id : Nat)
  /-- `unwrap` of the terminator of an open block. -/
  | unwrapsOpenBlock (id : Nat)
  /-- `compute_preds() must be called before dataflow` -/
  | predsNotComputed
  /-- A failed verifier assertion. -/
  | verify (rule : VerifyRule)
  deriving DecidableEq, Repr

/-- How a computation that may loop ends without a result. -/
inductive Stop where
  | panic (p : Panic)
  | outOfFuel
  deriving DecidableEq, Repr

/-- Run a step that can only panic. -/
def orPanic {α : Type} : Except Panic α → Except Stop α
  | .ok a => .ok a
  | .error p => .error (.panic p)

/-- A complete graph. Predecessor lists are current only when `predsValid`. -/
structure Cfg where
  blocks : List BasicBlock
  entry : Nat
  preds : List (List Nat)
  predsValid : Bool

/-- Record `p` as a predecessor of `s`, once. -/
def addPred (p : Nat) (preds : List (List Nat)) (s : Nat) :
    Except Panic (List (List Nat)) :=
  match preds[s]? with
  | none => .error (.indexOutOfBounds s)
  | some ps => .ok (if p ∈ ps then preds else preds.set s (ps ++ [p]))

/-- Materialize the predecessor lists from the terminators. -/
def Cfg.computePreds (cfg : Cfg) : Except Panic Cfg := do
  let preds ← cfg.blocks.foldlM
    (fun preds b => b.successors.foldlM (addPred b.id) preds)
    (List.replicate cfg.blocks.length [])
  return { cfg with preds := preds, predsValid := true }

/-- Assert one verifier rule. -/
def assertRule (rule : VerifyRule) (holds : Bool) : Except Panic Unit :=
  if holds then .ok () else .error (.verify rule)

/-- Run an assertion over a list, in order. -/
def assertEach {α : Type} (f : α → Except Panic Unit) : List α → Except Panic Unit
  | [] => .ok ()
  | a :: as => do
    f a
    assertEach f as

/-- Rules T3 and T5: a switch has an arm and every arm has a label. -/
def assertSwitch (b : BasicBlock) : Except Panic Unit :=
  match b.terminator with
  | some (.switch _ arms _) => do
    assertRule .t3 (!arms.isEmpty)
    assertEach (fun arm => assertRule .t5 (!arm.labels.isEmpty)) arms
  | _ => .ok ()

/-- Rules H1 and H2: a handler exists and is another block. -/
def assertHandler (n : Nat) (b : BasicBlock) : Except Panic Unit :=
  match b.handler with
  | some h => do
    assertRule .h1 (decide (h < n))
    assertRule .h2 (decide (h ≠ b.id))
  | none => .ok ()

/-- Rule H3 for one block: follow the handlers until none is left, failing on a
repeated one. A chain that never repeats is shorter than the block list, so the
bound is not reached. -/
def assertHandlerChain (blocks : List BasicBlock) :
    Nat → List Nat → Option Nat → Except Panic Unit
  | _, _, none => .ok ()
  | 0, _, some _ => .error (.verify .h3)
  | fuel + 1, visited, some h =>
    if h ∈ visited then .error (.verify .h3)
    else match blocks[h]? with
      | none => .error (.indexOutOfBounds h)
      | some b => assertHandlerChain blocks fuel (h :: visited) b.handler

/-- Rule P1 for one block: every successor lists it as a predecessor. -/
def assertSuccs (preds : List (List Nat)) (b : BasicBlock) : Except Panic Unit :=
  assertEach (fun s => match preds[s]? with
    | none => .error (.indexOutOfBounds s)
    | some ps => assertRule .p1 (decide (b.id ∈ ps))) b.successors

/-- Rule P2 for one predecessor list: every listed block has this successor. -/
def assertPreds (blocks : List BasicBlock) (entry : List Nat × Nat) :
    Except Panic Unit :=
  assertEach (fun p => match blocks[p]? with
    | none => .error (.indexOutOfBounds p)
    | some b => assertRule .p2 (decide (entry.2 ∈ b.successors))) entry.1

/-- Rule P3: nothing jumps to the entry. -/
def assertEntryPreds (cfg : Cfg) : Except Panic Unit :=
  match cfg.preds[cfg.entry]? with
  | none => .error (.indexOutOfBounds cfg.entry)
  | some ps => assertRule .p3 ps.isEmpty

/-- The rules on predecessor lists. -/
def Cfg.verifyPreds (cfg : Cfg) : Except Panic Unit := do
  assertRule .predsLength (decide (cfg.preds.length = cfg.blocks.length))
  assertEntryPreds cfg
  assertEach (assertSuccs cfg.preds) cfg.blocks
  assertEach (assertPreds cfg.blocks) cfg.preds.zipIdx

/-- The graph verifier. -/
def Cfg.verify (cfg : Cfg) : Except Panic Unit := do
  let n := cfg.blocks.length
  assertRule .s1 (decide (cfg.entry = 0))
  assertRule .s2 (decide (1 ≤ n))
  assertEach (fun e => assertRule .s3 (decide (e.1.id = e.2))) cfg.blocks.zipIdx
  assertEach (fun b => assertRule .s4 b.terminator.isSome) cfg.blocks
  assertEach (fun b => assertEach (fun s => assertRule .t1 (decide (s < n))) b.successors)
    cfg.blocks
  assertEach assertSwitch cfg.blocks
  assertEach (assertHandler n) cfg.blocks
  assertEach (fun b => assertHandlerChain cfg.blocks (n + 1) [] b.handler) cfg.blocks
  if cfg.predsValid then cfg.verifyPreds else .ok ()

end Mx

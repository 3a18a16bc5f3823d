import Mx.Cfg.Graph
import Mx.Core.Machine

/-!
# Executing a graph

The machine of a list of blocks: the statements of a block in order, then its
terminator. Statements and expressions are interpreted by an arbitrary `Interp`, may
change the store and may raise; an exception continues at the handler of the block
it is raised in, or leaves the procedure.
-/

namespace Mx

open Mx.Core

/-- What a run shows: the leaf statements it executes, the expressions it evaluates and
the exceptions it raises by a statement. -/
inductive Event where
  | stmt (s : HirStmt)
  | eval (e : HirExpr)
  | raise (e : Option HirExpr)

/-- An interpretation of leaf statements and expressions over stores `σ` and values `V`.
An `error` result is an exception together with the store it is raised in. -/
structure Interp (σ V : Type) where
  exec : HirStmt → σ → Except σ σ
  eval : HirExpr → σ → Except σ (V × σ)
  raise : Option HirExpr → σ → σ
  truth : V → Bool
  matchLabel : CaseLabel → V → σ → Bool

/-- How a procedure ends. `stuck` is a jump to a missing block or an open block. -/
inductive Result (σ V : Type) where
  | returned (v : Option V) (s : σ)
  | raised (s : σ)
  | stuck

/-- A point of a graph and the store there. -/
structure Config (σ : Type) where
  block : Nat
  pos : Nat
  store : σ

section Machine

variable {σ V : Type} (I : Interp σ V)

/-- The target of a switch: the first arm with a matching label. -/
def switchTarget (arms : List SwitchArm) (default : Nat) (v : V) (s : σ) : Nat :=
  match arms.find? fun arm => arm.labels.any fun l => I.matchLabel l v s with
  | some arm => arm.target
  | none => default

/-- Continue at the start of a block. -/
def enter (block : Nat) (s : σ) : Config σ ⊕ Result σ V := .inl ⟨block, 0, s⟩

/-- Where an exception raised in a block with this handler goes. -/
def raiseTo (handler : Option Nat) (s : σ) : Config σ ⊕ Result σ V :=
  match handler with
  | some h => .inl ⟨h, 0, s⟩
  | none => .inr (.raised s)

/-- Evaluate an expression in a block and continue with its value. -/
def evalIn (handler : Option Nat) (e : HirExpr) (s : σ)
    (k : V → σ → Config σ ⊕ Result σ V) : List Event × (Config σ ⊕ Result σ V) :=
  match I.eval e s with
  | .ok (v, s') => ([.eval e], k v s')
  | .error s' => ([.eval e], raiseTo handler s')

/-- The step of a terminator. -/
def stepTerminator (handler : Option Nat) (s : σ) :
    Terminator → List Event × (Config σ ⊕ Result σ V)
  | .goto t => ([], enter t s)
  | .branch c onTrue onFalse =>
    evalIn I handler c s fun v s' => enter (if I.truth v then onTrue else onFalse) s'
  | .switch e arms default =>
    evalIn I handler e s fun v s' => enter (switchTarget I arms default v s') s'
  | .ret none => ([], .inr (.returned none s))
  | .ret (some e) => evalIn I handler e s fun v s' => .inr (.returned (some v) s')
  | .raise e => ([.raise e], raiseTo handler (I.raise e s))

/-- The step of a statement at position `pos` of a block. -/
def stepStmt (b : BasicBlock) (c : Config σ) (stmt : HirStmt) :
    List Event × (Config σ ⊕ Result σ V) :=
  match I.exec stmt c.store with
  | .ok s' => ([.stmt stmt], .inl ⟨c.block, c.pos + 1, s'⟩)
  | .error s' => ([.stmt stmt], raiseTo b.handler s')

/-- One step of a graph: the next statement of the block, or its terminator. -/
def stepBlocks (blocks : List BasicBlock) (c : Config σ) :
    List Event × (Config σ ⊕ Result σ V) :=
  match blocks[c.block]? with
  | none => ([], .inr .stuck)
  | some b =>
    match b.stmts[c.pos]?, b.terminator with
    | some stmt, _ => stepStmt I b c stmt
    | none, some t => stepTerminator I b.handler c.store t
    | none, none => ([], .inr .stuck)

/-- The machine that executes the blocks of a graph. -/
def machine (blocks : List BasicBlock) : Machine (Config σ) Event (Result σ V) where
  step := stepBlocks I blocks

end Machine

end Mx

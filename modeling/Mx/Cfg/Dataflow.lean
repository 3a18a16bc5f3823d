import Mx.Cfg.Graph

/-!
# Forward dataflow

The worklist solver of `cfg/dataflow.rs`, generic in the analysis. A visit takes the
first block of the worklist, joins the outputs of its predecessors and applies the
transfer function; only a changed output is stored, together with the input it was
computed from. Block ids are in range in a graph with valid predecessor lists.
-/

namespace Mx

/-- A forward analysis over states `S`. -/
structure ForwardAnalysis (S : Type) where
  entryState : S
  bottom : S
  join : S → S → S
  transfer : Cfg → Nat → S → S

/-- The states at the entry and at the exit of every block. -/
structure DataflowResult (S : Type) where
  blockIn : List S
  blockOut : List S

/-- The state of the solver: the result so far and the blocks to visit. -/
structure Solver (S : Type) where
  blockIn : List S
  blockOut : List S
  worklist : List Nat

/-- Append the blocks that are not queued yet. -/
def enqueue (worklist succs : List Nat) : List Nat :=
  succs.foldl (fun w s => if s ∈ w then w else w ++ [s]) worklist

/-- Successors of a block of the graph. -/
def Cfg.successors (cfg : Cfg) (b : Nat) : List Nat :=
  match cfg.blocks[b]? with
  | some block => block.successors
  | none => []

namespace ForwardAnalysis

variable {S : Type} [DecidableEq S] (A : ForwardAnalysis S) (cfg : Cfg)

/-- The join of the outputs of the predecessors of a block, in the order they are listed. -/
def joinPreds (out : List S) (b : Nat) : S :=
  match cfg.preds.getD b [] with
  | [] => A.entryState
  | p :: ps => ps.foldl (fun joined q => A.join joined (out.getD q A.bottom)) (out.getD p A.bottom)

/-- The solver before the first visit. -/
def start : Solver S where
  blockIn := (List.replicate cfg.blocks.length A.bottom).set cfg.entry A.entryState
  blockOut := (List.replicate cfg.blocks.length A.bottom).set cfg.entry
    (A.transfer cfg cfg.entry A.entryState)
  worklist := enqueue [] (cfg.successors cfg.entry)

/-- One round of the worklist loop; nothing happens when the worklist is empty. -/
def visit (w : Solver S) : Solver S :=
  match w.worklist with
  | [] => w
  | b :: rest =>
    let newIn := A.joinPreds cfg w.blockOut b
    let newOut := A.transfer cfg b newIn
    if newOut = w.blockOut.getD b A.bottom then { w with worklist := rest }
    else
      { blockIn := w.blockIn.set b newIn
        blockOut := w.blockOut.set b newOut
        worklist := enqueue rest (cfg.successors b) }

/-- The worklist loop, for a bounded number of rounds. -/
def solve : Nat → Solver S → Except Stop (DataflowResult S)
  | fuel, w =>
    match w.worklist, fuel with
    | [], _ => .ok ⟨w.blockIn, w.blockOut⟩
    | _ :: _, 0 => .error .outOfFuel
    | _ :: _, fuel + 1 => solve fuel (A.visit cfg w)

/-- `solve_forward`. -/
def solveForward (fuel : Nat) : Except Stop (DataflowResult S) :=
  if cfg.predsValid then A.solve cfg fuel (A.start cfg)
  else .error (.panic .predsNotComputed)

end ForwardAnalysis

end Mx

import Mx.Cfg.Graph

/-!
# Graph cleanup

`Cfg::cleanup` of `cfg/mod.rs`: unreachable blocks are removed and the others are
renumbered, then trivial gotos are collapsed until a pass changes nothing. Both loops
of the source run for as long as they need; here they have a bound on their rounds, and
`outOfFuel` says that the bound was too small.
-/

namespace Mx

namespace Cfg

/-- The search of `remove_unreachable`; the queue is a stack with its top first. -/
def markReachable (blocks : List BasicBlock) :
    Nat → List Bool → List Nat → Except Stop (List Bool)
  | _, reachable, [] => .ok reachable
  | 0, _, _ :: _ => .error .outOfFuel
  | fuel + 1, reachable, b :: queue =>
    match reachable[b]?, blocks[b]? with
    | some true, _ => markReachable blocks fuel reachable queue
    | some false, some block =>
      match block.terminator with
      | none => .error (.panic (.unwrapsOpenBlock b))
      | some t =>
        markReachable blocks fuel (reachable.set b true)
          (block.handler.toList ++ t.successors.reverse ++ queue)
    | _, _ => .error (.panic (.indexOutOfBounds b))

/-- The map from old to new ids: reachable blocks are numbered in order, and a dead
block is sent to 0. -/
def newIds : List Bool → Nat → List Nat
  | [], _ => []
  | true :: rest, next => next :: newIds rest (next + 1)
  | false :: rest, next => 0 :: newIds rest next

/-- Rewrite the references of a block through the map. An id, target or handler outside
the map is an index out of bounds. -/
def remapBlock (newId : List Nat) (b : BasicBlock) : Except Panic BasicBlock :=
  match (b.id :: b.successors ++ b.handler.toList).find? fun t => decide (newId.length ≤ t) with
  | some t => .error (.indexOutOfBounds t)
  | none => .ok { b with
      terminator := b.terminator.map (Terminator.mapTargets fun t => newId.getD t 0)
      handler := b.handler.map fun h => newId.getD h 0 }

/-- Drop the dead blocks and number the others by their position. -/
def retainReachable (reachable : List Bool) (blocks : List BasicBlock) : List BasicBlock :=
  (blocks.filter fun b => reachable.getD b.id false).mapIdx fun i b => { b with id := i }

/-- `remove_unreachable`. -/
def removeUnreachable (fuel : Nat) (cfg : Cfg) : Except Stop Cfg := do
  let reachable ← markReachable cfg.blocks fuel (List.replicate cfg.blocks.length false) [cfg.entry]
  let blocks ← orPanic (cfg.blocks.mapM (remapBlock (newIds reachable 0)))
  return { cfg with
    blocks := retainReachable reachable blocks
    entry := 0
    predsValid := false }

/-- The target of block `i` if `collapse_trivial_gotos` collapses it: it is neither the
entry nor a handler nor a merge point, and holds nothing but a jump to another block. -/
def trivialGoto (entry : Nat) (preds : List (List Nat)) (handlerTargets : List Nat)
    (blocks : List BasicBlock) (i : Nat) : Option Nat :=
  if i = entry then none
  else if i ∈ handlerTargets then none
  else if 1 < (preds.getD i []).length then none
  else match blocks[i]? with
    | some ⟨_, [], some (.goto t), none⟩ => if t = i then none else some t
    | _ => none

/-- Rewrite the references to `i` in one block. -/
def redirect (i target : Nat) (b : BasicBlock) : BasicBlock :=
  { b with
    terminator := b.terminator.map (Terminator.replaceTarget i target)
    handler := if b.handler = some i then some target else b.handler }

/-- One iteration of the `for` loop of `collapse_trivial_gotos`. -/
def collapseBlock (entry : Nat) (preds : List (List Nat)) (handlerTargets : List Nat)
    (acc : List BasicBlock × Bool) (i : Nat) : List BasicBlock × Bool :=
  match trivialGoto entry preds handlerTargets acc.1 i with
  | some target => (acc.1.map (redirect i target), true)
  | none => acc

/-- One pass over all blocks, and whether it changed anything. -/
def collapsePass (entry : Nat) (preds : List (List Nat)) (handlerTargets : List Nat)
    (blocks : List BasicBlock) : List BasicBlock × Bool :=
  (List.range blocks.length).foldl (collapseBlock entry preds handlerTargets) (blocks, false)

/-- The passes of `collapse_trivial_gotos`, until one changes nothing. Predecessors and
handler targets are those from before the first pass. -/
def collapseLoop (entry : Nat) (preds : List (List Nat)) (handlerTargets : List Nat) :
    Nat → List BasicBlock → Except Stop (List BasicBlock)
  | 0, _ => .error .outOfFuel
  | fuel + 1, blocks =>
    match collapsePass entry preds handlerTargets blocks with
    | (blocks', true) => collapseLoop entry preds handlerTargets fuel blocks'
    | (blocks', false) => .ok blocks'

/-- `collapse_trivial_gotos`. -/
def collapseTrivialGotos (fuel : Nat) (cfg : Cfg) : Except Stop Cfg := do
  let blocks ← collapseLoop cfg.entry cfg.preds (cfg.blocks.filterMap BasicBlock.handler) fuel
    cfg.blocks
  return { cfg with blocks := blocks, predsValid := false }

/-- `cleanup`, with both loops bounded by `fuel` rounds. -/
def cleanup (fuel : Nat) (cfg : Cfg) : Except Stop Cfg := do
  let cfg ← removeUnreachable fuel cfg
  let cfg ← orPanic cfg.computePreds
  let cfg ← collapseTrivialGotos fuel cfg
  orPanic cfg.computePreds

end Cfg

end Mx

import Mx.Cfg.Graph
import Mx.Cfg.Sites

/-!
# Paths through a graph

Control seen without a store: any statement may raise, and any terminator that evaluates an
expression; a branch may go either way. A point is a block with the number of its statements that
have completed, so a path knows which statements of the last block it executed before it left it.
-/

namespace Mx

/-- A block and the number of its statements that have completed. -/
structure Point where
  block : Nat
  pos : Nat
  deriving DecidableEq

/-- Whether executing a terminator can raise: a plain jump or return cannot. -/
def Terminator.mayRaise : Terminator → Bool
  | .goto _ => false
  | .branch _ _ _ => true
  | .switch _ _ _ => true
  | .ret e => e.isSome
  | .raise _ => true

/-- Whether the statement or terminator after `k` statements of the block can raise. -/
def BasicBlock.mayRaise (block : BasicBlock) (k : Nat) : Bool :=
  decide (k < block.stmts.length) ||
    (decide (k = block.stmts.length) && block.terminator.any Terminator.mayRaise)

/-- What control does at a point. -/
inductive Move where
  | stmt (s : HirStmt)
  | jump (t : Terminator)
  | ret (e : Option HirExpr)
  | raise

/-- One move, and the point after it unless control leaves the procedure. An exception goes
to the handler of the block. -/
inductive Moves (blocks : List BasicBlock) : Point → Move → Option Point → Prop where
  | stmt {b k block s} (hb : blocks[b]? = some block) (hs : block.stmts[k]? = some s) :
    Moves blocks ⟨b, k⟩ (.stmt s) (some ⟨b, k + 1⟩)
  | jump {b k block t target} (hb : blocks[b]? = some block) (hk : k = block.stmts.length)
    (ht : block.terminator = some t) (hs : target ∈ t.successors) :
    Moves blocks ⟨b, k⟩ (.jump t) (some ⟨target, 0⟩)
  | ret {b k block e} (hb : blocks[b]? = some block) (hk : k = block.stmts.length)
    (ht : block.terminator = some (.ret e)) : Moves blocks ⟨b, k⟩ (.ret e) none
  | raise {b k block} (hb : blocks[b]? = some block) (hk : block.mayRaise k = true) :
    Moves blocks ⟨b, k⟩ .raise (block.handler.map fun h => ⟨h, 0⟩)

/-- The moves from one point to another. -/
inductive Path (blocks : List BasicBlock) (p : Point) : List (Point × Move) → Point → Prop where
  | refl : Path blocks p [] p
  | tail {ms q m r} (h : Path blocks p ms q) (hm : Moves blocks q m (some r)) :
    Path blocks p (ms ++ [(q, m)]) r

end Mx

/-!
# The points of a statement

A statement that takes the builder from `st` to `st'` owns the rest of the block it
starts in and the blocks it allocates, up to where the block it ends in is filled. A path
leaves the statement with its first move to a point outside, or out of the procedure.
-/

namespace Mx

namespace CfgBuilder

/-- The number of statements a block holds so far. -/
def fill (st : CfgBuilder) (b : Nat) : Nat :=
  match st.blocks[b]? with
  | some block => block.stmts.length
  | none => 0

theorem fill_eq {st : CfgBuilder} {b : Nat} {block : BasicBlock}
    (hb : st.blocks[b]? = some block) : st.fill b = block.stmts.length := by
  rw [fill, hb]

theorem fill_pushStmt {st : CfgBuilder} (hinv : st.Inv) {b : Nat} (hb : st.current = some b)
    (s : HirStmt) : (st.pushStmt s).fill b = st.fill b + 1 := by
  obtain ⟨block, hblock, _⟩ := hinv.current b hb
  rw [fill_eq (pushStmt_getElem?_current hb hblock), fill_eq hblock, List.length_append,
    List.length_singleton]

/-- An appended statement stays where it was put. -/
theorem pushStmt_stays {st : CfgBuilder} (hinv : st.Inv) {b : Nat} (hb : st.current = some b)
    {s : HirStmt} {G : List BasicBlock} (hG : Grows (st.pushStmt s).blocks G) :
    ∃ block, G[b]? = some block ∧ block.stmts[st.fill b]? = some s := by
  obtain ⟨block, hblock, _⟩ := hinv.current b hb
  obtain ⟨block', hb', hg⟩ := hG b _ (pushStmt_getElem?_current hb hblock)
  refine ⟨block', hb', ?_⟩
  have hget : (block.stmts ++ [s])[block.stmts.length]? = some s := by simp
  rw [fill_eq hblock]
  obtain ⟨rest, he⟩ := hg.stmts
  rw [← he, List.getElem?_append_left (by simp)]
  exact hget

end CfgBuilder

/-- The points of the code that takes the builder from `st` to `st'`. -/
def Inside (st st' : CfgBuilder) (p : Point) : Prop :=
  (st.current = some p.block ∧ st.fill p.block ≤ p.pos ∨
      st.nextId ≤ p.block ∧ p.block < st'.nextId) ∧
    (st'.current = some p.block → p.pos < st'.fill p.block)

/-- The path stays inside until its last move, which leads outside or ends the procedure. -/
structure Leaves (blocks : List BasicBlock) (inside : Point → Prop) (p : Point)
    (ms : List (Point × Move)) (q : Point) (m : Move) : Prop where
  path : Path blocks p ms q
  moves : ∀ x ∈ ms, inside x.1
  last : inside q
  leaves : ∃ r, Moves blocks q m r ∧ ∀ r', r = some r' → ¬ inside r'

variable {st st' : CfgBuilder} {blocks : List BasicBlock} {p q : Point}
  {ms : List (Point × Move)} {m : Move}

/-- A statement moves on in its block. -/
theorem Moves.stmt_target {s : HirStmt} {r : Option Point} (h : Moves blocks p (.stmt s) r) :
    r = some ⟨p.block, p.pos + 1⟩ := by
  cases h
  rfl

/-- The only point inside that a statement leads out of is the last one of the code. -/
theorem Inside.last_of_stmt (h : Inside st st' p) (hnext : ¬ Inside st st' ⟨p.block, p.pos + 1⟩) :
    st'.current = some p.block ∧ p.pos + 1 = st'.fill p.block := by
  obtain ⟨hin, hout⟩ := h
  have hin' : st.current = some p.block ∧ st.fill p.block ≤ p.pos + 1 ∨
      st.nextId ≤ p.block ∧ p.block < st'.nextId := by
    rcases hin with ⟨hc, hf⟩ | hn
    · exact Or.inl ⟨hc, Nat.le_succ_of_le hf⟩
    · exact Or.inr hn
  by_cases hcur : st'.current = some p.block
  · refine ⟨hcur, ?_⟩
    have hlt := hout hcur
    by_contra hne
    exact hnext ⟨hin', fun _ => by change p.pos + 1 < st'.fill p.block; omega⟩
  · exact absurd ⟨hin', fun hc => absurd hc hcur⟩ hnext

theorem Leaves.target_inside (h : Leaves blocks (Inside st st') p ms q m) :
    ∀ x ∈ ms, ∃ r, Moves blocks x.1 x.2 (some r) ∧ Inside st st' r := by
  obtain ⟨hpath, hmoves, hlast, -⟩ := h
  induction hpath with
  | refl => simp
  | @tail ms q m r hpath hm ih =>
    intro x hx
    rcases List.mem_append.mp hx with hx | hx
    · refine ih (fun y hy => hmoves y (List.mem_append_left _ hy)) ?_ x hx
      exact hmoves (q, m) (List.mem_append_right _ (List.mem_singleton_self _))
    · obtain rfl := List.mem_singleton.mp hx
      exact ⟨r, hm, hlast⟩

end Mx

import Mx.Cfg.Region
import Mx.Cfg.Simulation
import Mx.Core.Counted

/-!
# The rounds of a counted loop

`lower_for` puts the limit expression into the header of the loop, so that every test evaluates it
again. The body is executed for the counted values exactly where every test decides as the limit
at the entry of the loop would.
-/

namespace Mx

open Mx.Core

/-! ## Code in a block -/

/-- From position `pos` on, block `b` holds the statements `ss` and ends with `t`. -/
def CodeAt (blocks : List BasicBlock) (b pos : Nat) (ss : List HirStmt) (t : Terminator) : Prop :=
  ∃ block, blocks[b]? = some block ∧ block.stmts.drop pos = ss ∧ block.terminator = some t

namespace CodeAt

variable {σ V : Type} {I : Interp σ V} {G : List BasicBlock} {b pos : Nat} {ss : List HirStmt}
  {t : Terminator} {s s' : σ}

theorem step_stmt {stmt : HirStmt} (h : CodeAt G b pos (stmt :: ss) t)
    (he : I.exec stmt s = .ok s') :
    (machine I G).step ⟨b, pos, s⟩ = ([.stmt stmt], .inl ⟨b, pos + 1, s'⟩) := by
  obtain ⟨block, hb, hdrop, -⟩ := h
  have hget : block.stmts[pos]? = some stmt := by
    have hhead := congrArg List.head? hdrop
    rwa [List.head?_drop] at hhead
  simp [machine, stepBlocks, hb, hget, stepStmt, he]

theorem tail {stmt : HirStmt} (h : CodeAt G b pos (stmt :: ss) t) :
    CodeAt G b (pos + 1) ss t := by
  obtain ⟨block, hb, hdrop, ht⟩ := h
  refine ⟨block, hb, ?_, ht⟩
  rw [← List.drop_drop, hdrop]
  rfl

/-- The end of the statements is a step of the terminator. -/
theorem step_terminator (h : CodeAt G b pos [] t) :
    ∃ handler, (machine I G).step ⟨b, pos, s⟩ = stepTerminator I handler s t := by
  obtain ⟨block, hb, hdrop, ht⟩ := h
  have hget : block.stmts[pos]? = none := by
    rw [List.getElem?_eq_none_iff]
    exact List.drop_eq_nil_iff.mp hdrop
  refine ⟨block.handler, ?_⟩
  simp [machine, stepBlocks, hb, hget, ht]

theorem step_goto {target : Nat} (h : CodeAt G b pos [] (.goto target)) :
    (machine I G).step ⟨b, pos, s⟩ = ([], .inl ⟨target, 0, s⟩) := by
  obtain ⟨handler, hstep⟩ := h.step_terminator (I := I) (s := s)
  rw [hstep]
  rfl

theorem step_branch {cond : HirExpr} {onTrue onFalse : Nat} {v : V}
    (h : CodeAt G b pos [] (.branch cond onTrue onFalse)) (he : I.eval cond s = .ok (v, s')) :
    (machine I G).step ⟨b, pos, s⟩ =
      ([.eval cond], .inl ⟨if I.truth v then onTrue else onFalse, 0, s'⟩) := by
  obtain ⟨handler, hstep⟩ := h.step_terminator (I := I) (s := s)
  rw [hstep]
  simp [stepTerminator, evalIn, he, enter]

/-- A statement and the jump after it. -/
theorem steps_two {stmt : HirStmt} {target : Nat} (h : CodeAt G b pos [stmt] (.goto target))
    (he : I.exec stmt s = .ok s') :
    ∃ es, (machine I G).Steps 2 ⟨b, pos, s⟩ es ⟨target, 0, s'⟩ ∧
      ∀ m es' d, m < 2 → (machine I G).Steps m ⟨b, pos, s⟩ es' d →
        d.block = b ∧ (d.pos = pos ∨ d.pos = pos + 1) := by
  have hfirst := Machine.steps_one (h.step_stmt he)
  have hsecond := Machine.steps_one (h.tail.step_goto (I := I) (s := s'))
  refine ⟨_, hfirst.trans hsecond, ?_⟩
  intro m es' d hm hd
  have hcases : m = 0 ∨ m = 1 := by omega
  rcases hcases with rfl | rfl
  · obtain rfl := Machine.Steps.unique Machine.steps_zero hd
    exact ⟨rfl, .inl rfl⟩
  · obtain rfl := hfirst.unique hd
    exact ⟨rfl, .inr rfl⟩

end CodeAt

/-! ## The blocks of a loop -/

section Shape

variable {var : String} {varTy : TypeId} {start stop : HirExpr} {step : Option HirExpr}
  {direction : ForDirection} {body : Lowering} {st : CfgBuilder} {G : List BasicBlock}

/-- The blocks of a `FOR` that starts in block `b`: the header `h`, the latch `h + 2` and the blocks
`h + 1` and `h + 3` where its body and the code after it start. -/
structure ForShape (var : String) (varTy : TypeId) (start stop : HirExpr) (step : Option HirExpr)
    (direction : ForDirection) (G : List BasicBlock) (b pos h : Nat) : Prop where
  before : b < h
  entry : CodeAt G b pos [assignVar var varTy start] (.goto h)
  check : CodeAt G h 0 []
    (.branch (makeBinop (forCmp direction) var varTy stop) (h + 1) (h + 3))
  latch : CodeAt G (h + 2) 0
    [assignVar var varTy (makeBinop .add var varTy (forStep varTy step direction))] (.goto h)

/-- A block that is sealed after some statements holds the rest of them. -/
theorem codeAt_of_sealed {c : Nat} {ss ss' : List HirStmt} {hd : Option Nat} {t : Terminator}
    {st' : CfgBuilder} (a : st.At c (ss ++ ss') hd) (hs : st.sealBlock t = .ok st')
    (hG : Grows st'.blocks G) : CodeAt G c ss.length ss' t := by
  have hb := hG.sealed (a.sealed hs) rfl
  exact ⟨_, hb, List.drop_left, rfl⟩

theorem lowerFor_shape {b : Nat} (hk : body.Sound)
    (r : Runs (lowerFor var varTy start stop step direction body) st G)
    (hb : st.current = some b) :
    ForShape var varTy start stop step direction G b (st.fill b) st.nextId := by
  obtain ⟨hinv, hopen, st', hs, hG⟩ := r
  obtain ⟨c, ss, hd, a⟩ := hinv.exists_at hopen
  obtain rfl : c = b := Option.some.inj (a.current.symm.trans hb)
  simp only [lowerFor, bind_eq_ok] at hs
  obtain ⟨st₁, h₁, st₂, h₂, st₃, h₃, st₄, h₄, h₅⟩ := hs
  obtain ⟨w₁, _⟩ := forEntry_within hinv h₁
  have w₂ := hk st₁ st₂ w₁.scope.inv h₂
  obtain ⟨_, wlatch, _⟩ := forEntry_after hinv h₁
  have hG₄ : Grows st₄.blocks G := (CfgBuilder.startBlock_grows h₅).trans hG
  have hG₃ : Grows st₃.blocks G := (lowerFor_latch_grows hk hinv h₁ h₂ h₃ h₄).trans hG₄
  have hG₂ : Grows st₂.blocks G := (CfgBuilder.sealIfOpen_grows h₃).trans hG₃
  simp only [forEntry, bind_eq_ok] at h₁
  obtain ⟨sa, ha, sb, hb', sc, hc, hbody⟩ := h₁
  have hpush : (st.pushStmt (assignVar var varTy start)).Inv :=
    ((Scope.refl hinv).pushStmt _).inv
  have hGc : Grows sc.blocks G := (CfgBuilder.startBlock_grows hbody).trans (w₂.grows.trans hG₂)
  have hGa : Grows sa.blocks G := (CfgBuilder.startBlock_grows hb').trans
    ((CfgBuilder.sealBlock_grows hc).trans hGc)
  constructor
  · exact a.lt
  · rw [CfgBuilder.fill_eq a.block]
    exact codeAt_of_sealed ((a.pushStmts [assignVar var varTy start]).newBlocks 4) ha hGa
  · have w := hpush.waiting_newBlocks (n := 4) (i := st.nextId) (by simp) (by simp)
    have acond := (w.sealBlock ha).at_start hb'
    exact @codeAt_of_sealed _ G _ [] [] _ _ _ acond hc hGc
  · have w := ((wlatch.of_scope w₂.scope).sealIfOpen h₃).popLoopExit
    simp only [forLatch, armEntry, bind_eq_ok, pure_eq_ok] at h₄
    obtain ⟨sd, ⟨se, he, rfl⟩, hf⟩ := h₄
    exact @codeAt_of_sealed _ G _ [] _ _ _ _ ((w.at_start he).pushStmts _) hf hG₄

end Shape

/-! ## Counting -/

/-- An interpretation under which a variable counts: the integers that its type holds, the value of
the variable in a store, the integers that values stand for, and what becomes of them in the
assignments and comparisons of a `FOR`. The comparison is exact only for the expressions in
`comparable`, as the conversions between the types of both sides may change a value. -/
structure Counting (σ V : Type) (var : String) (varTy : TypeId) extends Interp σ V where
  holds : Int → Prop
  counter : σ → Int
  int : V → Int
  comparable : HirExpr → Prop
  assign : ∀ e s v s', eval e s = .ok (v, s') → holds (int v) →
    ∃ s'', exec (assignVar var varTy e) s = .ok s'' ∧ counter s'' = int v
  compare : ∀ direction e s v s', comparable e → eval e s = .ok (v, s') →
    counter s' = counter s → holds (counter s) → holds (int v) →
    ∃ b, eval (makeBinop (forCmp direction) var varTy e) s = .ok (b, s') ∧
      (truth b = true ↔ match direction with
        | .up => counter s ≤ int v
        | .down => int v ≤ counter s)
  advance : ∀ e s v s', eval e s = .ok (v, s') → counter s' = counter s → holds (counter s) →
    holds (counter s + int v) →
    ∃ s'', exec (assignVar var varTy (makeBinop .add var varTy e)) s = .ok s'' ∧
      counter s'' = counter s + int v

section Loop

variable {σ V : Type} {var : String} {varTy : TypeId} (C : Counting σ V var varTy)

/-- The integer an expression has in a store. -/
def Counting.ValueOf (e : HirExpr) (s : σ) (n : Int) : Prop :=
  ∃ v s', C.eval e s = .ok (v, s') ∧ C.int v = n

/-- The expression has the integer in the store and leaves the counter alone. -/
def Counting.Yields (e : HirExpr) (s : σ) (n : Int) : Prop :=
  ∃ v s', C.eval e s = .ok (v, s') ∧ C.int v = n ∧ C.counter s' = C.counter s

/-- The start of a block. -/
def atBlock (b : Nat) (c : Config σ) : Bool := c.block == b && c.pos == 0

/-- The starts of the body, of the latch and of the code after a loop with the header `h`. -/
def loopPoint (h : Nat) (c : Config σ) : Bool :=
  atBlock (h + 1) c || atBlock (h + 2) c || atBlock (h + 3) c

/-- The body, started in the store `t`, completes in the store `u`: the latch is reached before the
body starts again and before the loop is left. -/
def BodyCompletes (G : List BasicBlock) (h : Nat) (t u : σ) : Prop :=
  (machine C.toInterp G).FirstReach (loopPoint h) ⟨h + 1, 0, t⟩ ⟨h + 2, 0, u⟩

/-- The header lets the body start. -/
def EntersBody (G : List BasicBlock) (h : Nat) (t t' : σ) : Prop :=
  ∃ es, (machine C.toInterp G).step ⟨h, 0, t⟩ = (es, .inl ⟨h + 1, 0, t'⟩)

/-- A round, from the header to the header. -/
def ForRound (G : List BasicBlock) (h : Nat) (c c' : Config σ) : Prop :=
  ∃ t t' u v es, c = ⟨h, 0, t⟩ ∧ c' = ⟨h, 0, v⟩ ∧ EntersBody C G h t t' ∧
    BodyCompletes C G h t' u ∧ (machine C.toInterp G).Steps 2 ⟨h + 2, 0, u⟩ es ⟨h, 0, v⟩

/-- The loop that starts at the point tests its limit in the store `t`. -/
def Tested (G : List BasicBlock) (b pos h : Nat) (s₀ t : σ) : Prop :=
  ∃ es t₀, (machine C.toInterp G).Steps 2 ⟨b, pos, s₀⟩ es ⟨h, 0, t₀⟩ ∧
    Relation.ReflTransGen (ForRound C G h) ⟨h, 0, t₀⟩ ⟨h, 0, t⟩

/-- What is expected of a loop that is entered in the store `s₀`: the limit can be evaluated at
every test, and a body that is started completes and leaves the counter alone. -/
structure Orderly (G : List BasicBlock) (b pos h : Nat) (stop : HirExpr) (s₀ : σ) : Prop where
  comparable : C.comparable stop
  check : ∀ t, Tested C G b pos h s₀ t → ∃ n, C.Yields stop t n ∧ C.holds n
  body : ∀ t t', Tested C G b pos h s₀ t → EntersBody C G h t t' →
    ∃ u, BodyCompletes C G h t' u ∧ C.counter u = C.counter t'

/-- In the store `t` the limit decides as it does at the entry of the loop. -/
def DecidesAlike (stop : HirExpr) (step : Int) (s₀ t : σ) : Prop :=
  ∀ n limit, C.ValueOf stop t n → C.ValueOf stop s₀ limit →
    (Passes n step (C.counter t) ↔ Passes limit step (C.counter t))

/-- The loop executes its body exactly for the values of the counter that are listed, and is left
after that. -/
def ExecutesFor (G : List BasicBlock) (b pos h : Nat) (s₀ : σ) (values : List Int) : Prop :=
  (machine C.toInterp G).Counts (atBlock (h + 1)) (atBlock (h + 3)) (fun c => C.counter c.store)
    ⟨b, pos, s₀⟩ values

end Loop

section Rounds

variable {σ V : Type} {var : String} {varTy : TypeId} {C : Counting σ V var varTy}
  {start stop : HirExpr} {step : Option HirExpr} {direction : ForDirection}
  {G : List BasicBlock} {b pos h : Nat} {s₀ t : σ} {first limit s n : Int}

theorem Counting.ValueOf.unique {e : HirExpr} {t : σ} {n m : Int} (h : C.ValueOf e t n)
    (h' : C.ValueOf e t m) : n = m := by
  obtain ⟨v, s', he, rfl⟩ := h
  obtain ⟨w, u, he', rfl⟩ := h'
  have heq := he.symm.trans he'
  cases heq
  rfl

/-- The header compares the counter with the limit as it is now. -/
theorem ForShape.check_step (shape : ForShape var varTy start stop step direction G b pos h)
    (hdir : direction = .down ↔ s < 0) (hcmp : C.comparable stop) (hn : C.Yields stop t n)
    (hhold : C.holds (C.counter t)) (hlimit : C.holds n) :
    ∃ es t', C.counter t' = C.counter t ∧ (machine C.toInterp G).step ⟨h, 0, t⟩ =
      (es, .inl ⟨if Passes n s (C.counter t) then h + 3 else h + 1, 0, t'⟩) := by
  obtain ⟨v, t', he, rfl, hkeep⟩ := hn
  obtain ⟨c, hc, htruth⟩ := C.compare direction stop t v t' hcmp he hkeep hhold hlimit
  refine ⟨[.eval (makeBinop (forCmp direction) var varTy stop)], t', hkeep, ?_⟩
  rw [shape.check.step_branch hc]
  have hiff : C.truth c = true ↔ ¬ Passes (C.int v) s (C.counter t) := by
    rw [htruth, Passes]
    cases direction with
    | up =>
      have hs : ¬ s < 0 := fun hs => absurd (hdir.mpr hs) (by decide)
      simp [hs]
    | down => simp [hdir.mp rfl]
  by_cases hp : Passes (C.int v) s (C.counter t)
  · rw [if_pos hp, if_neg (fun hc => hiff.mp hc hp)]
  · rw [if_neg hp, if_pos (hiff.mpr hp)]

/-- The latch adds the step. -/
theorem ForShape.latch_steps (shape : ForShape var varTy start stop step direction G b pos h)
    (hs : C.Yields (forStep varTy step direction) t s) (hhold : C.holds (C.counter t))
    (hnext : C.holds (C.counter t + s)) :
    ∃ es v, (machine C.toInterp G).Steps 2 ⟨h + 2, 0, t⟩ es ⟨h, 0, v⟩ ∧
      (machine C.toInterp G).Clear (atBlock (h + 3)) 2 ⟨h + 2, 0, t⟩ ∧
      (machine C.toInterp G).Clear (atBlock (h + 1)) 2 ⟨h + 2, 0, t⟩ ∧
      C.counter v = C.counter t + s := by
  obtain ⟨w, t', he, rfl, hkeep⟩ := hs
  obtain ⟨v, hexec, hcount⟩ := C.advance _ t w t' he hkeep hhold hnext
  obtain ⟨es, hsteps, hblocks⟩ := shape.latch.steps_two hexec
  refine ⟨es, v, hsteps, ?_, ?_, hcount⟩ <;>
  · intro m es' d hm hd
    have hblock := (hblocks m es' d hm hd).1
    simp [atBlock, hblock]

/-- The first assignment leads to the header. -/
theorem ForShape.entry_steps (shape : ForShape var varTy start stop step direction G b pos h)
    (hfirst : C.ValueOf start s₀ first) (hhold : C.holds first) :
    ∃ es t₀, (machine C.toInterp G).Steps 2 ⟨b, pos, s₀⟩ es ⟨h, 0, t₀⟩ ∧
      (machine C.toInterp G).Clear (atBlock (h + 3)) 2 ⟨b, pos, s₀⟩ ∧
      (machine C.toInterp G).Clear (atBlock (h + 1)) 2 ⟨b, pos, s₀⟩ ∧
      C.counter t₀ = first := by
  obtain ⟨v, s', he, rfl⟩ := hfirst
  obtain ⟨t₀, hexec, hcount⟩ := C.assign start s₀ v s' he hhold
  obtain ⟨es, hsteps, hblocks⟩ := shape.entry.steps_two hexec
  have hlt := shape.before
  refine ⟨es, t₀, hsteps, ?_, ?_, hcount⟩ <;>
  · intro m es' d hm hd
    have hblock := (hblocks m es' d hm hd).1
    have hne : b ≠ h + 1 ∧ b ≠ h + 3 := by omega
    simp [atBlock, hblock, hne]

/-- The end of the body is the first of the three points that is reached from its start. -/
theorem BodyCompletes.steps {t' u : σ} (hbody : BodyCompletes C G h t' u) :
    ∃ n es, (machine C.toInterp G).Steps n ⟨h + 1, 0, t'⟩ es ⟨h + 2, 0, u⟩ ∧
      (machine C.toInterp G).visited (atBlock (h + 1)) n ⟨h + 1, 0, t'⟩ = [⟨h + 1, 0, t'⟩] ∧
      (machine C.toInterp G).Clear (atBlock (h + 3)) n ⟨h + 1, 0, t'⟩ := by
  obtain ⟨n, es, hsteps, hpoints⟩ := Machine.FirstReach.steps hbody
  have hvisit := (hpoints (atBlock (h + 1)) fun d hd => by simp [loopPoint, hd]).1
  have hclear := (hpoints (atBlock (h + 3)) fun d hd => by simp [loopPoint, hd]).2
  refine ⟨n, es, hsteps, ?_, ?_⟩
  · simp [hvisit, atBlock]
  · apply hclear
    simp [atBlock]

/-- A body of one statement completes. -/
theorem bodyCompletes_of_stmt {stmt : HirStmt} {t' u : σ}
    (hcode : CodeAt G (h + 1) 0 [stmt] (.goto (h + 2))) (he : C.exec stmt t' = .ok u) :
    BodyCompletes C G h t' u := by
  have hgoto := Machine.steps_one (hcode.tail.step_goto (I := C.toInterp) (s := u))
  refine ⟨_, _, 1, _, hcode.step_stmt he, hgoto, ?_, Machine.clear_one ?_⟩
  · simp [loopPoint, atBlock]
  · simp [loopPoint, atBlock]

theorem ForRound.unique {c c' d : Config σ} (hc : ForRound C G h c c')
    (hd : ForRound C G h c d) : c' = d := by
  obtain ⟨t, t', u, v, es, rfl, rfl, ⟨es₁, henter⟩, hbody, hlatch⟩ := hc
  obtain ⟨x, x', y, z, es', hx, rfl, ⟨es₂, henter'⟩, hbody', hlatch'⟩ := hd
  cases hx
  have heq := henter.symm.trans henter'
  cases heq
  cases hbody.unique hbody'
  exact hlatch.unique hlatch'

/-- The variable's type holds the counted values and the one that passes the limit. -/
def HoldsValues (C : Counting σ V var varTy) (first limit s : Int) : Prop :=
  ∀ k : Nat, k ≤ countTo first limit s → C.holds (first + k * s)

/-- A header of the loop, with one of the counted values or the one that passes the limit. -/
def ForHeader (C : Counting σ V var varTy) (G : List BasicBlock) (b pos h : Nat) (s₀ : σ)
    (first limit s : Int) (c : Config σ) : Prop :=
  ∃ t, c = ⟨h, 0, t⟩ ∧ Tested C G b pos h s₀ t ∧
    ∃ k : Nat, k ≤ countTo first limit s ∧ C.counter t = first + k * s

/-- The next counted value after a round that does not pass the limit. -/
theorem next_value {k : Nat} (hs : s ≠ 0) (hp : ¬ Passes limit s (first + k * s)) :
    k + 1 ≤ countTo first limit s ∧ first + k * s + s = first + (k + 1 : Nat) * s := by
  constructor
  · exact (lt_countTo_iff hs).mpr hp
  · push_cast
    ring

section

variable (shape : ForShape var varTy start stop step direction G b pos h)
  (hdir : direction = .down ↔ s < 0) (ho : Orderly C G b pos h stop s₀)
  (hfit : HoldsValues C first limit s)

include shape hdir ho hfit

/-- At a header the body starts unless the limit, as it is now, is passed. -/
theorem ForHeader.enters_iff {t : σ} (hc : ForHeader C G b pos h s₀ first limit s ⟨h, 0, t⟩) :
    ∃ n, C.ValueOf stop t n ∧ ((∃ t', EntersBody C G h t t') ↔ ¬ Passes n s (C.counter t)) ∧
      ∃ es t', C.counter t' = C.counter t ∧ (machine C.toInterp G).step ⟨h, 0, t⟩ =
        (es, .inl ⟨if Passes n s (C.counter t) then h + 3 else h + 1, 0, t'⟩) := by
  obtain ⟨_, he, htested, k, hk, hcount⟩ := hc
  cases he
  obtain ⟨n, hn, hlimit⟩ := ho.check t htested
  have hhold : C.holds (C.counter t) := by
    rw [hcount]
    exact hfit k hk
  obtain ⟨es, t', hkeep, hstep⟩ := shape.check_step hdir ho.comparable hn hhold hlimit
  obtain ⟨v, s', he, hv, -⟩ := hn
  refine ⟨n, ⟨v, s', he, hv⟩, ?_, es, t', hkeep, hstep⟩
  constructor
  · rintro ⟨t'', es', henter⟩ hp
    rw [henter, if_pos hp] at hstep
    simp at hstep
  · intro hp
    rw [if_neg hp] at hstep
    exact ⟨t', es, hstep⟩

/-- The start of the body, from the header. -/
theorem ForHeader.start_body {t t' : σ}
    (hc : ForHeader C G b pos h s₀ first limit s ⟨h, 0, t⟩) (henter : EntersBody C G h t t') :
    C.counter t' = C.counter t ∧ ∃ n es u, BodyCompletes C G h t' u ∧
      C.counter u = C.counter t' ∧
      (machine C.toInterp G).Steps n ⟨h, 0, t⟩ es ⟨h + 2, 0, u⟩ ∧
      (machine C.toInterp G).visited (atBlock (h + 1)) n ⟨h, 0, t⟩ = [⟨h + 1, 0, t'⟩] ∧
      (machine C.toInterp G).Clear (atBlock (h + 3)) n ⟨h, 0, t⟩ := by
  have htested : Tested C G b pos h s₀ t := by
    obtain ⟨_, he, htested, -⟩ := hc
    cases he
    exact htested
  obtain ⟨n, -, -, es₀, t'', hkeep, hstep⟩ := hc.enters_iff shape hdir ho hfit
  obtain ⟨u, hbody, hu⟩ := ho.body t t' htested henter
  obtain ⟨es₁, henter⟩ := henter
  have ht : t'' = t' := by
    rw [henter] at hstep
    split at hstep <;> simp_all
  have hone := Machine.steps_one henter
  obtain ⟨m, es, hsteps, hvisit, hclear⟩ := hbody.steps
  refine ⟨by rw [← ht, hkeep], 1 + m, es₁ ++ es, u, hbody, hu, hone.trans hsteps, ?_, ?_⟩
  · rw [Machine.visited_add hone, hvisit, Machine.visited_one]
    simp [atBlock]
  · exact (Machine.clear_one (by simp [atBlock])).add hone hclear

/-- The loop counts. -/
theorem ForShape.countedLoop (hs : s ≠ 0)
    (hstep : ∀ t, C.Yields (forStep varTy step direction) t s) :
    (machine C.toInterp G).CountedLoop (atBlock (h + 1)) (atBlock (h + 3))
      (fun c => C.counter c.store) limit s (ForHeader C G b pos h s₀ first limit s)
      (fun c => ∃ t', EntersBody C G h c.store t') (ForRound C G h) where
  step_ne := hs
  visit := by
    rintro c ⟨t, rfl, hrest⟩ ⟨t', henter⟩
    have hc : ForHeader C G b pos h s₀ first limit s ⟨h, 0, t⟩ := ⟨t, rfl, hrest⟩
    obtain ⟨-, n, es, u, -, -, hsteps, hvisit, hclear⟩ :=
      hc.start_body shape hdir ho hfit henter
    exact ⟨n, es, _, _, hsteps, hclear, hvisit⟩
  round := by
    rintro c ⟨t, rfl, htested, k, hk, hcount⟩ ⟨t', henter⟩ hp
    have hc : ForHeader C G b pos h s₀ first limit s ⟨h, 0, t⟩ := ⟨t, rfl, htested, k, hk, hcount⟩
    obtain ⟨hkeep, n, es, u, hbody, hu, hsteps, hvisit, hclear⟩ :=
      hc.start_body shape hdir ho hfit henter
    have hcu : C.counter u = C.counter t := hu.trans hkeep
    dsimp only at hp
    rw [hcount] at hp
    obtain ⟨hk', hvalue⟩ := next_value hs hp
    obtain ⟨es', v, hlatch, hdone, hnone, hv⟩ := shape.latch_steps (hstep u)
      (by rw [hcu, hcount]; exact hfit k hk) (by rw [hcu, hcount, hvalue]; exact hfit _ hk')
    have hround : ForRound C G h ⟨h, 0, t⟩ ⟨h, 0, v⟩ :=
      ⟨t, t', u, v, es', rfl, rfl, henter, hbody, hlatch⟩
    refine ⟨n + 2, es ++ es', ⟨h, 0, v⟩, hsteps.trans hlatch, hclear.add hsteps hdone, ?_, hround,
      ⟨v, rfl, ?_, k + 1, hk', ?_⟩, ?_⟩
    · rw [Machine.visited_add hsteps, hvisit, hnone.visited hlatch]
      simp [hkeep]
    · obtain ⟨es₀, t₀, hentry, hreach⟩ := htested
      exact ⟨es₀, t₀, hentry, hreach.tail hround⟩
    · rw [hv, hcu, hcount, hvalue]
    · dsimp only
      rw [hv, hcu]
  leave := by
    rintro c ⟨t, rfl, hrest⟩ hnot
    have hc : ForHeader C G b pos h s₀ first limit s ⟨h, 0, t⟩ := ⟨t, rfl, hrest⟩
    obtain ⟨n, -, hiff, es, t', -, hstep'⟩ := hc.enters_iff shape hdir ho hfit
    have hp : Passes n s (C.counter t) := by
      by_contra hp
      exact hnot (hiff.mpr hp)
    rw [if_pos hp] at hstep'
    refine ⟨1, es, _, Machine.steps_one hstep', Machine.clear_one (by simp [atBlock]), ?_, ?_⟩
    · rw [Machine.visited_one]
      simp [atBlock]
    · simp [atBlock]
  next_test := by
    rintro c c' - ⟨t, t', u, v, es, rfl, -, henter, -⟩
    exact ⟨t', henter⟩
  next_unique _ _ _ hc hd := hc.unique hd

/-- An orderly loop executes its body exactly for the counted values if and only if every test
decides as the limit at the entry of the loop. -/
theorem ForShape.executesFor_iff (hs : s ≠ 0)
    (hstep : ∀ t, C.Yields (forStep varTy step direction) t s)
    (hfirst : C.ValueOf start s₀ first) (hlimit : C.ValueOf stop s₀ limit) :
    ExecutesFor C G b pos h s₀ (valuesTo first limit s) ↔
      ∀ t, Tested C G b pos h s₀ t → DecidesAlike C stop s s₀ t := by
  have hloop := shape.countedLoop hdir ho hfit hs hstep
  have hzero : C.holds first := by simpa using hfit 0 (Nat.zero_le _)
  obtain ⟨es, t₀, hentry, hdone, hnone, hcount⟩ := shape.entry_steps hfirst hzero
  have hheader : ForHeader C G b pos h s₀ first limit s ⟨h, 0, t₀⟩ :=
    ⟨t₀, rfl, ⟨es, t₀, hentry, .refl⟩, 0, Nat.zero_le _, by simpa using hcount⟩
  have hstart : ∀ {es' t}, (machine C.toInterp G).Steps 2 ⟨b, pos, s₀⟩ es' ⟨h, 0, t⟩ → t = t₀ := by
    intro es' t ht
    cases hentry.unique ht
    rfl
  -- a test is right where the limit decides alike
  have halike : ∀ t, ForHeader C G b pos h s₀ first limit s ⟨h, 0, t⟩ →
      (((∃ t', EntersBody C G h t t') ↔ ¬ Passes limit s (C.counter t)) ↔
        DecidesAlike C stop s s₀ t) := by
    intro t hc
    obtain ⟨n, hn, hiff, -⟩ := hc.enters_iff shape hdir ho hfit
    rw [hiff, not_iff_not]
    constructor
    · intro hsame m l hm hl
      rw [hm.unique hn, hl.unique hlimit]
      exact hsame
    · intro hsame
      exact hsame n limit hn hlimit
  rw [ExecutesFor, Machine.counts_iff_of_silent hentry hdone (hnone.visited hentry), ← hcount]
  have hiff := hloop.counts_iff hheader
  dsimp only at hiff
  rw [hcount] at hiff ⊢
  rw [hiff]
  constructor
  · intro hright t ht
    obtain ⟨es', t₁, hentry', hreach⟩ := ht
    obtain rfl := hstart hentry'
    have hc := hloop.header_of_reach hheader hright hreach
    exact (halike t hc).mp (hright _ hreach hc)
  · rintro hright d hreach ⟨t, rfl, ht, hvalue⟩
    exact (halike t ⟨t, rfl, ht, hvalue⟩).mpr (hright t ht)

end

end Rounds

end Mx

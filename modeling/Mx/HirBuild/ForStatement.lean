import Mx.Cfg.ForArith
import Mx.HirBuild.ForDirection

/-!
# FOR statements

A `FOR` with a constant step, from the syntax tree to the graph: its direction comes from folding
the step, its rounds from the limit that every test evaluates again.
-/

namespace Mx.HirBuild

open Mx.Core Sema Ast

/-- The loop runs in the direction of its step and executes its body for the values from `first` on
that do not pass `limit`. -/
def RunsCounted {σ V : Type} {var : String} {varTy : TypeId} (C : Counting σ V var varTy)
    (G : List BasicBlock) (b pos h : Nat) (s₀ : σ) (direction : ForDirection)
    (first limit s : Int) : Prop :=
  (direction = .down ↔ s < 0) ∧ ExecutesFor C G b pos h s₀ (valuesTo first limit s)

/-- A `FOR` whose step is folded to its value, or not folded at all, has the direction of its step
and executes its body exactly for the counted values if and only if a step that is not folded is
written with a minus sign just if it is negative and the limit decides at every test as it does at
the entry of the loop. -/
theorem for_runsCounted_iff {sema : SemanticAnalyzer} {declared : String → Option CIntType}
    {builtin : Designator → List Expr → Int → Prop} {b : HirBuilder}
    (hsym : b.symtab = sema.symtab) {var : String} {start stop step : Expr} {s : Int}
    (hs : StepValue sema declared builtin step s) (hne : s ≠ 0)
    (hright : ∀ x, Subexpr x step → FoldsRight sema declared builtin x)
    (loopBody : List HirStmt) (loc : SourceLoc) :
    ∃ direction stmt, b.forDirection (some step) = some direction ∧
      b.lowerForStmt var start stop (some step) loopBody loc = some stmt ∧
      ∀ (body ss : List HirStmt) (cfg : Cfg) (catches : List Nat) (st : CfgBuilder) (blk : Nat),
        buildCfg body = .ok cfg → Lowered body ⟨stmt :: ss, catches, st⟩ →
        st.current = some blk →
        ∀ (σ V : Type) (C : Counting σ V var ((b.getVarType var).getD tyInteger)) (s₀ : σ)
          (first limit : Int),
          C.ValueOf (b.lowerExpr start) s₀ first → C.ValueOf (b.lowerExpr stop) s₀ limit →
          (∀ t, C.Yields (b.lowerExpr step) t s) → HoldsValues C first limit s →
          Orderly C cfg.blocks blk (st.fill blk) st.nextId (b.lowerExpr stop) s₀ →
          (RunsCounted C cfg.blocks blk (st.fill blk) st.nextId s₀ direction first limit s ↔
            (Unfolded b.symtab step → (isNegation step = true ↔ s < 0)) ∧
              ∀ t, Tested C cfg.blocks blk (st.fill blk) st.nextId s₀ t →
                DecidesAlike C (b.lowerExpr stop) s s₀ t) := by
  obtain ⟨direction, hdir, hiff⟩ := forDirection_iff hsym hs hright
  refine ⟨direction, _, hdir, by rw [HirBuilder.lowerForStmt, hdir]; rfl, ?_⟩
  intro body ss cfg catches st blk hcfg hsite hblk σ V C s₀ first limit hfirst hlimit hstep hfit ho
  rw [RunsCounted, ← hiff]
  apply and_congr_right
  intro hright
  have hruns := (hsite.runs hcfg).head
  have shape := lowerFor_shape (lowerStmts_sound loopBody) hruns hblk
  exact shape.executesFor_iff hright ho hfit hne hstep hfirst hlimit

/-! ## Two loops -/

/-- A procedure with the variables `i` and `n`. -/
def loopBuilder : HirBuilder where
  types := ⟨[]⟩
  symtab := noSymbols.symtab
  moduleName := "Main"
  foreignModules := []
  importAliasMap := []
  importedModules := []
  varTypes := [("i", tyInteger), ("n", tyInteger)]
  localNames := ["i", "n"]
  withStack := []
  inProcedure := true
  currentScope := none
  isStdlibModule _ := false
  isNativeStdlib _ := false
  mapStdlibCall _ _ := none

/-- `n := 0`. -/
def clearN : HirStmt := assignVar "n" tyInteger (intExpr 0)

/-- `FOR i := start TO stop BY step DO n := 0 END`. -/
def clearLoop (start stop step : HirExpr) (direction : ForDirection) : HirStmt :=
  ⟨.forStmt "i" tyInteger start stop (some step) direction [clearN], .cfg⟩

/-- The blocks of the loop, with the terminator of the last one. -/
def clearLoopBlocks (start stop step : HirExpr) (direction : ForDirection)
    (last : Option Terminator) : List BasicBlock :=
  [⟨0, [assignVar "i" tyInteger start], some (.goto 1), none⟩,
   ⟨1, [], some (.branch (makeBinop (forCmp direction) "i" tyInteger stop) 2 4), none⟩,
   ⟨2, [clearN], some (.goto 3), none⟩,
   ⟨3, [assignVar "i" tyInteger (makeBinop .add "i" tyInteger step)], some (.goto 1), none⟩,
   ⟨4, [], last, none⟩]

/-- The graph of the loop. -/
def clearLoopCfg (start stop step : HirExpr) (direction : ForDirection) : Cfg where
  blocks := clearLoopBlocks start stop step direction (some (.ret none))
  entry := 0
  preds := [[], [0, 3], [1], [2], [1]]
  predsValid := true

theorem buildCfg_clearLoop (start stop step : HirExpr) (direction : ForDirection) :
    buildCfg [clearLoop start stop step direction] =
      .ok (clearLoopCfg start stop step direction) := by
  have hlower : lowerStmts [clearLoop start stop step direction] CfgBuilder.new =
      .ok ⟨clearLoopBlocks start stop step direction none, some 4, [], []⟩ := rfl
  have hfinish : CfgBuilder.finish
      ⟨clearLoopBlocks start stop step direction none, some 4, [], []⟩ =
      .ok (clearLoopCfg start stop step direction) := rfl
  have hverify : (clearLoopCfg start stop step direction).verify = .ok () := rfl
  simp only [buildCfg, bind_eq_ok, pure_eq_ok]
  exact ⟨_, hlower, _, hfinish, _, hverify, rfl⟩

/-- `INTEGER` variables. -/
def intCounting : Counting CStore (CIntType × Int) "i" tyInteger :=
  cCounting (fun _ => .int) (fun _ => by decide) "i" tyInteger

section

variable {e start stop step : HirExpr} {direction : ForDirection} {s : CStore} {n : Int}

/-- The values of an expression of type `int` are compared exactly. -/
theorem intCounting_comparable
    (he : ∀ s, ∃ n, evalC (fun _ => .int) s e = some (.int, n)) : intCounting.comparable e := by
  intro s t n hv m hm
  obtain ⟨k, hk⟩ := he s
  cases hk.symm.trans hv
  exact hm

theorem intCounting_yields (he : evalC (fun _ => .int) s e = some (.int, n)) :
    intCounting.Yields e s n := by
  refine ⟨(.int, n), s, ?_, rfl, rfl⟩
  simp only [intCounting, cCounting, cInterp, he]

theorem intCounting_valueOf (he : evalC (fun _ => .int) s e = some (.int, n)) :
    intCounting.ValueOf e s n := by
  obtain ⟨v, s', hv, hn, -⟩ := intCounting_yields he
  exact ⟨v, s', hv, hn⟩

/-- The body sets `n` to zero. -/
theorem clearLoop_completes (t : CStore) :
    BodyCompletes intCounting (clearLoopCfg start stop step direction).blocks 1 t
      (Function.update t "n" 0) := by
  have hexec : intCounting.exec clearN t = .ok (Function.update t "n" 0) :=
    @cInterp_assign (fun _ => .int) t (intExpr 0) (.int, 0) "n" tyInteger rfl
  exact bodyCompletes_of_stmt ⟨_, rfl, rfl, rfl⟩ hexec

end

/-- `-1`. -/
def minusOne : Expr := ⟨.unaryOp .neg (num 1), .cfg⟩

theorem foldsRight_num {v : Int} {x : Expr} (hx : Subexpr x (num v)) :
    FoldsRight noSymbols (fun _ => none) (fun _ _ _ => False) x := by
  rcases hx with _ | ⟨hy, -⟩
  · trivial
  · exact absurd hy List.not_mem_nil

/-- `FOR i := 3 TO 1 BY -1 DO n := 0 END`. -/
def countDown : HirStmt :=
  clearLoop (loopBuilder.lowerExpr (num 3)) (loopBuilder.lowerExpr (num 1))
    (loopBuilder.lowerExpr minusOne) .down

theorem for_runsCounted_countDown :
    ∃ cfg, buildCfg [countDown] = .ok cfg ∧
      ExecutesFor intCounting cfg.blocks 0 0 1 (fun _ => 0) [3, 2, 1] := by
  refine ⟨_, buildCfg_clearLoop _ _ _ _, ?_⟩
  have hvalue : StepValue noSymbols (fun _ => none) (fun _ _ _ => False) minusOne (-1) :=
    .neg (.intLit (by decide)) (by decide)
  have hright : ∀ x, Subexpr x minusOne →
      FoldsRight noSymbols (fun _ => none) (fun _ _ _ => False) x := by
    intro x hx
    rcases hx with _ | ⟨hy, hx⟩
    · trivial
    · obtain rfl := List.mem_singleton.mp hy
      exact foldsRight_num hx
  have hdown : loopBuilder.forDirection (some minusOne) = some .down := by decide +kernel
  obtain ⟨direction, stmt, hdir, hstmt, hruns⟩ :=
    @for_runsCounted_iff noSymbols (fun _ => none) (fun _ _ _ => False) loopBuilder rfl "i" (num 3)
      (num 1) minusOne (-1) hvalue (by decide) hright [clearN] .cfg
  obtain rfl : .down = direction := Option.some.inj (hdown.symm.trans hdir)
  rw [HirBuilder.lowerForStmt, hdown] at hstmt
  obtain rfl : countDown = stmt := Option.some.inj hstmt
  have hone : ∀ t : CStore,
      evalC (fun _ => .int) t (loopBuilder.lowerExpr (num 1)) = some (.int, 1) := fun _ => rfl
  refine ((hruns [countDown] [] _ [] CfgBuilder.new 0 (buildCfg_clearLoop _ _ _ _) .refl rfl CStore
    _ intCounting (fun _ => 0) 3 1 (intCounting_valueOf rfl) (intCounting_valueOf (hone _))
    (fun t => intCounting_yields rfl) ?_ ?_).mpr ⟨?_, ?_⟩).2
  · intro k hk
    have hcount : countTo 3 1 (-1) = 3 := by decide
    rw [hcount] at hk
    change CIntType.int.Fits _
    interval_cases k <;> decide
  · have hholds : intCounting.holds 1 := by
      change CIntType.int.Fits 1
      decide
    constructor
    · exact intCounting_comparable fun s => ⟨1, hone s⟩
    · exact fun t _ => ⟨1, intCounting_yields (hone t), hholds⟩
    · exact fun _ t' _ _ => ⟨_, clearLoop_completes t', rfl⟩
  · exact fun _ => by decide
  · intro t _ n limit hn hl
    rw [hn.unique (intCounting_valueOf (hone t)), hl.unique (intCounting_valueOf (hone _))]

/-- The name `n`. -/
def nameN : Expr := ⟨.designator (.plain "n" .cfg), .cfg⟩

/-- `FOR i := 1 TO n BY 1 DO n := 0 END`. -/
def shrinking : HirStmt :=
  clearLoop (loopBuilder.lowerExpr (num 1)) (loopBuilder.lowerExpr nameN)
    (loopBuilder.lowerExpr (num 1)) .up

/-- The graph of `shrinking`. -/
def shrinkingBlocks : List BasicBlock :=
  clearLoopBlocks (loopBuilder.lowerExpr (num 1)) (loopBuilder.lowerExpr nameN)
    (loopBuilder.lowerExpr (num 1)) .up (some (.ret none))

theorem shrinking_shape :
    ForShape "i" tyInteger (loopBuilder.lowerExpr (num 1)) (loopBuilder.lowerExpr nameN)
      (some (loopBuilder.lowerExpr (num 1))) .up shrinkingBlocks 0 0 1 :=
  ⟨by decide, ⟨_, rfl, rfl, rfl⟩, ⟨_, rfl, rfl, rfl⟩, ⟨_, rfl, rfl, rfl⟩⟩

theorem evalC_nameN (t : CStore) :
    evalC (fun _ => .int) t (loopBuilder.lowerExpr nameN) = some (.int, t "n") := rfl

theorem evalC_one (t : CStore) :
    evalC (fun _ => .int) t (loopBuilder.lowerExpr (num 1)) = some (.int, 1) := rfl

/-- A round leaves zero in `n`. -/
theorem forRound_shrinking {c c' : Config CStore}
    (h : ForRound intCounting shrinkingBlocks 1 c c') : c'.store "n" = 0 := by
  obtain ⟨t, t', u, v, es, rfl, rfl, -, hbody, hlatch⟩ := h
  cases hbody.unique (clearLoop_completes t')
  have hsum := @evalC_makeBinop (fun _ => .int) (Function.update t' "n" 0)
    (loopBuilder.lowerExpr (num 1)) (.int, 1) "i" tyInteger .add (evalC_one _)
  have hexec := @cInterp_assign (fun _ => .int) _ _ _ "i" tyInteger hsum
  obtain ⟨es', hsteps, -⟩ := shrinking_shape.latch.steps_two hexec
  cases hsteps.unique hlatch
  rfl

/-- The limit is two in the first test and zero in the others. -/
theorem tested_shrinking {t : CStore}
    (h : Tested intCounting shrinkingBlocks 0 0 1 (fun _ => 2) t) :
    t "n" = 2 ∨ t "n" = 0 := by
  obtain ⟨es, t₀, hentry, hreach⟩ := h
  have hexec := @cInterp_assign (fun _ => .int) (fun _ => 2) _ (.int, 1) "i" tyInteger
    (evalC_one _)
  obtain ⟨es', hsteps, -⟩ := shrinking_shape.entry.steps_two hexec
  cases hsteps.unique hentry
  rcases Relation.ReflTransGen.cases_tail hreach with heq | ⟨c, -, hround⟩
  · cases heq
    exact .inl rfl
  · exact .inr (forRound_shrinking hround)

theorem shrinking_orderly : Orderly intCounting shrinkingBlocks 0 0 1
    (loopBuilder.lowerExpr nameN) (fun _ => 2) := by
  constructor
  · exact intCounting_comparable fun t => ⟨t "n", evalC_nameN t⟩
  · intro t ht
    refine ⟨t "n", intCounting_yields (evalC_nameN t), ?_⟩
    change CIntType.int.Fits (t "n")
    rcases tested_shrinking ht with hn | hn <;> rw [hn] <;> decide
  · exact fun _ t' _ _ => ⟨_, clearLoop_completes t', rfl⟩

theorem shrinking_holds : HoldsValues intCounting 1 2 1 := by
  intro k hk
  have hcount : countTo 1 2 1 = 2 := by decide
  rw [hcount] at hk
  change CIntType.int.Fits _
  interval_cases k <;> decide

/-- The body makes the limit smaller, and the loop stops after one round. -/
theorem not_executesFor_shrinking :
    ¬ ExecutesFor intCounting shrinkingBlocks 0 0 1 (fun _ => 2) (valuesTo 1 2 1) := by
  have hup : ForDirection.up = .down ↔ (1 : Int) < 0 := by decide
  have hstep : ∀ t, intCounting.Yields
      (forStep tyInteger (some (loopBuilder.lowerExpr (num 1))) .up) t 1 :=
    fun t => intCounting_yields (evalC_one t)
  have hfirst : intCounting.ValueOf (loopBuilder.lowerExpr (num 1)) (fun _ => 2) 1 :=
    intCounting_valueOf (evalC_one _)
  have hlimit : intCounting.ValueOf (loopBuilder.lowerExpr nameN) (fun _ => 2) 2 :=
    intCounting_valueOf (evalC_nameN _)
  have hloop := shrinking_shape.countedLoop hup shrinking_orderly shrinking_holds (by decide) hstep
  intro hruns
  have halike := (shrinking_shape.executesFor_iff hup shrinking_orderly shrinking_holds
    (by decide) hstep hfirst hlimit).mp hruns
  obtain ⟨es, t₀, hentry, -, -, hcount⟩ := shrinking_shape.entry_steps hfirst
    (by change CIntType.int.Fits 1; decide)
  have hheader : ForHeader intCounting shrinkingBlocks 0 0 1 (fun _ => 2) 1 2 1 ⟨1, 0, t₀⟩ :=
    ⟨t₀, rfl, ⟨es, t₀, hentry, .refl⟩, 0, by decide, by rw [hcount]; decide⟩
  obtain ⟨n, hn, hiff, -⟩ :=
    hheader.enters_iff shrinking_shape hup shrinking_orderly shrinking_holds
  -- the first round is made, and the second test finds the limit zero
  have hn₀ : n = 2 := by
    have hsame := halike t₀ ⟨es, t₀, hentry, .refl⟩
    rcases tested_shrinking ⟨es, t₀, hentry, .refl⟩ with h₂ | h₀
    · rw [hn.unique (intCounting_valueOf (evalC_nameN t₀)), h₂]
    · have hbad := hsame 0 2 (intCounting_valueOf (by rw [evalC_nameN, h₀])) hlimit
      rw [hcount] at hbad
      exact absurd hbad (by decide)
  have hnot : ¬ Passes n 1 (intCounting.counter t₀) := by
    rw [hn₀, hcount]
    decide
  have hnot' : ¬ Passes 2 1 (intCounting.counter t₀) := by
    rw [hcount]
    decide
  obtain ⟨_, _, c', _, _, _, hround, ⟨t, rfl, ht, -⟩, hcount'⟩ :=
    hloop.round ⟨1, 0, t₀⟩ hheader (hiff.mpr hnot) hnot'
  have hzero : t "n" = 0 := forRound_shrinking hround
  have hbad := halike t ht 0 2 (intCounting_valueOf (by rw [evalC_nameN, hzero])) hlimit
  dsimp only at hcount'
  rw [hcount', hcount] at hbad
  exact absurd hbad (by decide)

/-- A limit that the body changes. -/
theorem not_for_runsCounted :
    ¬ ∀ (sema : SemanticAnalyzer) (declared : String → Option CIntType)
      (builtin : Designator → List Expr → Int → Prop) (b : HirBuilder),
      b.symtab = sema.symtab → ∀ (var : String) (start stop step : Expr) (s : Int),
      StepValue sema declared builtin step s → s ≠ 0 → ∀ (loopBody : List HirStmt)
      (loc : SourceLoc), ∃ direction stmt, b.forDirection (some step) = some direction ∧
        b.lowerForStmt var start stop (some step) loopBody loc = some stmt ∧
        ∀ (body ss : List HirStmt) (cfg : Cfg) (catches : List Nat) (st : CfgBuilder) (blk : Nat),
          buildCfg body = .ok cfg → Lowered body ⟨stmt :: ss, catches, st⟩ →
          st.current = some blk →
          ∀ (σ V : Type) (C : Counting σ V var ((b.getVarType var).getD tyInteger)) (s₀ : σ)
            (first limit : Int),
            C.ValueOf (b.lowerExpr start) s₀ first → C.ValueOf (b.lowerExpr stop) s₀ limit →
            (∀ t, C.Yields (b.lowerExpr step) t s) → HoldsValues C first limit s →
            Orderly C cfg.blocks blk (st.fill blk) st.nextId (b.lowerExpr stop) s₀ →
            RunsCounted C cfg.blocks blk (st.fill blk) st.nextId s₀ direction first limit s := by
  intro h
  have hup : loopBuilder.forDirection (some (num 1)) = some .up := by decide +kernel
  obtain ⟨direction, stmt, hdir, hstmt, hruns⟩ := h noSymbols (fun _ => none)
    (fun _ _ _ => False) loopBuilder rfl "i" (num 1) nameN (num 1) 1 (.intLit (by decide))
    (by decide) [clearN] .cfg
  obtain rfl : .up = direction := Option.some.inj (hup.symm.trans hdir)
  rw [HirBuilder.lowerForStmt, hup] at hstmt
  obtain rfl : shrinking = stmt := Option.some.inj hstmt
  exact not_executesFor_shrinking (hruns [shrinking] [] _ [] CfgBuilder.new 0
    (buildCfg_clearLoop _ _ _ _) .refl rfl CStore _ intCounting (fun _ => 2) 1 2
    (intCounting_valueOf (evalC_one _)) (intCounting_valueOf (evalC_nameN _))
    (fun t => intCounting_yields (evalC_one t)) shrinking_holds shrinking_orderly).2

end Mx.HirBuild

import Mx.Cfg.Buildable

/-!
# What the blocks hold

A block is meant to hold assignments, calls and empty statements only. `flat` says when the
part of a body that is lowered leads to such blocks: it has no `RETRY`, which is appended as
it stands, and every `FINALLY` part, which is copied and not lowered, is simple itself.
-/

namespace Mx

open Mx.Core List

/-- The statement is an assignment, a call or empty. -/
def HirStmtKind.isSimple : HirStmtKind → Bool
  | .empty | .assign _ _ | .procCall _ _ => true
  | _ => false

/-- Every statement of the list is simple. -/
def simpleStmts (ss : List HirStmt) : Bool := ss.all fun s => s.kind.isSimple

mutual

/-- The lowered part of the list leads to simple statements only. -/
def flat : List HirStmt → Bool
  | [] => true
  | ⟨kind, _⟩ :: ss => kindFlat kind && (!kindEndsOpen kind || flat ss)

/-- A statement of this form leads to simple statements only. -/
def kindFlat : HirStmtKind → Bool
  | .empty => true
  | .assign _ _ => true
  | .procCall _ _ => true
  | .ifStmt _ thenBody elsifs elseBody => flat thenBody && elsifsFlat elsifs && optFlat elseBody
  | .caseStmt _ branches elseBody => branchesFlat branches && optFlat elseBody
  | .whileStmt _ body => flat body
  | .repeatStmt body _ => flat body
  | .forStmt _ _ _ _ _ _ body => flat body
  | .loop body => flat body
  | .ret _ => true
  | .exit => true
  | .raise _ => true
  | .retry => false
  | .tryStmt body excepts finallyBody =>
    flat body && clausesFlat excepts && simpleStmts (finallyBody.getD [])
  | .lock _ body => flat body
  | .typeCase _ branches elseBody => typeBranchesFlat branches && optFlat elseBody

/-- Every `ELSIF` body leads to simple statements only. -/
def elsifsFlat : List (HirExpr × List HirStmt) → Bool
  | [] => true
  | (_, body) :: rest => flat body && elsifsFlat rest

/-- The optional body leads to simple statements only. -/
def optFlat : Option (List HirStmt) → Bool
  | none => true
  | some body => flat body

/-- Every `CASE` branch leads to simple statements only. -/
def branchesFlat : List HirCaseBranch → Bool
  | [] => true
  | ⟨_, body⟩ :: rest => flat body && branchesFlat rest

/-- Every `TYPECASE` branch leads to simple statements only. -/
def typeBranchesFlat : List HirTypeCaseBranch → Bool
  | [] => true
  | ⟨_, _, body⟩ :: rest => flat body && typeBranchesFlat rest

/-- Every `EXCEPT` clause leads to simple statements only. -/
def clausesFlat : List HirExceptClause → Bool
  | [] => true
  | ⟨_, _, body⟩ :: rest => flat body && clausesFlat rest

end

theorem elsifsFlat_eq (es : List (HirExpr × List HirStmt)) :
    elsifsFlat es = (es.map fun e => flat e.2).all id := by
  induction es with
  | nil => rfl
  | cons e es ih => rw [elsifsFlat, ih, map_cons, all_cons, id]

theorem branchesFlat_eq (bs : List HirCaseBranch) :
    branchesFlat bs = (bs.map fun b => flat b.body).all id := by
  induction bs with
  | nil => rfl
  | cons b bs ih =>
    obtain ⟨labels, body⟩ := b
    rw [branchesFlat, ih, map_cons, all_cons, id]

theorem typeBranchesFlat_eq (bs : List HirTypeCaseBranch) :
    typeBranchesFlat bs = (bs.map fun b => flat b.body).all id := by
  induction bs with
  | nil => rfl
  | cons b bs ih =>
    obtain ⟨types, var, body⟩ := b
    rw [typeBranchesFlat, ih, map_cons, all_cons, id]

theorem clausesFlat_eq (cs : List HirExceptClause) :
    clausesFlat cs = (cs.map fun c => flat c.body).all id := by
  induction cs with
  | nil => rfl
  | cons c cs ih =>
    obtain ⟨exception, var, body⟩ := c
    rw [clausesFlat, ih, map_cons, all_cons, id]

/-! ## The whole body -/

/-- Every statement stored in the blocks is simple. -/
def FlatBlocks (G : List BasicBlock) : Prop :=
  ∀ b ∈ G, ∀ s ∈ b.stmts, s.kind.isSimple = true

/-- The statements are simple, and the switches do not matter. -/
def flatCheck : BlockCheck :=
  ⟨fun s => s.kind.isSimple, fun _ => true, fun _ _ _ => rfl, fun _ _ _ _ => rfl⟩

theorem flatCheck_term (t : Terminator) : flatCheck.term t = true := by
  cases t <;> rfl

theorem passes_flatCheck (st : CfgBuilder) : flatCheck.Passes st ↔ FlatBlocks st.blocks := by
  simp only [BlockCheck.Passes, BlockCheck.Holds, flatCheck_term, implies_true, and_true]
  rfl

theorem adds_flatOpt {o : Option (List HirStmt)}
    (h : ∀ b ∈ o, (lowerStmts b).Adds flatCheck (flat b)) :
    ∀ k ∈ optLowering o, Lowering.Adds flatCheck k (optFlat o) := by
  cases o with
  | none => simp [optLowering]
  | some b =>
    rintro k hk
    cases hk
    exact h b rfl

theorem optFlat_of_none {o : Option (List HirStmt)} (h : optLowering o = none) :
    optFlat o = true := by
  cases o with
  | none => rfl
  | some b => simp [optLowering] at h

/-- What each construct stores. -/
theorem lowering_adds_flat :
    HirStmt.Cases (fun ss => (lowerStmts ss).Adds flatCheck (flat ss))
      (fun s => (lowerKind s.kind s.loc).Adds flatCheck (kindFlat s.kind)) where
  nil := adds_ok
  cons s ss hs hss := by
    intro st st' hinv ho h
    obtain ⟨kind, loc⟩ := s
    obtain ⟨st₁, h₁, h₂⟩ := (lowerStmts_cons_eq_ok ho).mp h
    have ho₁ : st₁.isOpen = kindEndsOpen kind := lowerKind_opens kind loc st st₁ hinv ho h₁
    have k₁ := hs st st₁ hinv ho h₁
    cases hk : kindEndsOpen kind with
    | true =>
      have hinv₁ := (lowerKind_sound kind loc st st₁ hinv h₁).scope.inv
      rw [hss st₁ st' hinv₁ (ho₁.trans hk) h₂, k₁]
      simp [flat, hk, and_assoc]
    | false =>
      rw [lowerStmts_closed (ho₁.trans hk)] at h₂
      cases h₂
      rw [k₁]
      simp [flat, hk]
  empty _ := adds_ok
  assign _ _ _ := adds_push _
  procCall _ _ _ := adds_push _
  ifStmt cond thenBody elsifs elseBody loc hthen helsifs helse := by
    change (lowerIf cond (lowerStmts thenBody) (elsifLowerings elsifs)
      (optLowering elseBody)).Adds flatCheck _
    rw [kindFlat, elsifsFlat_eq]
    refine adds_if (lowerStmts_sound thenBody) (sound_elsifs elsifs) hthen ?_
      (adds_flatOpt helse) optFlat_of_none
    rw [elsifLowerings_eq]
    exact forall₂_map_map helsifs
  caseStmt expr branches elseBody loc hb helse := by
    change (lowerCase expr (branchLowerings branches) (optLowering elseBody)).Adds flatCheck _
    rw [kindFlat, branchesFlat_eq, lowerCase_eq]
    refine adds_switch (sound_caseArms branches) ?_ (forall₂_map_map hb) (adds_flatOpt helse)
      optFlat_of_none
    rw [caseArms, forall_mem_map]
    exact fun b _ => rfl
  whileStmt _ _ _ h := adds_while h
  repeatStmt _ _ _ h := adds_repeat h
  forStmt _ _ _ _ _ _ body _ h := adds_for (lowerStmts_sound body) h
  loop _ _ h := adds_loop h
  ret _ _ := adds_leave rfl
  exit _ := adds_exit
  raise _ _ := adds_leave rfl
  retry _ := adds_push _
  tryStmt body excepts finallyBody loc hb hc _ := by
    change (lowerTry (lowerStmts body) (clauseLowerings excepts) finallyBody).Adds flatCheck _
    rw [kindFlat, clausesFlat_eq]
    refine adds_try (lowerStmts_sound body) (sound_clauses excepts) hb ?_
    rw [clauseLowerings_eq]
    exact forall₂_map_map hc
  lock _ body _ h := adds_lock (lowerStmts_sound body) h
  typeCase expr branches elseBody loc hb helse := by
    change (lowerTypecase expr (typeBranchLowerings branches)
      (optLowering elseBody)).Adds flatCheck _
    rw [kindFlat, typeBranchesFlat_eq, lowerTypecase_eq]
    refine adds_switch (sound_typeArms expr branches) ?_ (forall₂_map_map hb)
      (adds_flatOpt helse) optFlat_of_none
    rw [typeArms, forall_mem_map]
    intro b _
    cases hv : b.var <;> rfl

/-- Every statement of the graph is an assignment, a call or empty exactly if the lowered part
of the body has no `RETRY` and its `FINALLY` parts are made of such statements. -/
theorem flatBlocks_iff_flat {body : List HirStmt} {cfg : Cfg} (h : buildCfg body = .ok cfg) :
    FlatBlocks cfg.blocks ↔ flat body = true := by
  obtain ⟨st, h₁, _, hblocks, _⟩ := buildCfg_eq_ok h
  have hclose : ∀ b : BasicBlock, b.close.stmts = b.stmts := fun b => by
    rw [BasicBlock.close]
    split <;> rfl
  have hsame : FlatBlocks (st.blocks.map BasicBlock.close) ↔ flatCheck.Passes st := by
    simp only [passes_flatCheck, FlatBlocks, forall_mem_map, hclose]
  rw [hblocks, hsame, lowering_adds_flat.stmts body _ _ CfgBuilder.inv_new rfl h₁, passes_flatCheck]
  simp [FlatBlocks, CfgBuilder.new]

/-- `LOOP TRY x := 1 FINALLY y := 2 END; EXIT END`. -/
def loopedFinally : List HirStmt :=
  [⟨.loop
    [⟨.tryStmt [assignVar "x" 0 (intExpr 1)] [] (some [assignVar "y" 0 (intExpr 2)]), .cfg⟩,
     ⟨.exit, .cfg⟩], .cfg⟩]

theorem flatBlocks_loopedFinally :
    ∃ cfg, buildCfg loopedFinally = .ok cfg ∧ FlatBlocks cfg.blocks := by
  obtain ⟨cfg, h⟩ := @buildCfg_total loopedFinally rfl rfl
  exact ⟨cfg, h, (flatBlocks_iff_flat h).mpr rfl⟩

/-- `TRY x := 1 FINALLY IF TRUE THEN y := 2 END END`. -/
def branchingFinally : List HirStmt :=
  [⟨.tryStmt [assignVar "x" 0 (intExpr 1)] []
    (some [⟨.ifStmt (boolCond true) [assignVar "y" 0 (intExpr 2)] [] none, .cfg⟩]), .cfg⟩]

/-- The `IF` of a `FINALLY` part is stored as it stands. -/
theorem not_flatBlocks_branchingFinally :
    ∃ cfg, buildCfg branchingFinally = .ok cfg ∧ ¬ FlatBlocks cfg.blocks := by
  refine ⟨_, rfl, fun h => ?_⟩
  have hif := h ⟨2, _, some (.raise none), none⟩ (by exact mem_of_getElem? (i := 2) rfl) _
    (mem_singleton_self _)
  cases hif

end Mx

import Mx.Cfg.BlockCheck
import Mx.Cfg.Runs
import Mx.Cfg.Verify

/-!
# When CFG construction succeeds

`endsOpen` says whether lowering a statement list leaves the builder open, and
`buildable` whether the code that is lowered has a shape the builder and the
verifier accept: a `CASE` or `TYPECASE` has a branch and every branch a label, and
a catch-all clause of a `TRY` is the last one. `buildCfg` succeeds exactly on
these bodies.
-/

namespace Mx

open Mx.Core List

/-! ## Syntactic conditions -/

mutual

/-- Lowering the list leaves the builder open. -/
def endsOpen : List HirStmt → Bool
  | [] => true
  | ⟨kind, _⟩ :: ss => kindEndsOpen kind && endsOpen ss

/-- Lowering a statement of this form leaves the builder open. -/
def kindEndsOpen : HirStmtKind → Bool
  | .empty => true
  | .assign _ _ => true
  | .procCall _ _ => true
  | .ifStmt _ thenBody elsifs elseBody =>
    endsOpen thenBody || elsifsEndOpen elsifs || elseEndsOpen elseBody
  | .caseStmt _ branches elseBody => branchesEndOpen branches || elseEndsOpen elseBody
  | .whileStmt _ _ => true
  | .repeatStmt _ _ => true
  | .forStmt _ _ _ _ _ _ _ => true
  | .loop _ => true
  | .ret _ => false
  | .exit => false
  | .raise _ => false
  | .retry => true
  | .tryStmt body excepts finallyBody =>
    finallyBody.isSome || endsOpen body || clausesEndOpen excepts
  | .lock _ body => endsOpen body
  | .typeCase _ branches elseBody => typeBranchesEndOpen branches || elseEndsOpen elseBody

/-- Some `ELSIF` body leaves the builder open. -/
def elsifsEndOpen : List (HirExpr × List HirStmt) → Bool
  | [] => false
  | (_, body) :: rest => endsOpen body || elsifsEndOpen rest

/-- A missing `ELSE` leaves the builder open. -/
def elseEndsOpen : Option (List HirStmt) → Bool
  | none => true
  | some body => endsOpen body

/-- Some `CASE` branch leaves the builder open. -/
def branchesEndOpen : List HirCaseBranch → Bool
  | [] => false
  | ⟨_, body⟩ :: rest => endsOpen body || branchesEndOpen rest

/-- Some `TYPECASE` branch leaves the builder open. -/
def typeBranchesEndOpen : List HirTypeCaseBranch → Bool
  | [] => false
  | ⟨_, _, body⟩ :: rest => endsOpen body || typeBranchesEndOpen rest

/-- Some `EXCEPT` clause leaves the builder open. -/
def clausesEndOpen : List HirExceptClause → Bool
  | [] => false
  | ⟨_, _, body⟩ :: rest => endsOpen body || clausesEndOpen rest

end

mutual

/-- The lowered part of the list has only shapes that CFG construction accepts. -/
def buildable : List HirStmt → Bool
  | [] => true
  | ⟨kind, _⟩ :: ss => kindBuildable kind && (!kindEndsOpen kind || buildable ss)

/-- A statement of this form is accepted. -/
def kindBuildable : HirStmtKind → Bool
  | .empty => true
  | .assign _ _ => true
  | .procCall _ _ => true
  | .ifStmt _ thenBody elsifs elseBody =>
    buildable thenBody && elsifsBuildable elsifs && elseBuildable elseBody
  | .caseStmt _ branches elseBody =>
    !branches.isEmpty && branchesBuildable branches && elseBuildable elseBody
  | .whileStmt _ body => buildable body
  | .repeatStmt body _ => buildable body
  | .forStmt _ _ _ _ _ _ body => buildable body
  | .loop body => buildable body
  | .ret _ => true
  | .exit => true
  | .raise _ => true
  | .retry => true
  | .tryStmt body excepts _ =>
    buildable body && catchAllLast (excepts.map HirExceptClause.exception) &&
      clausesBuildable excepts
  | .lock _ body => buildable body
  | .typeCase _ branches elseBody =>
    !branches.isEmpty && typeBranchesBuildable branches && elseBuildable elseBody

/-- Every `ELSIF` body is accepted. -/
def elsifsBuildable : List (HirExpr × List HirStmt) → Bool
  | [] => true
  | (_, body) :: rest => buildable body && elsifsBuildable rest

/-- The `ELSE` body is accepted. -/
def elseBuildable : Option (List HirStmt) → Bool
  | none => true
  | some body => buildable body

/-- Every `CASE` branch has a label and an accepted body. -/
def branchesBuildable : List HirCaseBranch → Bool
  | [] => true
  | ⟨labels, body⟩ :: rest => !labels.isEmpty && buildable body && branchesBuildable rest

/-- Every `TYPECASE` branch has a type and an accepted body. -/
def typeBranchesBuildable : List HirTypeCaseBranch → Bool
  | [] => true
  | ⟨types, _, body⟩ :: rest => !types.isEmpty && buildable body && typeBranchesBuildable rest

/-- Every `EXCEPT` body is accepted. -/
def clausesBuildable : List HirExceptClause → Bool
  | [] => true
  | ⟨_, _, body⟩ :: rest => buildable body && clausesBuildable rest

end

mutual

/-- Every `EXIT` is inside a loop statement, given whether the list itself is. -/
def exitsInLoops (inLoop : Bool) : List HirStmt → Bool
  | [] => true
  | ⟨kind, _⟩ :: ss => kindExitsInLoops inLoop kind && exitsInLoops inLoop ss

/-- Every `EXIT` in a statement of this form is inside a loop statement. -/
def kindExitsInLoops (inLoop : Bool) : HirStmtKind → Bool
  | .empty => true
  | .assign _ _ => true
  | .procCall _ _ => true
  | .ifStmt _ thenBody elsifs elseBody =>
    exitsInLoops inLoop thenBody && elsifsExitsInLoops inLoop elsifs &&
      optExitsInLoops inLoop elseBody
  | .caseStmt _ branches elseBody =>
    branchesExitsInLoops inLoop branches && optExitsInLoops inLoop elseBody
  | .whileStmt _ body => exitsInLoops true body
  | .repeatStmt body _ => exitsInLoops true body
  | .forStmt _ _ _ _ _ _ body => exitsInLoops true body
  | .loop body => exitsInLoops true body
  | .ret _ => true
  | .exit => inLoop
  | .raise _ => true
  | .retry => true
  | .tryStmt body excepts finallyBody =>
    exitsInLoops inLoop body && clausesExitsInLoops inLoop excepts &&
      optExitsInLoops inLoop finallyBody
  | .lock _ body => exitsInLoops inLoop body
  | .typeCase _ branches elseBody =>
    typeBranchesExitsInLoops inLoop branches && optExitsInLoops inLoop elseBody

/-- Every `EXIT` in an `ELSIF` body is inside a loop statement. -/
def elsifsExitsInLoops (inLoop : Bool) : List (HirExpr × List HirStmt) → Bool
  | [] => true
  | (_, body) :: rest => exitsInLoops inLoop body && elsifsExitsInLoops inLoop rest

/-- Every `EXIT` in an optional body is inside a loop statement. -/
def optExitsInLoops (inLoop : Bool) : Option (List HirStmt) → Bool
  | none => true
  | some body => exitsInLoops inLoop body

/-- Every `EXIT` in a `CASE` branch is inside a loop statement. -/
def branchesExitsInLoops (inLoop : Bool) : List HirCaseBranch → Bool
  | [] => true
  | ⟨_, body⟩ :: rest => exitsInLoops inLoop body && branchesExitsInLoops inLoop rest

/-- Every `EXIT` in a `TYPECASE` branch is inside a loop statement. -/
def typeBranchesExitsInLoops (inLoop : Bool) : List HirTypeCaseBranch → Bool
  | [] => true
  | ⟨_, _, body⟩ :: rest => exitsInLoops inLoop body && typeBranchesExitsInLoops inLoop rest

/-- Every `EXIT` in an `EXCEPT` clause is inside a loop statement. -/
def clausesExitsInLoops (inLoop : Bool) : List HirExceptClause → Bool
  | [] => true
  | ⟨_, _, body⟩ :: rest => exitsInLoops inLoop body && clausesExitsInLoops inLoop rest

end

/-! ### The helpers as list operations -/

theorem elsifsEndOpen_eq (es : List (HirExpr × List HirStmt)) :
    elsifsEndOpen es = (es.map fun e => endsOpen e.2).any id := by
  induction es with
  | nil => rfl
  | cons e es ih => rw [elsifsEndOpen, ih, map_cons, any_cons, id]

theorem branchesEndOpen_eq (bs : List HirCaseBranch) :
    branchesEndOpen bs = (bs.map fun b => endsOpen b.body).any id := by
  induction bs with
  | nil => rfl
  | cons b bs ih =>
    obtain ⟨labels, body⟩ := b
    rw [branchesEndOpen, ih, map_cons, any_cons, id]

theorem typeBranchesEndOpen_eq (bs : List HirTypeCaseBranch) :
    typeBranchesEndOpen bs = (bs.map fun b => endsOpen b.body).any id := by
  induction bs with
  | nil => rfl
  | cons b bs ih =>
    obtain ⟨types, var, body⟩ := b
    rw [typeBranchesEndOpen, ih, map_cons, any_cons, id]

theorem clausesEndOpen_eq (cs : List HirExceptClause) :
    clausesEndOpen cs = (cs.map fun c => endsOpen c.body).any id := by
  induction cs with
  | nil => rfl
  | cons c cs ih =>
    obtain ⟨exception, var, body⟩ := c
    rw [clausesEndOpen, ih, map_cons, any_cons, id]

theorem elsifsBuildable_iff {es : List (HirExpr × List HirStmt)} :
    elsifsBuildable es = true ↔ ∀ e ∈ es, buildable e.2 = true := by
  induction es with
  | nil => simp [elsifsBuildable]
  | cons e es ih => rw [elsifsBuildable, Bool.and_eq_true, ih, forall_mem_cons]

variable {o : Option (List HirStmt)}

theorem elseBuildable_iff : elseBuildable o = true ↔ ∀ b ∈ o, buildable b = true := by
  cases o <;> simp [elseBuildable]

theorem branchesBuildable_iff {bs : List HirCaseBranch} :
    branchesBuildable bs = true ↔ ∀ b ∈ bs, b.labels ≠ [] ∧ buildable b.body = true := by
  induction bs with
  | nil => simp [branchesBuildable]
  | cons b bs ih =>
    obtain ⟨labels, body⟩ := b
    rw [branchesBuildable, Bool.and_eq_true, Bool.and_eq_true, ih, forall_mem_cons]
    simp

theorem typeBranchesBuildable_iff {bs : List HirTypeCaseBranch} :
    typeBranchesBuildable bs = true ↔ ∀ b ∈ bs, b.types ≠ [] ∧ buildable b.body = true := by
  induction bs with
  | nil => simp [typeBranchesBuildable]
  | cons b bs ih =>
    obtain ⟨types, var, body⟩ := b
    rw [typeBranchesBuildable, Bool.and_eq_true, Bool.and_eq_true, ih, forall_mem_cons]
    simp

theorem clausesBuildable_iff {cs : List HirExceptClause} :
    clausesBuildable cs = true ↔ ∀ c ∈ cs, buildable c.body = true := by
  induction cs with
  | nil => simp [clausesBuildable]
  | cons c cs ih =>
    obtain ⟨exception, var, body⟩ := c
    rw [clausesBuildable, Bool.and_eq_true, ih, forall_mem_cons]

variable {l : Bool}

theorem elsifsExitsInLoops_iff {es : List (HirExpr × List HirStmt)} :
    elsifsExitsInLoops l es = true ↔ ∀ e ∈ es, exitsInLoops l e.2 = true := by
  induction es with
  | nil => simp [elsifsExitsInLoops]
  | cons e es ih => rw [elsifsExitsInLoops, Bool.and_eq_true, ih, forall_mem_cons]

theorem optExitsInLoops_iff : optExitsInLoops l o = true ↔ ∀ b ∈ o, exitsInLoops l b = true := by
  cases o <;> simp [optExitsInLoops]

theorem branchesExitsInLoops_iff {bs : List HirCaseBranch} :
    branchesExitsInLoops l bs = true ↔ ∀ b ∈ bs, exitsInLoops l b.body = true := by
  induction bs with
  | nil => simp [branchesExitsInLoops]
  | cons b bs ih =>
    obtain ⟨labels, body⟩ := b
    rw [branchesExitsInLoops, Bool.and_eq_true, ih, forall_mem_cons]

theorem typeBranchesExitsInLoops_iff {bs : List HirTypeCaseBranch} :
    typeBranchesExitsInLoops l bs = true ↔ ∀ b ∈ bs, exitsInLoops l b.body = true := by
  induction bs with
  | nil => simp [typeBranchesExitsInLoops]
  | cons b bs ih =>
    obtain ⟨types, var, body⟩ := b
    rw [typeBranchesExitsInLoops, Bool.and_eq_true, ih, forall_mem_cons]

theorem clausesExitsInLoops_iff {cs : List HirExceptClause} :
    clausesExitsInLoops l cs = true ↔ ∀ c ∈ cs, exitsInLoops l c.body = true := by
  induction cs with
  | nil => simp [clausesExitsInLoops]
  | cons c cs ih =>
    obtain ⟨exception, var, body⟩ := c
    rw [clausesExitsInLoops, Bool.and_eq_true, ih, forall_mem_cons]

/-! ## Whether the builder stays open -/

variable {st : CfgBuilder}

theorem lowerStmts_closed (h : st.isOpen = false) (ss : List HirStmt) :
    lowerStmts ss st = .ok st := by
  induction ss with
  | nil => rfl
  | cons s ss ih =>
    simp only [lowerStmts, bind_eq_ok]
    exact ⟨st, lowerStmt_closed h s, ih⟩

/-- In an open builder a statement list lowers its head by its form. -/
theorem lowerStmts_cons_eq_ok {kind : HirStmtKind} {loc : SourceLoc} {ss : List HirStmt}
    {st' : CfgBuilder} (ho : st.isOpen = true) :
    lowerStmts (⟨kind, loc⟩ :: ss) st = .ok st' ↔
      ∃ st₁, lowerKind kind loc st = .ok st₁ ∧ lowerStmts ss st₁ = .ok st' := by
  simp [lowerStmts, lowerStmt, bind_eq_ok, ho]

theorem opens_push (s : HirStmt) : Lowering.Opens (fun st => .ok (st.pushStmt s)) true := by
  intro st st' _ ho hs
  cases hs
  simpa [CfgBuilder.isOpen] using ho

theorem opens_leave (t : Terminator) : Lowering.Opens (fun st => st.sealBlock t) false := by
  intro st st' _ _ hs
  exact CfgBuilder.isOpen_eq_false_iff.mpr (CfgBuilder.sealBlock_current hs)

theorem forall₂_map_map {α β γ : Type} {R : β → γ → Prop} {as : List α} {f : α → β} {g : α → γ}
    (h : ∀ a ∈ as, R (f a) (g a)) : List.Forall₂ R (as.map f) (as.map g) := by
  rw [forall₂_map_left_iff, forall₂_map_right_iff, forall₂_same]
  exact h

/-- Every body that is a mapped statement list is sound. -/
theorem sound_elsifs (es : List (HirExpr × List HirStmt)) :
    ∀ e ∈ elsifLowerings es, Lowering.Sound e.2 := by
  rw [elsifLowerings_eq, forall_mem_map]
  exact fun e _ => lowerStmts_sound e.2

theorem sound_opt (o : Option (List HirStmt)) : ∀ k ∈ optLowering o, Lowering.Sound k := by
  rw [optLowering_eq]
  rintro k hk
  obtain ⟨b, _, rfl⟩ := Option.mem_map.mp hk
  exact lowerStmts_sound b

theorem sound_clauses (cs : List HirExceptClause) :
    ∀ c ∈ clauseLowerings cs, c.body.Sound := by
  rw [clauseLowerings_eq, forall_mem_map]
  exact fun c _ => lowerStmts_sound c.body

/-- The arms of a `CASE` statement. -/
def caseArms (bs : List HirCaseBranch) : List Arm :=
  bs.map fun b => ⟨b.labels.map HirCaseLabel.toLabel, [], lowerStmts b.body⟩

/-- The arms of a `TYPECASE` statement. -/
def typeArms (expr : HirExpr) (bs : List HirTypeCaseBranch) : List Arm :=
  bs.map fun b => ⟨b.types.map fun sym => .type sym b.var, typeBinding expr b.var,
    lowerStmts b.body⟩

theorem lowerCase_eq (expr : HirExpr) (bs : List HirCaseBranch) (o : Option (List HirStmt)) :
    lowerCase expr (branchLowerings bs) (optLowering o) =
      lowerSwitch expr (caseArms bs) (optLowering o) := by
  rw [lowerCase, branchLowerings_eq, map_map]
  rfl

theorem lowerTypecase_eq (expr : HirExpr) (bs : List HirTypeCaseBranch)
    (o : Option (List HirStmt)) :
    lowerTypecase expr (typeBranchLowerings bs) (optLowering o) =
      lowerSwitch expr (typeArms expr bs) (optLowering o) := by
  rw [lowerTypecase, typeBranchLowerings_eq, map_map]
  rfl

theorem sound_caseArms (bs : List HirCaseBranch) : ∀ a ∈ caseArms bs, a.body.Sound := by
  rw [caseArms, forall_mem_map]
  exact fun b _ => lowerStmts_sound b.body

theorem sound_typeArms (expr : HirExpr) (bs : List HirTypeCaseBranch) :
    ∀ a ∈ typeArms expr bs, a.body.Sound := by
  rw [typeArms, forall_mem_map]
  exact fun b _ => lowerStmts_sound b.body

theorem opens_opt (h : ∀ b ∈ o, (lowerStmts b).Opens (endsOpen b)) :
    ∀ k ∈ optLowering o, Lowering.Opens k (elseEndsOpen o) := by
  cases o with
  | none => simp [optLowering]
  | some b =>
    rintro k hk
    cases hk
    exact h b rfl

theorem elseEndsOpen_of_none (h : optLowering o = none) : elseEndsOpen o = true := by
  cases o with
  | none => rfl
  | some b => simp [optLowering] at h

/-- Whether each construct leaves the builder open. -/
theorem lowering_opens_cases :
    HirStmt.Cases (fun ss => (lowerStmts ss).Opens (endsOpen ss))
      (fun s => (lowerKind s.kind s.loc).Opens (kindEndsOpen s.kind)) where
  nil st st' _ ho hs := by
    cases hs
    exact ho
  cons s ss hs hss := by
    intro st st' hinv ho h
    obtain ⟨kind, loc⟩ := s
    obtain ⟨st₁, h₁, h₂⟩ := (lowerStmts_cons_eq_ok ho).mp h
    have ho₁ : st₁.isOpen = kindEndsOpen kind := hs st st₁ hinv ho h₁
    rw [endsOpen]
    cases hk : kindEndsOpen kind with
    | true =>
      exact hss st₁ st' (lowerKind_sound kind loc st st₁ hinv h₁).scope.inv (ho₁.trans hk) h₂
    | false =>
      rw [lowerStmts_closed (ho₁.trans hk)] at h₂
      cases h₂
      exact ho₁.trans hk
  empty _ st st' _ ho hs := by
    cases hs
    exact ho
  assign _ _ _ := opens_push _
  procCall _ _ _ := opens_push _
  ifStmt cond thenBody elsifs elseBody loc hthen helsifs helse := by
    change (lowerIf cond (lowerStmts thenBody) (elsifLowerings elsifs)
      (optLowering elseBody)).Opens _
    rw [kindEndsOpen, elsifsEndOpen_eq]
    refine lowerIf_opens (lowerStmts_sound thenBody) (sound_elsifs elsifs) (sound_opt elseBody)
      hthen ?_ (opens_opt helse) elseEndsOpen_of_none
    rw [elsifLowerings_eq]
    exact forall₂_map_map helsifs
  caseStmt expr branches elseBody loc hb helse := by
    change (lowerCase expr (branchLowerings branches) (optLowering elseBody)).Opens _
    rw [kindEndsOpen, branchesEndOpen_eq, lowerCase_eq]
    exact lowerSwitch_opens (sound_caseArms branches) (sound_opt elseBody) (forall₂_map_map hb)
      (opens_opt helse) elseEndsOpen_of_none
  whileStmt _ _ _ _ := lowerWhile_opens
  repeatStmt _ _ _ _ := lowerRepeat_opens
  forStmt _ _ _ _ _ _ _ _ _ := lowerFor_opens
  loop _ _ _ := lowerLoop_opens
  ret _ _ := opens_leave _
  exit _ := lowerExit_opens
  raise _ _ := opens_leave _
  retry _ := opens_push _
  tryStmt body excepts finallyBody loc hb hc _ := by
    change (lowerTry (lowerStmts body) (clauseLowerings excepts) finallyBody).Opens _
    rw [kindEndsOpen, clausesEndOpen_eq]
    refine lowerTry_opens (lowerStmts_sound body) (sound_clauses excepts) hb ?_
    rw [clauseLowerings_eq]
    exact forall₂_map_map hc
  lock _ _ _ hb := lowerLock_opens hb
  typeCase expr branches elseBody loc hb helse := by
    change (lowerTypecase expr (typeBranchLowerings branches) (optLowering elseBody)).Opens _
    rw [kindEndsOpen, typeBranchesEndOpen_eq, lowerTypecase_eq]
    exact lowerSwitch_opens (sound_typeArms expr branches) (sound_opt elseBody)
      (forall₂_map_map hb) (opens_opt helse) elseEndsOpen_of_none

theorem lowerKind_opens (kind : HirStmtKind) (loc : SourceLoc) :
    (lowerKind kind loc).Opens (kindEndsOpen kind) :=
  lowering_opens_cases.stmt ⟨kind, loc⟩

/-! ## Buildable bodies are lowered -/

theorem total_push (s : HirStmt) :
    Lowering.Total (fun st => .ok (st.pushStmt s)) l := fun _ _ _ _ => ⟨_, rfl⟩

theorem total_leave (t : Terminator) : Lowering.Total (fun st => st.sealBlock t) l :=
  fun _ hinv ho _ => hinv.exists_seal ho t

theorem total_opt (h : ∀ b ∈ o, (lowerStmts b).Total l) :
    ∀ k ∈ optLowering o, Lowering.Total k l := by
  rw [optLowering_eq]
  rintro k hk
  obtain ⟨b, hb, rfl⟩ := Option.mem_map.mp hk
  exact h b hb

/-- Each construct can be lowered if the exits are in loops and its shape is accepted. -/
theorem lowering_total_cases :
    HirStmt.Cases
      (fun ss => ∀ l, exitsInLoops l ss = true → buildable ss = true → (lowerStmts ss).Total l)
      (fun s => ∀ l, kindExitsInLoops l s.kind = true → kindBuildable s.kind = true →
        (lowerKind s.kind s.loc).Total l) where
  nil l _ _ := total_ok l
  cons s ss hs hss l hx hb := by
    obtain ⟨kind, loc⟩ := s
    simp only [exitsInLoops, buildable, Bool.and_eq_true, Bool.or_eq_true,
      Bool.not_eq_true'] at hx hb
    intro st hinv ho hloop
    obtain ⟨st₁, h₁⟩ := hs l hx.1 hb.1 st hinv ho hloop
    have w := lowerKind_sound kind loc st st₁ hinv h₁
    have ho₁ := lowerKind_opens kind loc st st₁ hinv ho h₁
    rcases hb.2 with hclosed | hb'
    · exact ⟨st₁, (lowerStmts_cons_eq_ok ho).mpr
        ⟨st₁, h₁, lowerStmts_closed (ho₁.trans hclosed) ss⟩⟩
    · cases hk : kindEndsOpen kind with
      | false =>
        exact ⟨st₁, (lowerStmts_cons_eq_ok ho).mpr
          ⟨st₁, h₁, lowerStmts_closed (ho₁.trans hk) ss⟩⟩
      | true =>
        obtain ⟨st₂, h₂⟩ := hss l hx.2 hb' st₁ w.scope.inv (ho₁.trans hk)
          (by rw [w.exits]; exact hloop)
        exact ⟨st₂, (lowerStmts_cons_eq_ok ho).mpr ⟨st₁, h₁, h₂⟩⟩
  empty _ l _ _ := total_ok l
  assign _ _ _ _ _ _ := total_push _
  procCall _ _ _ _ _ _ := total_push _
  ifStmt cond thenBody elsifs elseBody loc hthen helsifs helse l hx hb := by
    simp only [kindExitsInLoops, kindBuildable, Bool.and_eq_true, elsifsExitsInLoops_iff,
      optExitsInLoops_iff, elsifsBuildable_iff, elseBuildable_iff] at hx hb
    refine lowerIf_total (lowerStmts_sound thenBody) (sound_elsifs elsifs) (sound_opt elseBody)
      (hthen l hx.1.1 hb.1.1) ?_ (total_opt fun b h => helse b h l (hx.2 b h) (hb.2 b h))
    rw [elsifLowerings_eq, forall_mem_map]
    exact fun e he => helsifs e he l (hx.1.2 e he) (hb.1.2 e he)
  caseStmt expr branches elseBody loc hbs helse l hx hb := by
    simp only [kindExitsInLoops, kindBuildable, Bool.and_eq_true, branchesExitsInLoops_iff,
      optExitsInLoops_iff, branchesBuildable_iff, elseBuildable_iff] at hx hb
    change (lowerCase expr (branchLowerings branches) (optLowering elseBody)).Total l
    rw [lowerCase_eq]
    refine lowerSwitch_total (sound_caseArms branches) (sound_opt elseBody) ?_
      (total_opt fun b h => helse b h l (hx.2 b h) (hb.2 b h))
    rw [caseArms, forall_mem_map]
    exact fun b h => hbs b h l (hx.1 b h) (hb.1.2 b h).2
  whileStmt _ body _ h l hx hb := lowerWhile_total (lowerStmts_sound body) (h true hx hb)
  repeatStmt body _ _ h l hx hb := lowerRepeat_total (lowerStmts_sound body) (h true hx hb)
  forStmt _ _ _ _ _ _ body _ h l hx hb := lowerFor_total (lowerStmts_sound body) (h true hx hb)
  loop body _ h l hx hb := lowerLoop_total (lowerStmts_sound body) (h true hx hb)
  ret _ _ _ _ _ := total_leave _
  exit _ l hx _ := by
    obtain rfl : l = true := hx
    exact lowerExit_total
  raise _ _ _ _ _ := total_leave _
  retry _ _ _ _ := total_push _
  tryStmt body excepts finallyBody loc h hc _ l hx hb := by
    simp only [kindExitsInLoops, kindBuildable, Bool.and_eq_true, clausesExitsInLoops_iff,
      clausesBuildable_iff] at hx hb
    refine lowerTry_total (lowerStmts_sound body) (sound_clauses excepts) (h l hx.1.1 hb.1.1) ?_ ?_
    · rw [clauseLowerings_eq, forall_mem_map]
      exact fun c h' => hc c h' l (hx.1.2 c h') (hb.2 c h')
    · rw [clauseLowerings_eq, map_map]
      exact hb.1.2
  lock _ body _ h l hx hb := lowerLock_total (h l hx hb)
  typeCase expr branches elseBody loc hbs helse l hx hb := by
    simp only [kindExitsInLoops, kindBuildable, Bool.and_eq_true, typeBranchesExitsInLoops_iff,
      optExitsInLoops_iff, typeBranchesBuildable_iff, elseBuildable_iff] at hx hb
    change (lowerTypecase expr (typeBranchLowerings branches) (optLowering elseBody)).Total l
    rw [lowerTypecase_eq]
    refine lowerSwitch_total (sound_typeArms expr branches) (sound_opt elseBody) ?_
      (total_opt fun b h => helse b h l (hx.2 b h) (hb.2 b h))
    rw [typeArms, forall_mem_map]
    exact fun b h => hbs b h l (hx.1 b h) (hb.1.2 b h).2

/-! ## Switches of buildable bodies -/

/-- Every switch has an arm and every arm a label. -/
def SwitchesOk (G : List BasicBlock) : Prop :=
  ∀ b ∈ G, ∀ e arms d, b.terminator = some (.switch e arms d) →
    arms ≠ [] ∧ ∀ arm ∈ arms, arm.labels ≠ []

/-- Every statement passes, and the labels of a switch do if it has an arm and every arm one. -/
def switchCheck : BlockCheck where
  stmt _ := true
  labels ls := !ls.isEmpty && ls.all fun l => !l.isEmpty
  assign _ _ _ := rfl
  mutex _ _ _ _ := rfl

theorem switchCheck_labels (arms : List Arm) (hne : arms ≠ [])
    (hlabels : ∀ a ∈ arms, a.labels ≠ []) : switchCheck.labels (arms.map Arm.labels) = true := by
  simpa [switchCheck, hne] using hlabels

theorem switchCheck_stmts (ss : List HirStmt) : switchCheck.stmts ss = true := by
  simp [BlockCheck.stmts, switchCheck]

theorem passes_switchCheck (st : CfgBuilder) : switchCheck.Passes st ↔ SwitchesOk st.blocks := by
  refine forall₂_congr fun b _ => ?_
  constructor
  · intro h e arms d ht
    have hlabels := h.2 _ ht
    simpa [BlockCheck.term, switchCheck] using hlabels
  · intro h
    refine ⟨fun _ _ => rfl, fun t ht => ?_⟩
    cases t with
    | switch e arms d =>
      have hlabels := h e arms d ht
      simpa [BlockCheck.term, switchCheck] using hlabels
    | _ => rfl

theorem adds_switchOpt (h : ∀ b ∈ o, (lowerStmts b).Adds switchCheck true) :
    ∀ k ∈ optLowering o, Lowering.Adds switchCheck k true := by
  rw [optLowering_eq]
  rintro k hk
  obtain ⟨b, hb, rfl⟩ := Option.mem_map.mp hk
  exact h b hb

/-- Each construct of an accepted shape keeps the switches of the graph in order. -/
theorem lowering_adds_switches :
    HirStmt.Cases (fun ss => buildable ss = true → (lowerStmts ss).Adds switchCheck true)
      (fun s => kindBuildable s.kind = true → (lowerKind s.kind s.loc).Adds switchCheck true) where
  nil _ := adds_ok
  cons s ss hs hss hb := by
    obtain ⟨kind, loc⟩ := s
    simp only [buildable, Bool.and_eq_true, Bool.or_eq_true, Bool.not_eq_true'] at hb
    intro st st' hinv ho hrun
    obtain ⟨st₁, h₁, h₂⟩ := (lowerStmts_cons_eq_ok ho).mp hrun
    have k₁ := hs hb.1 st st₁ hinv ho h₁
    have ho₁ := lowerKind_opens kind loc st st₁ hinv ho h₁
    cases hk : kindEndsOpen kind with
    | false =>
      rw [lowerStmts_closed (ho₁.trans hk)] at h₂
      cases h₂
      exact k₁
    | true =>
      have hb' : buildable ss = true := by simpa [hk] using hb.2
      have hinv₁ := (lowerKind_sound kind loc st st₁ hinv h₁).scope.inv
      rw [hss hb' st₁ st' hinv₁ (ho₁.trans hk) h₂, and_iff_left rfl, k₁]
  empty _ _ := adds_ok
  assign _ _ _ _ := adds_push _
  procCall _ _ _ _ := adds_push _
  ifStmt cond thenBody elsifs elseBody loc hthen helsifs helse hb := by
    simp only [kindBuildable, Bool.and_eq_true, elsifsBuildable_iff, elseBuildable_iff] at hb
    refine (adds_if (lowerStmts_sound thenBody) (sound_elsifs elsifs) (hthen hb.1.1)
      (forall₂_true ?_) (adds_switchOpt fun b h => helse b h (hb.2 b h)) fun _ => rfl).congr
        (by simp)
    rw [elsifLowerings_eq, forall_mem_map]
    exact fun e he => helsifs e he (hb.1.2 e he)
  caseStmt expr branches elseBody loc hbs helse hb := by
    simp only [kindBuildable, Bool.and_eq_true, branchesBuildable_iff, elseBuildable_iff] at hb
    change (lowerCase expr (branchLowerings branches) (optLowering elseBody)).Adds switchCheck true
    rw [lowerCase_eq]
    have hlabels := switchCheck_labels (caseArms branches)
      (by simpa [caseArms] using hb.1.1) (by
        rw [caseArms, forall_mem_map]
        exact fun b h => by simpa using (hb.1.2 b h).1)
    refine (adds_switch (sound_caseArms branches) (fun _ _ => switchCheck_stmts _)
      (forall₂_true ?_) (adds_switchOpt fun b h => helse b h (hb.2 b h)) fun _ => rfl).congr
        (by simp [hlabels])
    rw [caseArms, forall_mem_map]
    exact fun b h => hbs b h (hb.1.2 b h).2
  whileStmt _ _ _ h hb := adds_while (h hb)
  repeatStmt _ _ _ h hb := adds_repeat (h hb)
  forStmt _ _ _ _ _ _ body _ h hb := adds_for (lowerStmts_sound body) (h hb)
  loop _ _ h hb := adds_loop (h hb)
  ret _ _ _ := adds_leave rfl
  exit _ _ := adds_exit
  raise _ _ _ := adds_leave rfl
  retry _ _ := adds_push _
  tryStmt body excepts finallyBody loc h hc _ hb := by
    simp only [kindBuildable, Bool.and_eq_true, clausesBuildable_iff] at hb
    refine (adds_try (lowerStmts_sound body) (sound_clauses excepts) (h hb.1.1)
      (forall₂_true ?_)).congr (by simp [switchCheck_stmts])
    rw [clauseLowerings_eq, forall_mem_map]
    exact fun c hm => hc c hm (hb.2 c hm)
  lock _ body _ h hb := adds_lock (lowerStmts_sound body) (h hb)
  typeCase expr branches elseBody loc hbs helse hb := by
    simp only [kindBuildable, Bool.and_eq_true, typeBranchesBuildable_iff, elseBuildable_iff] at hb
    change (lowerTypecase expr (typeBranchLowerings branches) (optLowering elseBody)).Adds
      switchCheck true
    rw [lowerTypecase_eq]
    have hlabels := switchCheck_labels (typeArms expr branches)
      (by simpa [typeArms] using hb.1.1) (by
        rw [typeArms, forall_mem_map]
        exact fun b h => by simpa using (hb.1.2 b h).1)
    refine (adds_switch (sound_typeArms expr branches) (fun _ _ => switchCheck_stmts _)
      (forall₂_true ?_) (adds_switchOpt fun b h => helse b h (hb.2 b h)) fun _ => rfl).congr
        (by simp [hlabels])
    rw [typeArms, forall_mem_map]
    exact fun b h => hbs b h (hb.1.2 b h).2

/-! ## Only buildable bodies pass the verifier -/

variable {G : List BasicBlock} {body : List HirStmt}

/-- A lowered switch has an arm and labels if the final graph passes rules T3 and T5. -/
theorem switch_shape {expr : HirExpr} {arms : List Arm} {st' : CfgBuilder}
    (hinv : st.Inv) (ho : st.isOpen = true)
    (hs : switchEntry expr arms st = .ok st') (hG : Grows st'.blocks G) (hok : SwitchesOk G) :
    arms ≠ [] ∧ ∀ a ∈ arms, a.labels ≠ [] := by
  obtain ⟨c, ss, h, ha⟩ := hinv.exists_at ho
  have hblock := hG.sealed ((ha.newBlocks (2 + arms.length)).sealed hs) rfl
  obtain ⟨hne, hlabels⟩ := hok _ (mem_of_getElem? hblock) _ _ _ rfl
  constructor
  · rintro rfl
    simp at hne
  · intro a ha hnil
    have hmem : a.labels ∈ arms.map Arm.labels := mem_map_of_mem ha
    rw [← labels_zipWith (st.nextId + 2), mem_map] at hmem
    obtain ⟨arm, harm, he⟩ := hmem
    exact hlabels arm harm (he.trans hnil)

theorem Runs.tail {kind : HirStmtKind} {loc : SourceLoc} {ss : List HirStmt} {st : CfgBuilder}
    (r : Runs (lowerStmts (⟨kind, loc⟩ :: ss)) st G) :
    Runs (lowerKind kind loc) st G ∧
      (kindEndsOpen kind = true → ∃ st₁, lowerKind kind loc st = .ok st₁ ∧
        st₁.handlerStack = st.handlerStack ∧ Runs (lowerStmts ss) st₁ G) := by
  obtain ⟨hinv, ho, st', hs, hG⟩ := r
  obtain ⟨st₁, h₁, h₂⟩ := (lowerStmts_cons_eq_ok ho).mp hs
  have w := lowerKind_sound kind loc st st₁ hinv h₁
  have hss := lowerStmts_sound ss st₁ st' w.scope.inv h₂
  refine ⟨⟨hinv, ho, st₁, h₁, hss.grows.trans hG⟩, fun hk => ?_⟩
  exact ⟨st₁, h₁, w.handlers, w.scope.inv, (lowerKind_opens kind loc st st₁ hinv ho h₁).trans hk,
    st', h₂, hG⟩

theorem optLowering_mem {b : List HirStmt} (h : b ∈ o) : lowerStmts b ∈ optLowering o := by
  rw [optLowering_eq]
  exact Option.mem_map_of_mem _ h

/-- Each construct that was lowered into a graph passing T3 and T5 has an accepted shape. -/
theorem buildable_cases (hok : SwitchesOk G) :
    HirStmt.Cases (fun ss => ∀ st, Runs (lowerStmts ss) st G → buildable ss = true)
      (fun s => ∀ st, Runs (lowerKind s.kind s.loc) st G → kindBuildable s.kind = true) where
  nil _ _ := rfl
  cons s ss hs hss st r := by
    obtain ⟨kind, loc⟩ := s
    obtain ⟨r₁, r₂⟩ := r.tail
    rw [buildable, hs st r₁]
    cases hk : kindEndsOpen kind with
    | false => rfl
    | true =>
      obtain ⟨st₁, _, _, r'⟩ := r₂ hk
      simpa using hss st₁ r'
  empty _ _ _ := rfl
  assign _ _ _ _ _ := rfl
  procCall _ _ _ _ _ := rfl
  ifStmt cond thenBody elsifs elseBody loc hthen helsifs helse st r := by
    obtain ⟨_, _, _, _, ⟨s, _, _, rthen⟩, relsifs, relse⟩ := lowerIf_runs
      (lowerStmts_sound thenBody) (sound_elsifs elsifs) (sound_opt elseBody) r
    simp only [kindBuildable, Bool.and_eq_true, elsifsBuildable_iff, elseBuildable_iff]
    refine ⟨⟨hthen s rthen, fun e he => ?_⟩, fun b hb => ?_⟩
    · obtain ⟨i, hi⟩ := getElem?_of_mem he
      obtain ⟨_, _, _, _, s', _, _, _, _, _, r'⟩ := relsifs i (e.1, lowerStmts e.2)
        (by simp [elsifLowerings_eq, hi])
      exact helsifs e he s' r'
    · obtain ⟨_, _, s', _, _, _, r'⟩ := relse _ (optLowering_mem hb)
      exact helse b hb s' r'
  caseStmt expr branches elseBody loc hbs helse st r := by
    change Runs (lowerCase expr (branchLowerings branches) (optLowering elseBody)) st G at r
    rw [lowerCase_eq] at r
    obtain ⟨st₁, _, h₁, _, hG₁, rarms, relse⟩ :=
      lowerSwitch_runs (sound_caseArms branches) (sound_opt elseBody) r
    obtain ⟨hne, hlabels⟩ := switch_shape r.inv r.isOpen h₁ hG₁ hok
    simp only [kindBuildable, Bool.and_eq_true, branchesBuildable_iff, elseBuildable_iff]
    refine ⟨⟨by simpa [caseArms] using hne, fun b hb => ⟨?_, ?_⟩⟩, fun b hb => ?_⟩
    · have := hlabels _ (mem_map_of_mem hb)
      simpa using this
    · obtain ⟨i, hi⟩ := getElem?_of_mem hb
      obtain ⟨_, s', _, _, _, r'⟩ := rarms i _ (by rw [caseArms, getElem?_map, hi]; rfl)
      exact hbs b hb s' r'
    · obtain ⟨s', _, _, r'⟩ := relse _ (optLowering_mem hb)
      exact helse b hb s' r'
  whileStmt _ _ _ h st r := by
    obtain ⟨s, _, _, r'⟩ := lowerWhile_runs r
    exact h s r'
  repeatStmt _ _ _ h st r := by
    obtain ⟨s, _, _, r'⟩ := lowerRepeat_runs r
    exact h s r'
  forStmt _ _ _ _ _ _ body _ h st r := by
    obtain ⟨s, _, _, r'⟩ := lowerFor_runs (lowerStmts_sound body) r
    exact h s r'
  loop _ _ h st r := by
    obtain ⟨s, _, _, r'⟩ := lowerLoop_runs r
    exact h s r'
  ret _ _ _ _ := rfl
  exit _ _ _ := rfl
  raise _ _ _ _ := rfl
  retry _ _ _ := rfl
  tryStmt body excepts finallyBody loc h hc _ st r := by
    obtain ⟨st₁, st₂, st₃, st₄, _, _, _, h₄, _, rbody, rclauses⟩ := lowerTry_runs
      (lowerStmts_sound body) (sound_clauses excepts) r
    have hlast := lowerCatch_catchAllLast h₄
    rw [clauseLowerings_eq, map_map] at hlast
    simp only [kindBuildable, Bool.and_eq_true, clausesBuildable_iff]
    refine ⟨⟨h st₁ rbody, hlast⟩, fun c hc' => ?_⟩
    obtain ⟨i, hi⟩ := getElem?_of_mem hc'
    obtain ⟨_, _, s', _, _, _, _, r'⟩ := rclauses i ⟨c.exception, lowerStmts c.body⟩
      (by simp [clauseLowerings_eq, hi])
    exact hc c hc' s' r'
  lock mutex body loc h st r := h _ (lowerLock_runs (lowerStmts_sound body) r)
  typeCase expr branches elseBody loc hbs helse st r := by
    change Runs (lowerTypecase expr (typeBranchLowerings branches) (optLowering elseBody)) st G at r
    rw [lowerTypecase_eq] at r
    obtain ⟨st₁, _, h₁, _, hG₁, rarms, relse⟩ :=
      lowerSwitch_runs (sound_typeArms expr branches) (sound_opt elseBody) r
    obtain ⟨hne, hlabels⟩ := switch_shape r.inv r.isOpen h₁ hG₁ hok
    simp only [kindBuildable, Bool.and_eq_true, typeBranchesBuildable_iff, elseBuildable_iff]
    refine ⟨⟨by simpa [typeArms] using hne, fun b hb => ⟨?_, ?_⟩⟩, fun b hb => ?_⟩
    · have := hlabels _ (mem_map_of_mem hb)
      simpa using this
    · obtain ⟨i, hi⟩ := getElem?_of_mem hb
      obtain ⟨_, s', _, _, _, r'⟩ := rarms i _ (by rw [typeArms, getElem?_map, hi]; rfl)
      exact hbs b hb s' r'
    · obtain ⟨s', _, _, r'⟩ := relse _ (optLowering_mem hb)
      exact helse b hb s' r'

/-! ## Closing the graph -/

/-- `finish` seals what is open with a plain return. -/
def BasicBlock.close (b : BasicBlock) : BasicBlock :=
  if b.terminator.isSome then b else { b with terminator := some (.ret none) }

namespace BasicBlock

variable (b : BasicBlock)

@[simp] theorem close_id : b.close.id = b.id := by
  unfold close
  split <;> rfl

@[simp] theorem close_handler : b.close.handler = b.handler := by
  unfold close
  split <;> rfl

@[simp] theorem close_stmts : b.close.stmts = b.stmts := by
  unfold close
  split <;> rfl

theorem close_isSome : b.close.terminator.isSome := by
  unfold close
  split
  · assumption
  · rfl

@[simp] theorem close_successors : b.close.successors = b.successors := by
  unfold close
  split
  · rfl
  · rename_i h
    have hn : b.terminator = none := by simpa using h
    simp [successors, hn, Terminator.successors]

theorem close_switch {e : HirExpr} {arms : List SwitchArm} {d : Nat} :
    b.close.terminator = some (.switch e arms d) ↔ b.terminator = some (.switch e arms d) := by
  unfold close
  split
  · rfl
  · rename_i h
    have hn : b.terminator = none := by simpa using h
    simp [hn]

end BasicBlock

theorem grows_close (bs : List BasicBlock) : Grows bs (bs.map BasicBlock.close) := by
  intro i b hb
  refine ⟨b.close, by simp [hb], by simp, by simp, by simp, ?_⟩
  intro ht
  simp [BasicBlock.close, ht]

theorem switchesOk_close {bs : List BasicBlock} :
    SwitchesOk (bs.map BasicBlock.close) ↔ SwitchesOk bs := by
  unfold SwitchesOk
  rw [forall_mem_map]
  simp only [BasicBlock.close_switch]

/-- Finishing succeeds from every reachable builder; the result is well formed exactly if
its switches are. -/
theorem finish_spec (hinv : st.Inv) :
    ∃ cfg, st.finish = .ok cfg ∧ cfg.blocks = st.blocks.map BasicBlock.close ∧
      cfg.entry = 0 ∧ cfg.predsValid = true ∧ cfg.PredsExact ∧
      (cfg.WellFormed ↔ SwitchesOk st.blocks) := by
  have hids : ∀ (i : Nat) (b : BasicBlock), (st.blocks.map BasicBlock.close)[i]? = some b →
      b.id = i := by
    intro i b hb
    rw [getElem?_map, Option.map_eq_some_iff] at hb
    obtain ⟨b₀, hb₀, rfl⟩ := hb
    simpa using hinv.ids i b₀ hb₀
  have htargets : ∀ b ∈ st.blocks.map BasicBlock.close, ∀ s ∈ b.successors,
      0 < s ∧ s < (st.blocks.map BasicBlock.close).length := by
    rw [forall_mem_map]
    intro b hb s hs
    obtain ⟨i, hi⟩ := getElem?_of_mem hb
    have := hinv.targets i b hi s (by simpa using hs)
    simpa [CfgBuilder.nextId] using this
  obtain ⟨preds, hpreds, hexact⟩ := Cfg.computePreds_total
    ⟨st.blocks.map BasicBlock.close, 0, [], false⟩ hids (fun b hb s hs => (htargets b hb s hs).2)
    (by simpa [CfgBuilder.nextId] using hinv.nextId_pos)
    (fun b hb h0 => absurd (htargets b hb 0 h0).1 (Nat.lt_irrefl 0))
  refine ⟨_, hpreds, rfl, rfl, rfl, hexact, fun h => ?_, fun h => ?_⟩
  · exact switchesOk_close.mp h.arms
  -- a handler is a block without a handler, so it is another block and the chain ends there
  have hhandler : ∀ b ∈ st.blocks, ∀ h, b.handler = some h → h < st.blocks.length ∧ h ≠ b.id ∧
      ∃ c, st.blocks[h]? = some c ∧ c.handler = none := by
    intro b hb h hh
    obtain ⟨i, hi⟩ := getElem?_of_mem hb
    obtain ⟨c, hc, hnone⟩ := hinv.handlers i b h hi hh
    refine ⟨(List.getElem?_eq_some_iff.mp hc).1, ?_, c, hc, hnone⟩
    rintro rfl
    rw [hinv.ids i b hi, hi] at hc
    cases hc
    rw [hh] at hnone
    cases hnone
  refine ⟨rfl, ?_, hids, ?_, fun b hb s hs => (htargets b hb s hs).2,
    switchesOk_close.mpr h, ?_, ?_, fun _ => hexact⟩
  · simpa [CfgBuilder.nextId, Nat.one_le_iff_ne_zero, Nat.pos_iff_ne_zero] using hinv.nextId_pos
  · rw [forall_mem_map]
    exact fun b _ => b.close_isSome
  · rw [forall_mem_map]
    intro b hb h hh
    obtain ⟨hlt, hne, _⟩ := hhandler b hb h (by simpa using hh)
    exact ⟨by simpa using hlt, by simpa using hne⟩
  · rw [forall_mem_map]
    intro b hb
    rw [BasicBlock.close_handler]
    cases hh : b.handler with
    | none => exact .outside
    | some h =>
      obtain ⟨_, _, c, hc, hnone⟩ := hhandler b hb h hh
      refine .handler (b := c.close) (by simp [hc]) ?_
      rw [BasicBlock.close_handler, hnone]
      exact .outside

/-- `build_cfg` succeeds with a graph exactly if lowering succeeds and the graph's switches
are in order. -/
theorem buildCfg_eq_ok {cfg : Cfg} (h : buildCfg body = .ok cfg) :
    ∃ st, lowerStmts body CfgBuilder.new = .ok st ∧ st.Inv ∧
      cfg.blocks = st.blocks.map BasicBlock.close ∧ cfg.entry = 0 ∧ cfg.predsValid = true ∧
      cfg.PredsExact ∧ cfg.WellFormed := by
  simp only [buildCfg, bind_eq_ok, pure_eq_ok] at h
  obtain ⟨st, h₁, cfg', h₂, u, h₃, rfl⟩ := h
  have hinv := (lowerStmts_sound body _ _ CfgBuilder.inv_new h₁).scope.inv
  obtain ⟨cfg', hfin, hblocks, hentry, hvalid, hexact, _⟩ := finish_spec hinv
  obtain rfl := Except.ok.inj (hfin.symm.trans h₂)
  exact ⟨st, h₁, hinv, hblocks, hentry, hvalid, hexact, Cfg.verify_eq_ok.mp h₃⟩

theorem buildCfg_of_lowered
    (h : lowerStmts body CfgBuilder.new = .ok st) (hok : SwitchesOk st.blocks) :
    ∃ cfg, buildCfg body = .ok cfg ∧ cfg.blocks = st.blocks.map BasicBlock.close := by
  have hinv := (lowerStmts_sound body _ _ CfgBuilder.inv_new h).scope.inv
  obtain ⟨cfg, hfin, hblocks, _, _, _, hwf⟩ := finish_spec hinv
  refine ⟨cfg, ?_, hblocks⟩
  simp only [buildCfg, bind_eq_ok, pure_eq_ok]
  exact ⟨st, h, cfg, hfin, (), Cfg.verify_eq_ok.mpr (hwf.mpr hok), rfl⟩

/-- The whole body runs into its own graph. -/
theorem buildCfg_runs {cfg : Cfg} (h : buildCfg body = .ok cfg) :
    Runs (lowerStmts body) CfgBuilder.new cfg.blocks := by
  obtain ⟨st, h₁, _, hblocks, _⟩ := buildCfg_eq_ok h
  exact ⟨CfgBuilder.inv_new, rfl, st, h₁, by rw [hblocks]; exact grows_close _⟩

/-- A buildable body whose exits are in loops is built. -/
theorem buildCfg_total (hexits : exitsInLoops false body = true)
    (hb : buildable body = true) : ∃ cfg, buildCfg body = .ok cfg := by
  obtain ⟨st, h⟩ := lowering_total_cases.stmts body false hexits hb _ CfgBuilder.inv_new rfl
    (by simp)
  have hok : SwitchesOk st.blocks := by
    rw [← passes_switchCheck,
      lowering_adds_switches.stmts body hb _ _ CfgBuilder.inv_new rfl h, passes_switchCheck]
    simp [SwitchesOk, CfgBuilder.new]
  obtain ⟨cfg, hcfg, _⟩ := buildCfg_of_lowered h hok
  exact ⟨cfg, hcfg⟩

/-- `build_cfg` returns a graph that satisfies every invariant of the verifier, with exact
predecessor lists. -/
def BuildsVerified (body : List HirStmt) : Prop :=
  ∃ cfg, buildCfg body = .ok cfg ∧ cfg.WellFormed ∧ cfg.predsValid = true ∧ cfg.PredsExact

/-- A body whose exits are in loops is built into a verified graph exactly if its lowered
part has no `CASE` or `TYPECASE` without branches or labels and no `TRY` with a clause
after a catch-all. -/
theorem buildsVerified_iff_buildable (body : List HirStmt)
    (hexits : exitsInLoops false body = true) : BuildsVerified body ↔ buildable body = true := by
  constructor
  · rintro ⟨cfg, h, hwf, _⟩
    exact (buildable_cases hwf.arms).stmts body _ (buildCfg_runs h)
  · intro hb
    obtain ⟨cfg, hcfg⟩ := buildCfg_total hexits hb
    obtain ⟨_, _, _, _, _, hvalid, hexact, hwf⟩ := buildCfg_eq_ok hcfg
    exact ⟨cfg, hcfg, hwf, hvalid, hexact⟩

/-- A Boolean literal as a condition. -/
def boolCond (b : Bool) : HirExpr := ⟨.boolLit b, tyBoolean, .cfg⟩

/-- An integer literal. -/
def intExpr (v : Int) : HirExpr := ⟨.intLit v, 0, .cfg⟩

/-- `LOOP IF TRUE THEN EXIT END; TRY x := 1 EXCEPT E DO RETURN END END`. -/
def loopedTry : List HirStmt :=
  [⟨.loop
    [⟨.ifStmt (boolCond true) [⟨.exit, .cfg⟩] [] none, .cfg⟩,
     ⟨.tryStmt [assignVar "x" 0 (intExpr 1)]
       [⟨some (localSym "E" 0), none, [⟨.ret none, .cfg⟩]⟩] none, .cfg⟩], .cfg⟩]

theorem buildsVerified_loopedTry :
    exitsInLoops false loopedTry = true ∧ buildable loopedTry = true ∧ BuildsVerified loopedTry :=
  ⟨rfl, rfl, (buildsVerified_iff_buildable loopedTry rfl).mpr rfl⟩

/-- `TRY EXCEPT RETURN EXCEPT E DO END`: a named clause after a catch-all. -/
def catchAllFirst : List HirStmt :=
  [⟨.tryStmt [] [⟨none, none, [⟨.ret none, .cfg⟩]⟩, ⟨some (localSym "E" 0), none, []⟩] none,
    .cfg⟩]

/-- Lowering a clause after a catch-all panics in `seal`. -/
theorem not_buildsVerified_catchAllFirst :
    exitsInLoops false catchAllFirst = true ∧
      buildCfg catchAllFirst = .error .sealsNothing ∧ ¬ BuildsVerified catchAllFirst := by
  refine ⟨rfl, rfl, ?_⟩
  rintro ⟨cfg, h, _⟩
  cases h

end Mx

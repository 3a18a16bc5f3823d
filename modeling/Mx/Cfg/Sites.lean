import Mx.Cfg.Buildable

/-!
# Where statements are lowered

A site is a statement list about to be lowered, with the builder it is lowered in and the
catch blocks of the `TRY` bodies around it in the source. `Enters` leads from a site to
the sites that its first statement contains and to the rest of the list, so the sites
reached from the whole body are the statements that are lowered at all: statements after
a `RETURN`, say, are not.
-/

namespace Mx

open Mx.Core List

/-! ## Up to a nested body -/

/-- `lower_if` up to its `THEN` body. -/
def thenEntry (cond : HirExpr) (more : Bool) : Lowering := fun st => do
  let st₁ ← lowerTest cond st.nextId more st.newBlock
  armEntry (st.nextId + 1) [] st₁

/-- `lower_if` up to the test after the given `ELSIF` parts, or up to the `ELSE`. -/
def elsifsEntry (cond : HirExpr) (more : Bool) (thenBody : Lowering)
    (before : List (HirExpr × Lowering)) (st : CfgBuilder) : Except Panic (Nat × CfgBuilder) := do
  let st₁ ← lowerTest cond st.nextId more st.newBlock
  let st₂ ← lowerArm (st.nextId + 1) [] thenBody st.nextId st₁
  lowerElsifs st.nextId true before (falseTarget st.nextId more st.newBlock) st₂

/-- `lower_if` up to the body of an `ELSIF`. -/
def elsifEntry (cond : HirExpr) (more : Bool) (thenBody : Lowering)
    (before : List (HirExpr × Lowering)) (test : HirExpr) (moreAfter : Bool) : Lowering :=
    fun st => do
  let (cur, st₁) ← elsifsEntry cond more thenBody before st
  let st₂ ← st₁.startBlock cur
  let st₃ ← lowerTest test st.nextId moreAfter st₂
  armEntry st₂.nextId [] st₃

/-- `lower_if` up to its `ELSE` body. -/
def elseEntry (cond : HirExpr) (more : Bool) (thenBody : Lowering)
    (elsifs : List (HirExpr × Lowering)) : Lowering := fun st => do
  let (cur, st₁) ← elsifsEntry cond more thenBody elsifs st
  armEntry cur [] st₁

/-- A switch up to the body of its `i`-th arm. -/
def switchArmEntry (expr : HirExpr) (arms : List Arm) (i : Nat) (binding : List HirStmt) :
    Lowering := fun st => do
  let st₁ ← switchEntry expr arms st
  let st₂ ← lowerArms st.nextId
    (((List.range' (st.nextId + 2) arms.length).zip arms).take i) st₁
  armEntry (st.nextId + 2 + i) binding st₂

/-- A switch up to its `ELSE` body. -/
def switchElseEntry (expr : HirExpr) (arms : List Arm) : Lowering := fun st => do
  let st₁ ← switchEntry expr arms st
  let st₂ ← lowerArms st.nextId ((List.range' (st.nextId + 2) arms.length).zip arms) st₁
  armEntry (st.nextId + 1) [] st₂

/-- `lower_try` up to its catch side. -/
def lowerGuarded (body : Lowering) (hasFinally : Bool) : Lowering := fun st => do
  let st₁ ← tryEntry hasFinally st
  let st₂ ← body st₁
  st₂.popHandler.sealIfOpen (.goto (finallyTarget st.nextId hasFinally))

/-- `lower_try` up to the body of its `i`-th clause. -/
def clauseEntry (body : Lowering) (clauses : List Clause) (hasFinally : Bool) (i : Nat) :
    Lowering := fun st => do
  let st₁ ← lowerGuarded body hasFinally st
  let st₂ ← catchEntry (st.nextId + 1) (clauses.map Clause.exception) st₁
  let st₃ ← lowerArms (finallyTarget st.nextId hasFinally)
    ((handlerArms (st₁.nextId + 1) clauses).take i) st₂
  armEntry (st₁.nextId + 1 + i) [] st₃

/-! ## Sites -/

/-- A statement list, the catch blocks of the `TRY` bodies it stands in (innermost first)
and the builder it is lowered in. -/
structure Site where
  stmts : List HirStmt
  catches : List Nat
  st : CfgBuilder

/-- The sites that lowering leads to from a site: after its first statement, and in it. -/
inductive Enters : Site → Site → Prop where
  | next {s ss c st st'} (h : lowerStmt s st = .ok st') (ho : st'.isOpen = true) :
    Enters ⟨s :: ss, c, st⟩ ⟨ss, c, st'⟩
  | thenBody {cond thenBody elsifs elseBody loc ss c st st'}
    (h : thenEntry cond (!elsifs.isEmpty || elseBody.isSome) st = .ok st') :
    Enters ⟨⟨.ifStmt cond thenBody elsifs elseBody, loc⟩ :: ss, c, st⟩ ⟨thenBody, c, st'⟩
  | elsif {cond thenBody elsifs elseBody loc ss c st st' i test body}
    (hi : elsifs[i]? = some (test, body))
    (h : elsifEntry cond (!elsifs.isEmpty || elseBody.isSome) (lowerStmts thenBody)
      ((elsifLowerings elsifs).take i) test
      (decide (i + 1 < elsifs.length) || elseBody.isSome) st = .ok st') :
    Enters ⟨⟨.ifStmt cond thenBody elsifs elseBody, loc⟩ :: ss, c, st⟩ ⟨body, c, st'⟩
  | elseBody {cond thenBody elsifs body loc ss c st st'}
    (h : elseEntry cond true (lowerStmts thenBody) (elsifLowerings elsifs) st = .ok st') :
    Enters ⟨⟨.ifStmt cond thenBody elsifs (some body), loc⟩ :: ss, c, st⟩ ⟨body, c, st'⟩
  | whileBody {cond body loc ss c st st'} (h : whileEntry cond st = .ok st') :
    Enters ⟨⟨.whileStmt cond body, loc⟩ :: ss, c, st⟩ ⟨body, c, st'⟩
  | repeatBody {body cond loc ss c st st'} (h : loopEntry st = .ok st') :
    Enters ⟨⟨.repeatStmt body cond, loc⟩ :: ss, c, st⟩ ⟨body, c, st'⟩
  | loopBody {body loc ss c st st'} (h : loopEntry st = .ok st') :
    Enters ⟨⟨.loop body, loc⟩ :: ss, c, st⟩ ⟨body, c, st'⟩
  | forBody {var varTy start stop step direction body loc ss c st st'}
    (h : forEntry var varTy start stop direction st = .ok st') :
    Enters ⟨⟨.forStmt var varTy start stop step direction body, loc⟩ :: ss, c, st⟩
      ⟨body, c, st'⟩
  | caseBranch {expr branches elseBody loc ss c st st' i branch}
    (hi : branches[i]? = some branch)
    (h : switchArmEntry expr (caseArms branches) i [] st = .ok st') :
    Enters ⟨⟨.caseStmt expr branches elseBody, loc⟩ :: ss, c, st⟩ ⟨branch.body, c, st'⟩
  | caseElse {expr branches body loc ss c st st'}
    (h : switchElseEntry expr (caseArms branches) st = .ok st') :
    Enters ⟨⟨.caseStmt expr branches (some body), loc⟩ :: ss, c, st⟩ ⟨body, c, st'⟩
  | typeBranch {expr branches elseBody loc ss c st st' i branch}
    (hi : branches[i]? = some branch)
    (h : switchArmEntry expr (typeArms expr branches) i (typeBinding expr branch.var) st =
      .ok st') :
    Enters ⟨⟨.typeCase expr branches elseBody, loc⟩ :: ss, c, st⟩ ⟨branch.body, c, st'⟩
  | typeElse {expr branches body loc ss c st st'}
    (h : switchElseEntry expr (typeArms expr branches) st = .ok st') :
    Enters ⟨⟨.typeCase expr branches (some body), loc⟩ :: ss, c, st⟩ ⟨body, c, st'⟩
  | tryBody {body excepts finallyBody loc ss c st st'}
    (h : tryEntry finallyBody.isSome st = .ok st') :
    Enters ⟨⟨.tryStmt body excepts finallyBody, loc⟩ :: ss, c, st⟩
      ⟨body, (st.nextId + 1) :: c, st'⟩
  | clause {body excepts finallyBody loc ss c st st' i clause}
    (hi : excepts[i]? = some clause)
    (h : clauseEntry (lowerStmts body) (clauseLowerings excepts) finallyBody.isSome i st =
      .ok st') :
    Enters ⟨⟨.tryStmt body excepts finallyBody, loc⟩ :: ss, c, st⟩ ⟨clause.body, c, st'⟩
  | lockBody {mutex body loc ss c st} :
    Enters ⟨⟨.lock mutex body, loc⟩ :: ss, c, st⟩
      ⟨body, c, st.pushStmt (lockCall mutex loc)⟩

/-- The site is lowered when the whole body is. -/
def Lowered (body : List HirStmt) (site : Site) : Prop :=
  Relation.ReflTransGen Enters ⟨body, [], CfgBuilder.new⟩ site

/-- The site is lowered into the blocks `G`; the catch blocks of the source are the
builder's, and nothing was put into them so far. -/
structure Site.Runs (site : Site) (G : List BasicBlock) : Prop where
  runs : Mx.Runs (lowerStmts site.stmts) site.st G
  catches : site.catches = site.st.handlerStack
  waiting : ∀ h ∈ site.catches, site.st.Waiting h none

/-! ## Scopes -/

section Scopes

variable {st st' : CfgBuilder}

variable {cond : HirExpr} {more : Bool} {thenBody : Lowering}

theorem thenEntry_within (hinv : st.Inv)
    (hs : thenEntry cond more st = .ok st') : Within st st st' := by
  simp only [thenEntry, bind_eq_ok] at hs
  obtain ⟨st₁, h₁, h₂⟩ := hs
  have w₀ := Within.newBlock (Scope.refl hinv)
  have w₁ := w₀.trans (lowerTest_within w₀.scope h₁ (Or.inl ⟨le_rfl, by simp⟩))
  exact w₁.trans (armEntry_within w₁.scope h₂ (by omega))

theorem elsifsEntry_within
    {before : List (HirExpr × Lowering)} {cur : Nat} (hinv : st.Inv) (hthen : thenBody.Sound)
    (hbefore : ∀ e ∈ before, Lowering.Sound e.2)
    (hs : elsifsEntry cond more thenBody before st = .ok (cur, st')) :
    Within st st st' ∧ st.nextId ≤ cur ∧ st.nextId < st'.nextId := by
  simp only [elsifsEntry, bind_eq_ok] at hs
  obtain ⟨st₁, h₁, st₂, h₂, h₃⟩ := hs
  have w₀ := Within.newBlock (Scope.refl hinv)
  have hm : Scope.Allowed st st.newBlock st.nextId := Or.inl ⟨le_rfl, by simp⟩
  have v₁ := lowerTest_within w₀.scope h₁ hm
  have v₂ := v₁.trans (lowerArm_within v₁.scope hthen h₂ (by omega) (hm.mono v₁.le))
  have hlt : st.nextId < st₂.nextId := Nat.lt_of_lt_of_le (by simp) v₂.le
  obtain ⟨w₃, hcur⟩ := lowerElsifs_within v₂.scope hbefore h₃ ⟨le_rfl, hlt⟩
    (le_falseTarget _ w₀.scope le_rfl)
  exact ⟨w₀.trans (v₂.trans w₃), hcur, Nat.lt_of_lt_of_le hlt w₃.le⟩

theorem elsifEntry_within {test : HirExpr} {moreAfter : Bool}
    {before : List (HirExpr × Lowering)} (hinv : st.Inv) (hthen : thenBody.Sound)
    (hbefore : ∀ e ∈ before, Lowering.Sound e.2)
    (hs : elsifEntry cond more thenBody before test moreAfter st = .ok st') :
    Within st st st' := by
  simp only [elsifEntry, bind_eq_ok] at hs
  obtain ⟨⟨cur, st₁⟩, h₁, st₂, h₂, st₃, h₃, h₄⟩ := hs
  obtain ⟨w₁, hcur, hlt⟩ := elsifsEntry_within hinv hthen hbefore h₁
  have v₂ := Within.startBlock w₁.scope h₂ hcur
  have v₃ := v₂.trans (lowerTest_within v₂.scope h₃
    (Or.inl ⟨le_rfl, Nat.lt_of_lt_of_le hlt v₂.le⟩))
  exact w₁.trans (v₃.trans (armEntry_within v₃.scope h₄ v₂.scope.nextId_le))

theorem elseEntry_within
    {elsifs : List (HirExpr × Lowering)} (hinv : st.Inv) (hthen : thenBody.Sound)
    (helsifs : ∀ e ∈ elsifs, Lowering.Sound e.2)
    (hs : elseEntry cond more thenBody elsifs st = .ok st') : Within st st st' := by
  simp only [elseEntry, bind_eq_ok] at hs
  obtain ⟨⟨cur, st₁⟩, h₁, h₂⟩ := hs
  obtain ⟨w₁, hcur, _⟩ := elsifsEntry_within hinv hthen helsifs h₁
  exact w₁.trans (armEntry_within w₁.scope h₂ hcur)

theorem switchArmEntry_within {expr : HirExpr} {arms : List Arm} {i : Nat}
    {binding : List HirStmt} (hinv : st.Inv) (harms : ∀ a ∈ arms, a.body.Sound)
    (hs : switchArmEntry expr arms i binding st = .ok st') : Within st st st' := by
  simp only [switchArmEntry, bind_eq_ok] at hs
  obtain ⟨st₁, h₁, st₂, h₂, h₃⟩ := hs
  obtain ⟨w₁, hlen⟩ := switchEntry_within hinv h₁
  have hsound := switchArms_sound st harms (n := st.nextId + 2) (by omega)
  have w₂ := w₁.trans (lowerArms_within w₁.scope
    (fun a ha => hsound a (mem_of_mem_take ha)) h₂ (Or.inl ⟨le_rfl, by omega⟩))
  exact w₂.trans (armEntry_within w₂.scope h₃ (by omega))

theorem switchElseEntry_within {expr : HirExpr} {arms : List Arm} (hinv : st.Inv)
    (harms : ∀ a ∈ arms, a.body.Sound) (hs : switchElseEntry expr arms st = .ok st') :
    Within st st st' := by
  simp only [switchElseEntry, bind_eq_ok] at hs
  obtain ⟨st₁, h₁, st₂, h₂, h₃⟩ := hs
  obtain ⟨w₁, hlen⟩ := switchEntry_within hinv h₁
  have hsound := switchArms_sound st harms (n := st.nextId + 2) (by omega)
  have w₂ := w₁.trans
    (lowerArms_within w₁.scope hsound h₂ (Or.inl ⟨le_rfl, by omega⟩))
  exact w₂.trans (armEntry_within w₂.scope h₃ (by omega))

/-- The guarded part of a `TRY` leaves the handler stack as it was. -/
theorem lowerGuarded_within {body : Lowering} {hasFinally : Bool} (hinv : st.Inv)
    (hk : body.Sound) (hs : lowerGuarded body hasFinally st = .ok st') :
    Within st st st' ∧ st.nextId + 2 ≤ st'.nextId ∧
      finallyTarget st.nextId hasFinally < st'.nextId := by
  simp only [lowerGuarded, bind_eq_ok] at hs
  obtain ⟨st₁, h₁, st₂, h₂, h₃⟩ := hs
  obtain ⟨w₁, hle, w₂, hle₂, hfin⟩ := try_within hinv hk h₁ h₂
  have hlt := (tryEntry_within hinv h₁).2.2
  have w₃ := Within.sealIfOpen w₂.scope h₃ hfin
  have hle₃ : st₂.nextId ≤ st'.nextId := w₃.le
  exact ⟨w₂.trans w₃, by omega, by omega⟩

theorem clauseEntry_within {body : Lowering} {clauses : List Clause} {hasFinally : Bool} {i : Nat}
    (hinv : st.Inv) (hk : body.Sound) (hclauses : ∀ c ∈ clauses, c.body.Sound)
    (hs : clauseEntry body clauses hasFinally i st = .ok st') : Within st st st' := by
  simp only [clauseEntry, bind_eq_ok] at hs
  obtain ⟨st₁, h₁, st₂, h₂, st₃, h₃, h₄⟩ := hs
  obtain ⟨w₁, hle, hlt⟩ := lowerGuarded_within hinv hk h₁
  have v₂ := catchEntry_within w₁.scope h₂ (by omega)
  have w₂ := w₁.trans v₂
  have hfin : Scope.Allowed st st₂ (finallyTarget st.nextId hasFinally) :=
    Or.inl ⟨le_finallyTarget _ _, Nat.lt_of_lt_of_le hlt v₂.le⟩
  have hsound : ∀ a ∈ (handlerArms (st₁.nextId + 1) clauses).take i,
      a.2.body.Sound ∧ st.nextId ≤ a.1 := by
    intro a ha
    obtain ⟨hlo, _, c, hc, he⟩ := mem_handlerArms (mem_of_mem_take ha)
    exact ⟨by rw [he]; exact hclauses c hc, by omega⟩
  have w₃ := w₂.trans (lowerArms_within w₂.scope hsound h₃ hfin)
  exact w₃.trans (armEntry_within w₃.scope h₄ (by omega))

/-- Lowering stays in the scope of the site it starts from. -/
theorem Enters.scope {a b : Site} (h : Enters a b) (hinv : a.st.Inv) : Scope a.st b.st := by
  cases h with
  | next h _ => exact (lowerStmt_sound _ _ _ hinv h).scope
  | thenBody h => exact (thenEntry_within hinv h).scope
  | @elsif _ _ elsifs _ _ _ _ _ _ i _ _ hi h =>
    exact (elsifEntry_within hinv (lowerStmts_sound _)
      (fun e he => sound_elsifs elsifs e (mem_of_mem_take he)) h).scope
  | elseBody h => exact (elseEntry_within hinv (lowerStmts_sound _) (sound_elsifs _) h).scope
  | whileBody h => exact (whileEntry_within hinv h).1.scope
  | repeatBody h | loopBody h => exact (loopEntry_within hinv h).1.scope
  | forBody h => exact (forEntry_within hinv h).1.scope
  | caseBranch hi h => exact (switchArmEntry_within hinv (sound_caseArms _) h).scope
  | caseElse h => exact (switchElseEntry_within hinv (sound_caseArms _) h).scope
  | typeBranch hi h => exact (switchArmEntry_within hinv (sound_typeArms _ _) h).scope
  | typeElse h => exact (switchElseEntry_within hinv (sound_typeArms _ _) h).scope
  | tryBody h => exact (tryEntry_within hinv h).1.scope
  | clause hi h => exact (clauseEntry_within hinv (lowerStmts_sound _) (sound_clauses _) h).scope
  | lockBody => exact (Scope.refl hinv).pushStmt _

end Scopes

/-! ## What is lowered ends in the graph -/

section Enters

variable {G : List BasicBlock} {c : List Nat} {ss : List HirStmt} {st st' : CfgBuilder}
  {loc : SourceLoc}

variable {body : List HirStmt}

/-- A body that runs in the state its construct is entered in. -/
theorem runs_of_entry {entry : Except Panic CfgBuilder} (h : entry = .ok st')
    (r : ∃ s, entry = .ok s ∧ s.handlerStack = c ∧ Mx.Runs (lowerStmts body) s G) :
    Mx.Runs (lowerStmts body) st' G ∧ c = st'.handlerStack := by
  obtain ⟨s, hs, hh, hr⟩ := r
  obtain rfl := Except.ok.inj (h.symm.trans hs)
  exact ⟨hr, hh.symm⟩

theorem Site.Runs.next {s : HirStmt} (r : Site.Runs ⟨s :: ss, c, st⟩ G)
    (h : lowerStmt s st = .ok st') (ho : st'.isOpen = true) :
    Mx.Runs (lowerStmts ss) st' G ∧ c = st'.handlerStack := by
  obtain ⟨⟨hinv, _, st₂, hs, hG⟩, hc, _⟩ := r
  simp only [lowerStmts, bind_eq_ok] at hs
  obtain ⟨st₁, h₁, h₂⟩ := hs
  obtain rfl := Except.ok.inj (h.symm.trans h₁)
  have w := lowerStmt_sound s st st' hinv h
  exact ⟨⟨w.scope.inv, ho, st₂, h₂, hG⟩, hc.trans w.handlers.symm⟩

theorem Site.Runs.head {kind : HirStmtKind} (r : Site.Runs ⟨⟨kind, loc⟩ :: ss, c, st⟩ G) :
    Mx.Runs (lowerKind kind loc) st G := r.runs.tail.1

theorem Site.Runs.ifBodies {cond : HirExpr} {thenBody : List HirStmt}
    {elsifs : List (HirExpr × List HirStmt)} {elseBody : Option (List HirStmt)}
    (r : Site.Runs ⟨⟨.ifStmt cond thenBody elsifs elseBody, loc⟩ :: ss, c, st⟩ G) :
    (∃ s, thenEntry cond (!elsifs.isEmpty || elseBody.isSome) st = .ok s ∧
      s.handlerStack = c ∧ Mx.Runs (lowerStmts thenBody) s G) ∧
    (∀ (i : Nat) (test : HirExpr) (body : List HirStmt), elsifs[i]? = some (test, body) →
      ∃ s, elsifEntry cond (!elsifs.isEmpty || elseBody.isSome) (lowerStmts thenBody)
        ((elsifLowerings elsifs).take i) test
        (decide (i + 1 < elsifs.length) || elseBody.isSome) st = .ok s ∧
        s.handlerStack = c ∧ Mx.Runs (lowerStmts body) s G) ∧
    ∀ body ∈ elseBody, ∃ s, elseEntry cond true (lowerStmts thenBody) (elsifLowerings elsifs) st =
      .ok s ∧ s.handlerStack = c ∧ Mx.Runs (lowerStmts body) s G := by
  have hempty : (elsifLowerings elsifs).isEmpty = elsifs.isEmpty := by
    cases elsifs <;> rfl
  have hlen : (elsifLowerings elsifs).length = elsifs.length := by
    simp [elsifLowerings_eq]
  have hsome : (optLowering elseBody).isSome = elseBody.isSome := by
    cases elseBody <;> rfl
  have hc : st.handlerStack = c := r.catches.symm
  obtain ⟨st₂, st₃, h₂, h₃, rthen, relsifs, relse⟩ := lowerIf_runs (lowerStmts_sound thenBody)
    (sound_elsifs elsifs) (sound_opt elseBody) r.head
  rw [hempty, hsome] at h₂ relsifs relse
  rw [hlen] at relsifs
  refine ⟨?_, ?_, ?_⟩
  · obtain ⟨s, hs, hh, hr⟩ := rthen
    refine ⟨s, ?_, hh.trans hc, hr⟩
    simp only [thenEntry, bind_eq_ok]
    exact ⟨st₂, h₂, hs⟩
  · intro i test body hi
    obtain ⟨cur, s₁, s₂, s₃, s, e₁, e₂, e₃, e₄, hh, hr⟩ :=
      relsifs i (test, lowerStmts body) (by simp [elsifLowerings_eq, hi])
    refine ⟨s, ?_, hh.trans hc, hr⟩
    simp only [elsifEntry, elsifsEntry, bind_eq_ok]
    exact ⟨(cur, s₁), ⟨st₂, h₂, st₃, h₃, e₁⟩, s₂, e₂, s₃, e₃, e₄⟩
  · intro body hb
    obtain rfl : elseBody = some body := hb
    obtain ⟨cur, s₁, s, e₁, e₂, hh, hr⟩ := relse _ (optLowering_mem rfl)
    refine ⟨s, ?_, hh.trans hc, hr⟩
    rw [Option.isSome_some, Bool.or_true] at h₂ e₁
    simp only [elseEntry, elsifsEntry, bind_eq_ok]
    exact ⟨(cur, s₁), ⟨st₂, h₂, st₃, h₃, e₁⟩, e₂⟩

theorem switchBodies {expr : HirExpr} {arms : List Arm} {elseBody : Option (List HirStmt)}
    (harms : ∀ a ∈ arms, a.body.Sound)
    (r : Mx.Runs (lowerSwitch expr arms (optLowering elseBody)) st G) :
    (∀ i a, arms[i]? = some a → ∃ s, switchArmEntry expr arms i a.binding st = .ok s ∧
      s.handlerStack = st.handlerStack ∧ Mx.Runs a.body s G) ∧
    ∀ body ∈ elseBody, ∃ s, switchElseEntry expr arms st = .ok s ∧
      s.handlerStack = st.handlerStack ∧ Mx.Runs (lowerStmts body) s G := by
  obtain ⟨st₁, st₂, h₁, h₂, _, rarms, relse⟩ := lowerSwitch_runs harms (sound_opt elseBody) r
  constructor
  · intro i a hi
    obtain ⟨s₁, s, e₁, e₂, hh, hr⟩ := rarms i a hi
    refine ⟨s, ?_, hh, hr⟩
    simp only [switchArmEntry, bind_eq_ok]
    exact ⟨st₁, h₁, s₁, e₁, e₂⟩
  · intro body hb
    obtain ⟨s, hs, hh, hr⟩ := relse _ (optLowering_mem hb)
    refine ⟨s, ?_, hh, hr⟩
    simp only [switchElseEntry, bind_eq_ok]
    exact ⟨st₁, h₁, st₂, h₂, hs⟩

theorem Site.Runs.tryBodies {excepts : List HirExceptClause} {finallyBody : Option (List HirStmt)}
    (r : Site.Runs ⟨⟨.tryStmt body excepts finallyBody, loc⟩ :: ss, c, st⟩ G) :
    (∃ s, tryEntry finallyBody.isSome st = .ok s ∧ s.handlerStack = (st.nextId + 1) :: c ∧
      Mx.Runs (lowerStmts body) s G) ∧
    ∀ (i : Nat) (clause : HirExceptClause), excepts[i]? = some clause →
      ∃ s, clauseEntry (lowerStmts body) (clauseLowerings excepts) finallyBody.isSome i st = .ok s ∧
        s.handlerStack = c ∧ Mx.Runs (lowerStmts clause.body) s G := by
  have hc : st.handlerStack = c := r.catches.symm
  obtain ⟨st₁, st₂, st₃, st₄, h₁, h₂, h₃, _, hh, rbody, rclauses⟩ := lowerTry_runs
    (lowerStmts_sound body) (sound_clauses excepts) r.head
  refine ⟨⟨st₁, h₁, by rw [hh, hc], rbody⟩, fun i clause hi => ?_⟩
  obtain ⟨s₁, s₂, s, e₁, e₂, e₃, hh, hr⟩ := rclauses i ⟨clause.exception, lowerStmts clause.body⟩
    (by simp [clauseLowerings_eq, hi])
  refine ⟨s, ?_, hh.trans hc, hr⟩
  simp only [clauseEntry, lowerGuarded, bind_eq_ok]
  exact ⟨st₃, ⟨st₁, h₁, st₂, h₂, h₃⟩, s₁, e₁, s₂, e₂, e₃⟩

/-- What a site leads to is lowered into the same blocks, in the region of its catch blocks. -/
theorem Enters.runs_catches {a b : Site} (h : Enters a b) (r : a.Runs G) :
    Mx.Runs (lowerStmts b.stmts) b.st G ∧ b.catches = b.st.handlerStack := by
  cases h with
  | next h ho => exact r.next h ho
  | thenBody h => exact runs_of_entry h r.ifBodies.1
  | elsif hi h => exact runs_of_entry h (r.ifBodies.2.1 _ _ _ hi)
  | elseBody h => exact runs_of_entry h (r.ifBodies.2.2 _ rfl)
  | whileBody h =>
    obtain ⟨s, hs, hh, hr⟩ := lowerWhile_runs r.head
    exact runs_of_entry h ⟨s, hs, hh.trans r.catches.symm, hr⟩
  | repeatBody h =>
    obtain ⟨s, hs, hh, hr⟩ := lowerRepeat_runs r.head
    exact runs_of_entry h ⟨s, hs, hh.trans r.catches.symm, hr⟩
  | loopBody h =>
    obtain ⟨s, hs, hh, hr⟩ := lowerLoop_runs r.head
    exact runs_of_entry h ⟨s, hs, hh.trans r.catches.symm, hr⟩
  | forBody h =>
    obtain ⟨s, hs, hh, hr⟩ := lowerFor_runs (lowerStmts_sound _) r.head
    exact runs_of_entry h ⟨s, hs, hh.trans r.catches.symm, hr⟩
  | @caseBranch expr branches elseBody loc ss c st st' i branch hi h =>
    have r' : Mx.Runs (lowerCase expr (branchLowerings branches) (optLowering elseBody)) st G :=
      r.head
    rw [lowerCase_eq] at r'
    obtain ⟨s, hs, hh, hr⟩ := (switchBodies (sound_caseArms branches) r').1 i _
      (by rw [caseArms, getElem?_map, hi]; rfl)
    exact runs_of_entry h ⟨s, hs, hh.trans r.catches.symm, hr⟩
  | @caseElse expr branches body loc ss c st st' h =>
    have r' : Mx.Runs (lowerCase expr (branchLowerings branches) (optLowering (some body))) st G :=
      r.head
    rw [lowerCase_eq] at r'
    obtain ⟨s, hs, hh, hr⟩ := (switchBodies (sound_caseArms branches) r').2 _ rfl
    exact runs_of_entry h ⟨s, hs, hh.trans r.catches.symm, hr⟩
  | @typeBranch expr branches elseBody loc ss c st st' i branch hi h =>
    have r' : Mx.Runs (lowerTypecase expr (typeBranchLowerings branches) (optLowering elseBody))
      st G := r.head
    rw [lowerTypecase_eq] at r'
    obtain ⟨s, hs, hh, hr⟩ := (switchBodies (sound_typeArms expr branches) r').1 i _
      (by rw [typeArms, getElem?_map, hi]; rfl)
    exact runs_of_entry h ⟨s, hs, hh.trans r.catches.symm, hr⟩
  | @typeElse expr branches body loc ss c st st' h =>
    have r' : Mx.Runs (lowerTypecase expr (typeBranchLowerings branches)
      (optLowering (some body))) st G := r.head
    rw [lowerTypecase_eq] at r'
    obtain ⟨s, hs, hh, hr⟩ := (switchBodies (sound_typeArms expr branches) r').2 _ rfl
    exact runs_of_entry h ⟨s, hs, hh.trans r.catches.symm, hr⟩
  | tryBody h => exact runs_of_entry h r.tryBodies.1
  | clause hi h => exact runs_of_entry h (r.tryBodies.2 _ _ hi)
  | lockBody =>
    have hr := lowerLock_runs (lowerStmts_sound _) r.head
    exact ⟨hr, r.catches.trans (by simp)⟩

/-- Nothing is put into a catch block before its `TRY` body is lowered. -/
theorem Enters.waiting {a b : Site} (h : Enters a b) (r : a.Runs G) :
    ∀ h ∈ b.catches, b.st.Waiting h none := by
  have hsc := h.scope r.runs.inv
  have hold : ∀ h ∈ a.catches, b.st.Waiting h none := fun x hx => (r.waiting x hx).of_scope hsc
  cases h with
  | tryBody h =>
    rw [forall_mem_cons]
    exact ⟨(tryEntry_after r.runs.inv r.runs.isOpen h).2.2.1, hold⟩
  | _ => exact hold

theorem Enters.runs {a b : Site} (h : Enters a b) (r : a.Runs G) : b.Runs G :=
  ⟨(h.runs_catches r).1, (h.runs_catches r).2, h.waiting r⟩

/-- Every lowered site is lowered into the blocks of the graph. -/
theorem Lowered.runs {cfg : Cfg} {site : Site}
    (hcfg : buildCfg body = .ok cfg) (h : Lowered body site) : site.Runs cfg.blocks := by
  induction h with
  | refl => exact ⟨buildCfg_runs hcfg, rfl, by simp⟩
  | tail _ hstep ih => exact hstep.runs ih

end Enters

end Mx

import Mx.Cfg.LoweringProgress

/-!
# The lowerings that run inside a lowering

`Runs k st G` says that the lowering `k` is run in the state `st` while a graph is
built whose blocks grow into `G`. One lemma for each construct names the states
its bodies are run in.
-/

namespace Mx

open Mx.Core List

/-- The lowering `k` is run in `st`, and its result grows into the blocks `G`. -/
structure Runs (k : Lowering) (st : CfgBuilder) (G : List BasicBlock) : Prop where
  inv : st.Inv
  isOpen : st.isOpen = true
  result : ∃ st', k st = .ok st' ∧ Grows st'.blocks G

variable {st₀ st st' : CfgBuilder} {G : List BasicBlock}

/-- A body run in a state of a construct, when the rest of the construct grows. -/
theorem Runs.of_body {k : Lowering} (h : Scope st₀ st) (ho : st.isOpen = true)
    (hs : k st = .ok st') (hG : Grows st'.blocks G) : Runs k st G :=
  ⟨h.inv, ho, st', hs, hG⟩

theorem CfgBuilder.sealIfOpen_grows {t : Terminator} (hs : st.sealIfOpen t = .ok st') :
    Grows st.blocks st'.blocks := by
  unfold CfgBuilder.sealIfOpen at hs
  split at hs
  · exact CfgBuilder.sealBlock_grows hs
  · cases hs
    exact Grows.refl _

theorem CfgBuilder.startIfReached_grows {m : Nat} (hs : st.startIfReached m = .ok st') :
    Grows st.blocks st'.blocks := by
  unfold CfgBuilder.startIfReached at hs
  split at hs
  · exact CfgBuilder.startBlock_grows hs
  · cases hs
    exact Grows.refl _

/-- The body of an arm runs in the state the arm is entered in. -/
theorem lowerArm_runs {start next : Nat} {before : List HirStmt} {body : Lowering}
    (h : Scope st₀ st) (hs : lowerArm start before body next st = .ok st')
    (hstart : st₀.nextId ≤ start) (hG : Grows st'.blocks G) :
    ∃ s, armEntry start before st = .ok s ∧ s.handlerStack = st.handlerStack ∧
      Runs body s G := by
  simp only [lowerArm, bind_eq_ok] at hs
  obtain ⟨st₁, h₁, st₂, h₂, h₃⟩ := hs
  have w₁ := armEntry_within h h₁ hstart
  exact ⟨st₁, h₁, w₁.handlers, Runs.of_body w₁.scope (armEntry_isOpen h₁) h₂
    ((CfgBuilder.sealIfOpen_grows h₃).trans hG)⟩

/-- The body of the `i`-th arm runs after the arms before it were lowered. -/
theorem lowerArms_runs {merge : Nat} {arms : List (Nat × Arm)} (h : Scope st₀ st)
    (hk : ∀ a ∈ arms, a.2.body.Sound ∧ st₀.nextId ≤ a.1)
    (hmerge : Scope.Allowed st₀ st merge) (hs : lowerArms merge arms st = .ok st')
    (hG : Grows st'.blocks G) {i : Nat} {a : Nat × Arm} (hi : arms[i]? = some a) :
    ∃ s₁ s, lowerArms merge (arms.take i) st = .ok s₁ ∧
      armEntry a.1 a.2.binding s₁ = .ok s ∧ s.handlerStack = st.handlerStack ∧
      Runs a.2.body s G := by
  induction arms generalizing st i with
  | nil => simp at hi
  | cons b rest ih =>
    obtain ⟨block, arm⟩ := b
    rw [forall_mem_cons] at hk
    simp only [lowerArms, bind_eq_ok] at hs
    obtain ⟨st₁, h₁, h₂⟩ := hs
    have w₁ := lowerArm_within h hk.1.1 h₁ hk.1.2 hmerge
    cases i with
    | zero =>
      obtain rfl : (block, arm) = a := by simpa using hi
      have hrest := lowerArms_within w₁.scope hk.2 h₂ (hmerge.mono w₁.le)
      obtain ⟨s, hs, hh, hr⟩ := lowerArm_runs h h₁ hk.1.2 (hrest.grows.trans hG)
      exact ⟨st, s, rfl, hs, hh, hr⟩
    | succ i =>
      obtain ⟨s₁, s, hs₁, hs, hh, hr⟩ := ih w₁.scope hk.2 (hmerge.mono w₁.le) h₂
        (by simpa using hi)
      refine ⟨s₁, s, ?_, hs, hh.trans w₁.handlers, hr⟩
      simp only [take_succ_cons, lowerArms, bind_eq_ok]
      exact ⟨st₁, h₁, hs₁⟩

section Loops

variable {body : Lowering}

/-- What a loop leaves behind grows from the end of its body. -/
theorem leaveLoop_grows {back x : Nat} (hs : leaveLoop back x st = .ok st') :
    Grows st.blocks st'.blocks := by
  simp only [leaveLoop, bind_eq_ok] at hs
  obtain ⟨st₁, h₁, h₂⟩ := hs
  have hstart := CfgBuilder.startBlock_grows h₂
  exact (CfgBuilder.sealIfOpen_grows h₁).trans hstart

theorem lowerWhile_runs {cond : HirExpr} (r : Runs (lowerWhile cond body) st G) :
    ∃ s, whileEntry cond st = .ok s ∧ s.handlerStack = st.handlerStack ∧ Runs body s G := by
  obtain ⟨hinv, _, st', hs, hG⟩ := r
  simp only [lowerWhile, bind_eq_ok] at hs
  obtain ⟨st₁, h₁, st₂, h₂, h₃⟩ := hs
  obtain ⟨w₁, _⟩ := whileEntry_within hinv h₁
  exact ⟨st₁, h₁, w₁.handlers, Runs.of_body w₁.scope (whileEntry_after hinv h₁).1 h₂
    ((leaveLoop_grows h₃).trans hG)⟩

theorem lowerLoop_runs (r : Runs (lowerLoop body) st G) :
    ∃ s, loopEntry st = .ok s ∧ s.handlerStack = st.handlerStack ∧ Runs body s G := by
  obtain ⟨hinv, _, st', hs, hG⟩ := r
  simp only [lowerLoop, bind_eq_ok] at hs
  obtain ⟨st₁, h₁, st₂, h₂, h₃⟩ := hs
  obtain ⟨w₁, _⟩ := loopEntry_within hinv h₁
  exact ⟨st₁, h₁, w₁.handlers, Runs.of_body w₁.scope (loopEntry_after hinv h₁).1 h₂
    ((leaveLoop_grows h₃).trans hG)⟩

theorem lowerUntil_grows {cond : HirExpr} {x back : Nat}
    (hs : lowerUntil cond x back st = .ok st') : Grows st.blocks st'.blocks := by
  unfold lowerUntil at hs
  split at hs
  · exact lowerExprAsBranch_grows hs
  · cases hs
    exact Grows.refl _

theorem lowerRepeat_runs {cond : HirExpr} (r : Runs (lowerRepeat body cond) st G) :
    ∃ s, loopEntry st = .ok s ∧ s.handlerStack = st.handlerStack ∧ Runs body s G := by
  obtain ⟨hinv, _, st', hs, hG⟩ := r
  simp only [lowerRepeat, bind_eq_ok] at hs
  obtain ⟨st₁, h₁, st₂, h₂, st₃, h₃, h₄⟩ := hs
  obtain ⟨w₁, _⟩ := loopEntry_within hinv h₁
  have hstart := CfgBuilder.startBlock_grows h₄
  exact ⟨st₁, h₁, w₁.handlers, Runs.of_body w₁.scope (loopEntry_after hinv h₁).1 h₂
    ((lowerUntil_grows h₃).trans (hstart.trans hG))⟩

section For

variable {var : String} {varTy : TypeId} {start stop : HirExpr} {step : Option HirExpr}
  {direction : ForDirection}

/-- The latch of a `FOR` grows from the end of the body. -/
theorem lowerFor_latch_grows {st₁ st₂ st₃ st₄ : CfgBuilder} (hk : body.Sound) (hinv : st.Inv)
    (h₁ : forEntry var varTy start stop direction st = .ok st₁) (h₂ : body st₁ = .ok st₂)
    (h₃ : st₂.sealIfOpen (.goto (st.nextId + 2)) = .ok st₃)
    (h₄ : forLatch var varTy step direction (st.nextId + 2) st.nextId st₃.popLoopExit = .ok st₄) :
    Grows st₃.blocks st₄.blocks := by
  obtain ⟨w₁, hle⟩ := forEntry_within hinv h₁
  have v₂ := Within.body w₁.scope hk h₂
  have hle₂ := v₂.le
  have v₃ := Within.sealIfOpen v₂.scope h₃ (Or.inl ⟨by omega, by omega⟩)
  have hle₃ := v₃.le
  have w₃ := Within.popLoopExit (Scope.refl hinv) (w₁.trans (v₂.trans v₃))
  have hallow : Scope.Allowed st st₃.popLoopExit st.nextId :=
    Or.inl ⟨le_rfl, Nat.lt_of_lt_of_le (by omega) hle₃⟩
  exact (forLatch_within w₃.scope h₄ (by omega) hallow).grows

theorem lowerFor_runs (hk : body.Sound)
    (r : Runs (lowerFor var varTy start stop step direction body) st G) :
    ∃ s, forEntry var varTy start stop direction st = .ok s ∧
      s.handlerStack = st.handlerStack ∧ Runs body s G := by
  obtain ⟨hinv, _, st', hs, hG⟩ := r
  simp only [lowerFor, bind_eq_ok] at hs
  obtain ⟨st₁, h₁, st₂, h₂, st₃, h₃, st₄, h₄, h₅⟩ := hs
  obtain ⟨w₁, _⟩ := forEntry_within hinv h₁
  exact ⟨st₁, h₁, w₁.handlers, Runs.of_body w₁.scope (forEntry_after hinv h₁).1 h₂
    (((CfgBuilder.sealIfOpen_grows h₃).trans (lowerFor_latch_grows hk hinv h₁ h₂ h₃ h₄)).trans
      ((CfgBuilder.startBlock_grows h₅).trans hG))⟩

end For

end Loops

section If

variable {cond : HirExpr} {thenBody : Lowering} {elsifs : List (HirExpr × Lowering)}
  {elseBody : Option Lowering}

/-- The `i`-th `ELSIF` body runs after the tests and bodies before it; there is a test
after each of those. -/
theorem lowerElsifs_runs {merge cur out : Nat} {hasElse : Bool} (h : Scope st₀ st)
    (hk : ∀ e ∈ elsifs, Lowering.Sound e.2)
    (hs : lowerElsifs merge hasElse elsifs cur st = .ok (out, st'))
    (hmerge : st₀.nextId ≤ merge ∧ merge < st.nextId) (hcur : st₀.nextId ≤ cur)
    (hG : Grows st'.blocks G) {i : Nat} {e : HirExpr × Lowering} (hi : elsifs[i]? = some e) :
    ∃ cur' s₁ s₂ s₃ s, lowerElsifs merge true (elsifs.take i) cur st = .ok (cur', s₁) ∧
      s₁.startBlock cur' = .ok s₂ ∧
      lowerTest e.1 merge (decide (i + 1 < elsifs.length) || hasElse) s₂ = .ok s₃ ∧
      armEntry s₂.nextId [] s₃ = .ok s ∧ s.handlerStack = st.handlerStack ∧ Runs e.2 s G := by
  induction elsifs generalizing cur st i with
  | nil => simp at hi
  | cons e₀ rest ih =>
    obtain ⟨cond, body⟩ := e₀
    simp only [lowerElsifs, bind_eq_ok] at hs
    obtain ⟨st₁, h₁, st₂, h₂, st₃, h₃, h₄⟩ := hs
    rw [forall_mem_cons] at hk
    obtain ⟨v₁, v₂, v₃, hmerge₃, hcur₃⟩ := elsif_within h hk.1 hmerge hcur h₁ h₂ h₃
    cases i with
    | zero =>
      obtain rfl : (cond, body) = e := by simpa using hi
      obtain ⟨w₄, _⟩ := lowerElsifs_within v₃.scope hk.2 h₄ hmerge₃ hcur₃
      obtain ⟨s, hs, hh, hr⟩ := lowerArm_runs v₂.scope h₃ v₁.scope.nextId_le
        (w₄.grows.trans hG)
      refine ⟨cur, st, st₁, st₂, s, rfl, h₁, ?_, hs, hh.trans v₂.handlers, hr⟩
      have hmore : (decide (0 + 1 < ((cond, body) :: rest).length) || hasElse) =
          (!rest.isEmpty || hasElse) := by
        cases rest <;> simp
      rw [hmore]
      exact h₂
    | succ i =>
      have hi' : rest[i]? = some e := by simpa using hi
      have hne : rest ≠ [] := by
        rintro rfl
        simp at hi'
      have hmore : (!rest.isEmpty || hasElse) = true := by simp [hne]
      rw [hmore] at h₂ h₄ hcur₃
      obtain ⟨cur', s₁, s₂, s₃, s, e₁, e₂, e₃, e₄, hh, hr⟩ :=
        ih v₃.scope hk.2 h₄ hmerge₃ hcur₃ hi'
      refine ⟨cur', s₁, s₂, s₃, s, ?_, e₂, by simpa using e₃, e₄, hh.trans v₃.handlers, hr⟩
      simp only [take_succ_cons, lowerElsifs, bind_eq_ok, Bool.or_true]
      exact ⟨st₁, h₁, st₂, h₂, st₃, h₃, e₁⟩

/-- The bodies of an `IF` run in the states its tests lead to. -/
theorem lowerIf_runs (hthen : thenBody.Sound) (helsifs : ∀ e ∈ elsifs, Lowering.Sound e.2)
    (helse : ∀ k ∈ elseBody, Lowering.Sound k)
    (r : Runs (lowerIf cond thenBody elsifs elseBody) st G) :
    ∃ st₂ st₃, lowerTest cond st.nextId (!elsifs.isEmpty || elseBody.isSome) st.newBlock =
        .ok st₂ ∧ lowerArm (st.nextId + 1) [] thenBody st.nextId st₂ = .ok st₃ ∧
      (∃ s, armEntry (st.nextId + 1) [] st₂ = .ok s ∧ s.handlerStack = st.handlerStack ∧
        Runs thenBody s G) ∧
      (∀ i e, elsifs[i]? = some e → ∃ cur' s₁ s₂ s₃ s,
        lowerElsifs st.nextId true (elsifs.take i)
          (falseTarget st.nextId (!elsifs.isEmpty || elseBody.isSome) st.newBlock) st₃ =
            .ok (cur', s₁) ∧
        s₁.startBlock cur' = .ok s₂ ∧
        lowerTest e.1 st.nextId (decide (i + 1 < elsifs.length) || elseBody.isSome) s₂ = .ok s₃ ∧
        armEntry s₂.nextId [] s₃ = .ok s ∧ s.handlerStack = st.handlerStack ∧ Runs e.2 s G) ∧
      ∀ k ∈ elseBody, ∃ cur' s₁ s,
        lowerElsifs st.nextId true elsifs
          (falseTarget st.nextId (!elsifs.isEmpty || elseBody.isSome) st.newBlock) st₃ =
            .ok (cur', s₁) ∧
        armEntry cur' [] s₁ = .ok s ∧ s.handlerStack = st.handlerStack ∧ Runs k s G := by
  obtain ⟨hinv, _, st', hs, hG⟩ := r
  simp only [lowerIf, bind_eq_ok] at hs
  obtain ⟨st₂, h₂, st₃, h₃, ⟨cur, st₄⟩, h₄, st₅, h₅, h₆⟩ := hs
  obtain ⟨v₂, v₃, w₄, hlt₃, hm₄, hcur₀, hcur⟩ := if_within hinv hthen helsifs h₂ h₃ h₄
  rw [CfgBuilder.newBlock_nextId] at h₃
  have hmerge₃ := And.intro (Nat.le_refl st.nextId) hlt₃
  have v₄ := v₃.trans w₄
  have w₅ := lowerElse_within v₄.scope helse h₅ hm₄ hcur
  have hG₅ : Grows st₅.blocks G := (CfgBuilder.startIfReached_grows h₆).trans hG
  have hG₄ : Grows st₄.blocks G := w₅.grows.trans hG₅
  refine ⟨st₂, st₃, h₂, h₃, ?_, ?_, ?_⟩
  · obtain ⟨s, hs, hh, hr⟩ := lowerArm_runs v₂.scope h₃ (by omega) (w₄.grows.trans hG₄)
    exact ⟨s, hs, hh.trans v₂.handlers, hr⟩
  · intro i e hi
    obtain ⟨cur', s₁, s₂, s₃, s, e₁, e₂, e₃, e₄, hh, hr⟩ :=
      lowerElsifs_runs v₃.scope helsifs h₄ hmerge₃ hcur₀ hG₄ hi
    exact ⟨cur', s₁, s₂, s₃, s, e₁, e₂, e₃, e₄, hh.trans v₃.handlers, hr⟩
  · intro k hk
    obtain rfl : elseBody = some k := hk
    obtain ⟨s, hs, hh, hr⟩ := lowerArm_runs v₄.scope h₅ hcur hG₅
    exact ⟨cur, st₄, s, h₄, hs, hh.trans v₄.handlers, hr⟩

end If

section Switch

variable {expr : HirExpr} {arms : List Arm} {elseBody : Option Lowering}

theorem getElem?_zip_range' {α : Type} {as : List α} {n i : Nat} {a : α} (hi : as[i]? = some a) :
    ((List.range' n as.length).zip as)[i]? = some (n + i, a) := by
  have hlt := (List.getElem?_eq_some_iff.mp hi).1
  rw [getElem?_zip_eq_some]
  exact ⟨by simp [hlt], hi⟩

/-- The arms of a switch run after the dispatch, in order, and then the default. -/
theorem lowerSwitch_runs (harms : ∀ a ∈ arms, a.body.Sound)
    (helse : ∀ k ∈ elseBody, Lowering.Sound k)
    (r : Runs (lowerSwitch expr arms elseBody) st G) :
    ∃ st₁ st₂, switchEntry expr arms st = .ok st₁ ∧
      lowerArms st.nextId ((List.range' (st.nextId + 2) arms.length).zip arms) st₁ = .ok st₂ ∧
      Grows st₁.blocks G ∧
      (∀ i a, arms[i]? = some a → ∃ s₁ s,
        lowerArms st.nextId (((List.range' (st.nextId + 2) arms.length).zip arms).take i) st₁ =
          .ok s₁ ∧
        armEntry (st.nextId + 2 + i) a.binding s₁ = .ok s ∧ s.handlerStack = st.handlerStack ∧
        Runs a.body s G) ∧
      ∀ k ∈ elseBody, ∃ s, armEntry (st.nextId + 1) [] st₂ = .ok s ∧
        s.handlerStack = st.handlerStack ∧ Runs k s G := by
  obtain ⟨hinv, _, st', hs, hG⟩ := r
  simp only [lowerSwitch, bind_eq_ok] at hs
  obtain ⟨st₁, h₁, st₂, h₂, st₃, h₃, h₄⟩ := hs
  obtain ⟨w₁, hlen⟩ := switchEntry_within hinv h₁
  have hsound := switchArms_sound st harms (n := st.nextId + 2) (by omega)
  have hm : Scope.Allowed st st₁ st.nextId := Or.inl ⟨le_rfl, by omega⟩
  have v₂ := lowerArms_within w₁.scope hsound h₂ hm
  have v₃ := lowerArm_within v₂.scope (sound_getD helse) h₃ (by omega) (hm.mono v₂.le)
  have hG₃ : Grows st₃.blocks G := (CfgBuilder.startIfReached_grows h₄).trans hG
  have hG₂ := v₃.grows.trans hG₃
  refine ⟨st₁, st₂, h₁, h₂, v₂.grows.trans hG₂, ?_, ?_⟩
  · intro i a hi
    obtain ⟨s₁, s, e₁, e₂, hh, hr⟩ := lowerArms_runs w₁.scope hsound hm h₂ hG₂
      (getElem?_zip_range' hi)
    exact ⟨s₁, s, e₁, e₂, hh.trans w₁.handlers, hr⟩
  · intro k hk
    obtain rfl : elseBody = some k := hk
    obtain ⟨s, hs, hh, hr⟩ := lowerArm_runs v₂.scope h₃ (by omega) hG₃
    exact ⟨s, hs, (hh.trans v₂.handlers).trans w₁.handlers, hr⟩

end Switch

section Try

variable {body : Lowering} {clauses : List Clause} {finallyBody : Option (List HirStmt)}

/-- The body of a `TRY` runs in the region of its catch block; the clauses run after
the dispatch, in the region the `TRY` is in. -/
theorem lowerTry_runs (hk : body.Sound) (hclauses : ∀ c ∈ clauses, c.body.Sound)
    (r : Runs (lowerTry body clauses finallyBody) st G) :
    ∃ st₁ st₂ st₃ st₄, tryEntry finallyBody.isSome st = .ok st₁ ∧ body st₁ = .ok st₂ ∧
      st₂.popHandler.sealIfOpen (.goto (finallyTarget st.nextId finallyBody.isSome)) = .ok st₃ ∧
      lowerCatch (st.nextId + 1) (finallyTarget st.nextId finallyBody.isSome) clauses finallyBody
        st₃ = .ok st₄ ∧
      st₁.handlerStack = (st.nextId + 1) :: st.handlerStack ∧ Runs body st₁ G ∧
      ∀ i c, clauses[i]? = some c → ∃ s₁ s₂ s,
        catchEntry (st.nextId + 1) (clauses.map Clause.exception) st₃ = .ok s₁ ∧
        lowerArms (finallyTarget st.nextId finallyBody.isSome)
          ((handlerArms (st₃.nextId + 1) clauses).take i) s₁ = .ok s₂ ∧
        armEntry (st₃.nextId + 1 + i) [] s₂ = .ok s ∧ s.handlerStack = st.handlerStack ∧
        Runs c.body s G := by
  obtain ⟨hinv, hopen, st', hs, hG⟩ := r
  simp only [lowerTry, bind_eq_ok] at hs
  obtain ⟨st₁, h₁, st₂, h₂, st₃, h₃, st₄, h₄, st₅, h₅, h₆⟩ := hs
  obtain ⟨w₁, hle, w₂, hle₂, hfin⟩ := try_within hinv hk h₁ h₂
  have hm : Scope.Allowed st st₂ st.nextId := Or.inl ⟨le_rfl, by omega⟩
  have v₃ := Within.sealIfOpen w₂.scope h₃ hfin
  have v₄ := lowerCatch_within v₃.scope hclauses h₄ (by omega) (hfin.mono v₃.le)
  have v₅ := lowerFinally_within v₄.scope h₅ (le_finallyTarget _ _)
    (hm.mono (v₃.trans v₄).le)
  have hG₄ : Grows st₄.blocks G :=
    v₅.grows.trans ((CfgBuilder.startIfReached_grows h₆).trans hG)
  refine ⟨st₁, st₂, st₃, st₄, h₁, h₂, h₃, h₄, w₁.handlers, ?_, ?_⟩
  · refine Runs.of_body w₁.scope (tryEntry_after hinv hopen h₁).1 h₂ ?_
    exact (CfgBuilder.sealIfOpen_grows h₃).trans (v₄.grows.trans hG₄)
  · intro i c hi
    unfold lowerCatch at h₄
    split at h₄
    · rename_i hnil
      rw [List.isEmpty_iff] at hnil
      subst hnil
      simp at hi
    · simp only [bind_eq_ok] at h₄
      obtain ⟨s₁, g₁, s₂, g₂, g₃⟩ := h₄
      have u₁ := catchEntry_within v₃.scope g₁ (by omega)
      have hle₃ := v₃.scope.nextId_le
      have hsound := handlerArms_sound hclauses (Nat.le_succ_of_le hle₃)
      have hfin₁ := hfin.mono (v₃.trans u₁).le
      have u₂ := lowerArms_within u₁.scope hsound g₂ hfin₁
      have u₃ := lowerReraise_within u₂.scope g₃ hle₃
      have hget : (handlerArms (st₃.nextId + 1) clauses)[i]? =
          some (st₃.nextId + 1 + i, ⟨[], [], c.body⟩) := by
        have hmap : (clauses.map fun c => (⟨[], [], c.body⟩ : Arm))[i]? =
            some ⟨[], [], c.body⟩ := by simp [hi]
        have hzip := getElem?_zip_range' (n := st₃.nextId + 1) hmap
        rwa [length_map] at hzip
      obtain ⟨s₃, s, e₁, e₂, hh, hr⟩ := lowerArms_runs u₁.scope hsound hfin₁ g₂
        (u₃.grows.trans hG₄) hget
      exact ⟨s₁, s₃, s, g₁, e₁, e₂, ((hh.trans u₁.handlers).trans v₃.handlers).trans w₂.handlers,
        hr⟩

end Try

/-- The body of a `LOCK` runs after the acquisition. -/
theorem lowerLock_runs {mutex : HirExpr} {loc : SourceLoc} {body : Lowering} (hk : body.Sound)
    (r : Runs (lowerLock mutex loc body) st G) :
    Runs body (st.pushStmt (lockCall mutex loc)) G := by
  obtain ⟨hinv, hopen, st', hs, hG⟩ := r
  simp only [lowerLock, bind_eq_ok, pure_eq_ok] at hs
  obtain ⟨st₁, h₁, rfl⟩ := hs
  have hsc := (Scope.refl hinv).pushStmt (lockCall mutex loc)
  have w := hk _ st₁ hsc.inv h₁
  refine Runs.of_body hsc (by simpa [CfgBuilder.isOpen] using hopen) h₁ (Grows.trans ?_ hG)
  split
  · exact ((Scope.refl w.scope.inv).pushStmt _).grows
  · exact Grows.refl _

end Mx

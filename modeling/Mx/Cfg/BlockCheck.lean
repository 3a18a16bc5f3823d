import Mx.Cfg.LoweringProgress

/-!
# Checks of blocks

What lowering adds to the blocks passes a check of their statements and switches exactly if the
statements and switches of the lowered constructs do.
-/

namespace Mx

open Mx.Core List

/-- What the statements of a block are to pass, and the labels of its switch. The statements that
lowering adds of its own accord pass. -/
structure BlockCheck where
  stmt : HirStmt → Bool
  labels : List (List CaseLabel) → Bool
  assign : ∀ var ty value, stmt (assignVar var ty value) = true
  mutex : ∀ mangled sourceName mutex loc, stmt (mutexCall mangled sourceName mutex loc) = true

namespace BlockCheck

variable (C : BlockCheck)

/-- All of the statements pass. -/
def stmts (ss : List HirStmt) : Bool := ss.all C.stmt

@[simp] theorem stmts_nil : C.stmts [] = true := rfl

@[simp] theorem stmts_cons (s : HirStmt) (ss : List HirStmt) :
    C.stmts (s :: ss) = (C.stmt s && C.stmts ss) := rfl

/-- Only a switch can fail. -/
def term : Terminator → Bool
  | .switch _ arms _ => C.labels (arms.map SwitchArm.labels)
  | _ => true

/-- The block passes. -/
def Holds (b : BasicBlock) : Prop :=
  (∀ s ∈ b.stmts, C.stmt s = true) ∧ ∀ t ∈ b.terminator, C.term t = true

/-- All of the blocks pass. -/
def Passes (st : CfgBuilder) : Prop := ∀ b ∈ st.blocks, C.Holds b

end BlockCheck

/-- The blocks pass after the lowering exactly if they did before and `p` holds. -/
def Lowering.Adds (C : BlockCheck) (k : Lowering) (p : Bool) : Prop :=
  ∀ st st', st.Inv → st.isOpen = true → k st = .ok st' → (C.Passes st' ↔ C.Passes st ∧ p = true)

theorem Lowering.Adds.congr {C : BlockCheck} {k : Lowering} {p q : Bool} (h : k.Adds C p)
    (hpq : p = q) : k.Adds C q := hpq ▸ h

theorem forall₂_true {α : Type} {R : α → Bool → Prop} {l : List α} (h : ∀ a ∈ l, R a true) :
    List.Forall₂ R l (l.map fun _ => true) :=
  forall₂_map_right_iff.mpr (forall₂_same.mpr h)

/-! ## One builder operation -/

theorem forall_mem_set {α : Type} {P : α → Prop} {q : Prop} {l : List α} {i : Nat} {a b : α}
    (ha : l[i]? = some a) (hb : P b ↔ P a ∧ q) :
    (∀ c ∈ l.set i b, P c) ↔ (∀ c ∈ l, P c) ∧ q := by
  induction l generalizing i with
  | nil => cases ha
  | cons c l ih =>
    cases i with
    | zero =>
      obtain rfl := Option.some.inj ha
      rw [set_cons_zero, forall_mem_cons, forall_mem_cons, hb]
      tauto
    | succ i =>
      rw [set_cons_succ, forall_mem_cons, forall_mem_cons, ih ha, and_assoc]

section Adds

variable {C : BlockCheck} {st₀ st st' : CfgBuilder}

theorem passes_alloc (h : Option Nat) : C.Passes (st.alloc h) ↔ C.Passes st := by
  simp [BlockCheck.Passes, BlockCheck.Holds, or_imp, forall_and]

theorem passes_newBlocks (n : Nat) : C.Passes (st.newBlocks n) ↔ C.Passes st := by
  induction n generalizing st with
  | zero => rfl
  | succ n ih => exact ih.trans (passes_alloc _)

theorem passes_newBlocksNoHandler (n : Nat) :
    C.Passes (st.newBlocksNoHandler n) ↔ C.Passes st := by
  induction n generalizing st with
  | zero => rfl
  | succ n ih => exact ih.trans (passes_alloc _)

theorem passes_sealBlock_and {t : Terminator} (hs : st.sealBlock t = .ok st') :
    C.Passes st' ↔ C.Passes st ∧ C.term t = true := by
  obtain ⟨i, b, _, hb, hnone, rfl⟩ := CfgBuilder.sealBlock_eq_ok.mp hs
  refine forall_mem_set hb ?_
  simp [BlockCheck.Holds, hnone]

theorem passes_sealBlock {t : Terminator} (hs : st.sealBlock t = .ok st')
    (ht : C.term t = true) : C.Passes st' ↔ C.Passes st := by
  rw [passes_sealBlock_and hs, and_iff_left ht]

theorem passes_startBlock {id : Nat} (hs : st.startBlock id = .ok st') :
    C.Passes st' ↔ C.Passes st := by
  obtain ⟨_, b, _, _, rfl⟩ := CfgBuilder.startBlock_eq_ok.mp hs
  exact Iff.rfl

theorem passes_sealIfOpen {t : Nat} (hs : st.sealIfOpen (.goto t) = .ok st') :
    C.Passes st' ↔ C.Passes st := by
  unfold CfgBuilder.sealIfOpen at hs
  split at hs
  · exact passes_sealBlock hs rfl
  · cases hs
    exact Iff.rfl

theorem passes_startIfReached {m : Nat} (hs : st.startIfReached m = .ok st') :
    C.Passes st' ↔ C.Passes st := by
  unfold CfgBuilder.startIfReached at hs
  split at hs
  · exact passes_startBlock hs
  · cases hs
    exact Iff.rfl

/-- A statement appended to an open builder is stored. -/
theorem passes_pushStmt (hinv : st.Inv) (ho : st.isOpen = true) (s : HirStmt) :
    C.Passes (st.pushStmt s) ↔ C.Passes st ∧ C.stmt s = true := by
  obtain ⟨i, hi⟩ := Option.isSome_iff_exists.mp ho
  obtain ⟨b, hb, _⟩ := hinv.current i hi
  rw [BlockCheck.Passes, CfgBuilder.pushStmt, hi]
  dsimp only
  rw [modify_eq_set_getElem?, hb]
  refine forall_mem_set hb ?_
  simp only [BlockCheck.Holds, forall_mem_append, forall_mem_singleton]
  tauto

theorem passes_pushStmts (hinv : st.Inv) (ho : st.isOpen = true) (ss : List HirStmt) :
    C.Passes (st.pushStmts ss) ↔ C.Passes st ∧ C.stmts ss = true := by
  induction ss generalizing st with
  | nil => simp
  | cons s ss ih =>
    have hinv' := ((Scope.refl hinv).pushStmt s).inv
    have ho' : (st.pushStmt s).isOpen = true := by simpa [CfgBuilder.isOpen] using ho
    rw [CfgBuilder.pushStmts_cons, ih hinv' ho', passes_pushStmt hinv ho]
    simp [and_assoc]

variable {cond : HirExpr}

/-- The blocks a condition is lowered into stay empty. -/
theorem passes_exprAsBranch {t f : Nat} (hs : lowerExprAsBranch cond t f st = .ok st') :
    C.Passes st' ↔ C.Passes st := by
  fun_induction lowerExprAsBranch cond t f st generalizing st' with
  | case1 left right _ _ t f st ihl ihr | case2 left right _ _ t f st ihl ihr =>
    simp only [bind_eq_ok] at hs
    obtain ⟨st₁, h₁, st₂, h₂, h₃⟩ := hs
    rw [ihr st₂ h₃, passes_startBlock h₂, ihl h₁]
    exact passes_alloc _
  | case3 inner _ _ t f st ih => exact ih hs
  | case4 e t f st _ _ _ => exact passes_sealBlock hs rfl

/-! ## The constructs -/

theorem adds_push (s : HirStmt) :
    Lowering.Adds C (fun st => .ok (st.pushStmt s)) (C.stmt s) := by
  intro st st' hinv ho hs
  cases hs
  exact passes_pushStmt hinv ho s

theorem adds_ok : Lowering.Adds C .ok true := by
  intro st st' _ _ hs
  cases hs
  simp

theorem adds_leave {t : Terminator} (ht : C.term t = true) :
    Lowering.Adds C (fun st => st.sealBlock t) true := by
  intro st st' _ _ hs
  simpa using passes_sealBlock hs ht

theorem adds_exit : Lowering.Adds C lowerExit true := by
  intro st st' _ _ hs
  unfold lowerExit at hs
  split at hs
  · cases hs
  · simpa using passes_sealBlock hs rfl

theorem passes_armEntry {start : Nat} {before : List HirStmt} (hsc : Scope st₀ st)
    (hstart : st₀.nextId ≤ start) (hs : armEntry start before st = .ok st') :
    C.Passes st' ↔ C.Passes st ∧ C.stmts before = true := by
  simp only [armEntry, bind_eq_ok, pure_eq_ok] at hs
  obtain ⟨st₁, h₁, rfl⟩ := hs
  have v₁ := Within.startBlock hsc h₁ hstart
  rw [passes_pushStmts v₁.scope.inv (CfgBuilder.startBlock_isOpen h₁), passes_startBlock h₁]

variable {p : Bool}

variable {body : Lowering}

theorem passes_arm {start next : Nat} {before : List HirStmt}
    (hsc : Scope st₀ st) (hstart : st₀.nextId ≤ start) (hk : body.Adds C p)
    (hs : lowerArm start before body next st = .ok st') :
    C.Passes st' ↔
      (C.Passes st ∧ C.stmts before = true) ∧ p = true := by
  simp only [lowerArm, bind_eq_ok] at hs
  obtain ⟨st₁, h₁, st₂, h₂, h₃⟩ := hs
  have hinv := (armEntry_within hsc h₁ hstart).scope.inv
  rw [passes_sealIfOpen h₃, hk st₁ st₂ hinv (armEntry_isOpen h₁) h₂, passes_armEntry hsc hstart h₁]

variable {ps : List Bool}

/-- The arms of a switch whose opening statements are simple. -/
theorem passes_arms {merge : Nat} {arms : List (Nat × Arm)}
    (hsc : Scope st₀ st) (hsound : ∀ a ∈ arms, a.2.body.Sound ∧ st₀.nextId ≤ a.1)
    (hmerge : Scope.Allowed st₀ st merge)
    (hbinding : ∀ a ∈ arms, C.stmts a.2.binding = true)
    (hk : List.Forall₂ (fun a p => Lowering.Adds C a.2.body p) arms ps)
    (hs : lowerArms merge arms st = .ok st') :
    C.Passes st' ↔ C.Passes st ∧ ps.all id = true := by
  induction hk generalizing st with
  | nil =>
    cases hs
    simp
  | @cons a p rest ps ha _ ih =>
    obtain ⟨block, arm⟩ := a
    rw [forall_mem_cons] at hsound hbinding
    simp only [lowerArms, bind_eq_ok] at hs
    obtain ⟨st₁, h₁, h₂⟩ := hs
    have v := lowerArm_within hsc hsound.1.1 h₁ hsound.1.2 hmerge
    rw [ih v.scope hsound.2 (hmerge.mono v.le) hbinding.2 h₂, passes_arm hsc hsound.1.2 ha h₁]
    simp [hbinding.1, and_assoc]

theorem passes_elsifs {merge cur out : Nat} {hasElse : Bool}
    {elsifs : List (HirExpr × Lowering)} (hsc : Scope st₀ st)
    (hsound : ∀ e ∈ elsifs, Lowering.Sound e.2)
    (hmerge : st₀.nextId ≤ merge ∧ merge < st.nextId) (hcur : st₀.nextId ≤ cur)
    (hk : List.Forall₂ (fun e p => Lowering.Adds C e.2 p) elsifs ps)
    (hs : lowerElsifs merge hasElse elsifs cur st = .ok (out, st')) :
    C.Passes st' ↔ C.Passes st ∧ ps.all id = true := by
  induction hk generalizing cur st with
  | nil =>
    cases hs
    simp
  | @cons e p rest ps he _ ih =>
    obtain ⟨cond, body⟩ := e
    rw [forall_mem_cons] at hsound
    simp only [lowerElsifs, bind_eq_ok] at hs
    obtain ⟨st₁, h₁, st₂, h₂, st₃, h₃, h₄⟩ := hs
    obtain ⟨v₁, v₂, v₃, hmerge₃, hcur₃⟩ := elsif_within hsc hsound.1 hmerge hcur h₁ h₂ h₃
    rw [ih v₃.scope hsound.2 hmerge₃
        hcur₃ h₄,
      passes_arm v₂.scope v₁.scope.nextId_le he h₃, passes_exprAsBranch h₂,
      passes_newBlocks, passes_startBlock h₁]
    simp [and_assoc]

theorem adds_if {thenBody : Lowering} {elsifs : List (HirExpr × Lowering)}
    {elseBody : Option Lowering} {pe : Bool} (sthen : thenBody.Sound)
    (selsifs : ∀ e ∈ elsifs, Lowering.Sound e.2) (hthen : thenBody.Adds C p)
    (helsifs : List.Forall₂ (fun e p => Lowering.Adds C e.2 p) elsifs ps)
    (helse : ∀ k ∈ elseBody, Lowering.Adds C k pe) (hnone : elseBody = none → pe = true) :
    (lowerIf cond thenBody elsifs elseBody).Adds C (p && ps.all id && pe) := by
  intro st st' hinv _ hs
  simp only [lowerIf, bind_eq_ok] at hs
  obtain ⟨st₂, h₂, st₃, h₃, ⟨cur, st₄⟩, h₄, st₅, h₅, h₆⟩ := hs
  obtain ⟨v₂, v₃, w₄, hlt₃, hm₄, hcur₀, hcur⟩ := if_within hinv sthen selsifs h₂ h₃ h₄
  have hmerge₃ := And.intro (Nat.le_refl st.nextId) hlt₃
  have k₂ : C.Passes st₂ ↔ C.Passes st := by
    rw [passes_exprAsBranch h₂, passes_newBlocks]
    exact passes_alloc _
  have k₄ := passes_elsifs v₃.scope selsifs hmerge₃ hcur₀ helsifs h₄
  rw [passes_arm v₂.scope (by simp) hthen h₃, k₂] at k₄
  rw [passes_startIfReached h₆]
  cases elseBody with
  | none =>
    cases h₅
    obtain rfl := hnone rfl
    rw [k₄]
    simp [and_assoc]
  | some body =>
    rw [passes_arm w₄.scope hcur (helse body rfl) h₅, k₄]
    simp [and_assoc]

theorem passes_leaveLoop {back x : Nat} (hs : leaveLoop back x st = .ok st') :
    C.Passes st' ↔ C.Passes st := by
  simp only [leaveLoop, bind_eq_ok] at hs
  obtain ⟨st₁, h₁, h₂⟩ := hs
  have k₁ := passes_sealIfOpen (C := C) h₁
  have k₂ := passes_startBlock (C := C) h₂
  exact k₂.trans k₁

theorem passes_whileEntry (hs : whileEntry cond st = .ok st') :
    C.Passes st' ↔ C.Passes st := by
  simp only [whileEntry, bind_eq_ok] at hs
  obtain ⟨s₁, e₁, s₂, e₂, s₃, e₃, e₄⟩ := hs
  have k₃ : C.Passes s₃ ↔ C.Passes st := by
    rw [passes_exprAsBranch e₃, passes_startBlock e₂, passes_sealBlock e₁ rfl, passes_newBlocks]
  exact (passes_startBlock e₄).trans k₃

theorem adds_while (hk : body.Adds C p) : (lowerWhile cond body).Adds C p := by
  intro st st' hinv _ hs
  simp only [lowerWhile, bind_eq_ok] at hs
  obtain ⟨st₁, h₁, st₂, h₂, h₃⟩ := hs
  rw [passes_leaveLoop h₃, hk st₁ st₂ (whileEntry_within hinv h₁).1.scope.inv
    (whileEntry_after hinv h₁).1 h₂, passes_whileEntry h₁]

theorem passes_loopEntry (hs : loopEntry st = .ok st') :
    C.Passes st' ↔ C.Passes st := by
  simp only [loopEntry, bind_eq_ok] at hs
  obtain ⟨s₁, e₁, e₂⟩ := hs
  have k₁ : C.Passes s₁ ↔ C.Passes st := by
    rw [passes_sealBlock e₁ rfl, passes_newBlocks]
  exact (passes_startBlock e₂).trans k₁

theorem adds_loop (hk : body.Adds C p) : (lowerLoop body).Adds C p := by
  intro st st' hinv _ hs
  simp only [lowerLoop, bind_eq_ok] at hs
  obtain ⟨st₁, h₁, st₂, h₂, h₃⟩ := hs
  rw [passes_leaveLoop h₃, hk st₁ st₂ (loopEntry_within hinv h₁).1.scope.inv
    (loopEntry_after hinv h₁).1 h₂, passes_loopEntry h₁]

theorem adds_repeat (hk : body.Adds C p) :
    (lowerRepeat body cond).Adds C p := by
  intro st st' hinv _ hs
  simp only [lowerRepeat, bind_eq_ok] at hs
  obtain ⟨st₁, h₁, st₂, h₂, st₃, h₃, h₄⟩ := hs
  have k₃ : C.Passes st₃ ↔ C.Passes st₂ := by
    unfold lowerUntil at h₃
    split at h₃
    · exact passes_exprAsBranch h₃
    · cases h₃
      exact Iff.rfl
  have k₄ := (passes_startBlock h₄).trans k₃
  rw [k₄, hk st₁ st₂ (loopEntry_within hinv h₁).1.scope.inv (loopEntry_after hinv h₁).1 h₂,
    passes_loopEntry h₁]

theorem passes_forEntry {var : String} {varTy : TypeId} {start stop : HirExpr}
    {direction : ForDirection} (hinv : st.Inv) (ho : st.isOpen = true)
    (hs : forEntry var varTy start stop direction st = .ok st') :
    C.Passes st' ↔ C.Passes st := by
  simp only [forEntry, bind_eq_ok] at hs
  obtain ⟨s₁, e₁, s₂, e₂, s₃, e₃, e₄⟩ := hs
  have k₃ : C.Passes s₃ ↔ C.Passes st := by
    rw [passes_sealBlock e₃ rfl, passes_startBlock e₂, passes_sealBlock e₁ rfl,
      passes_newBlocks, passes_pushStmt hinv ho]
    simp [C.assign]
  exact (passes_startBlock e₄).trans k₃

theorem adds_for {var : String} {varTy : TypeId} {start stop : HirExpr}
    {step : Option HirExpr} {direction : ForDirection}
    (sbody : body.Sound) (hk : body.Adds C p) :
    (lowerFor var varTy start stop step direction body).Adds C p := by
  intro st st' hinv ho hs
  simp only [lowerFor, forLatch, bind_eq_ok] at hs
  obtain ⟨st₁, h₁, st₂, h₂, st₃, h₃, st₄, ⟨s₅, e₅, e₆⟩, h₅⟩ := hs
  obtain ⟨w₁, hle⟩ := forEntry_within hinv h₁
  have v₂ := Within.body w₁.scope sbody h₂
  have hle₂ := v₂.le
  have v₃ := Within.sealIfOpen v₂.scope h₃ (Or.inl ⟨by omega, by omega⟩)
  have w₃ := Within.popLoopExit (Scope.refl hinv) (w₁.trans (v₂.trans v₃))
  have k₅ := passes_armEntry (C := C) w₃.scope (by omega) e₅
  have k₃ := passes_sealIfOpen (C := C) h₃
  change C.Passes st₃.popLoopExit ↔ _ at k₃
  rw [passes_startBlock h₅, passes_sealBlock e₆ rfl, k₅, k₃, hk st₁ st₂ w₁.scope.inv
    (forEntry_after hinv h₁).1 h₂, passes_forEntry hinv ho h₁]
  simp [C.assign]

/-- The labels of the arms that a switch is sealed with. -/
theorem labels_zipWith (n : Nat) (arms : List Arm) :
    (List.zipWith (fun b arm => (⟨arm.labels, b⟩ : SwitchArm)) (List.range' n arms.length)
      arms).map SwitchArm.labels = arms.map Arm.labels := by
  rw [map_zipWith]
  exact ext_getElem (by simp) (by simp)

theorem adds_switch {expr : HirExpr} {arms : List Arm} {elseBody : Option Lowering} {pe : Bool}
    (sarms : ∀ a ∈ arms, a.body.Sound)
    (hbinding : ∀ a ∈ arms, C.stmts a.binding = true)
    (hk : List.Forall₂ (fun a p => Lowering.Adds C a.body p) arms ps)
    (helse : ∀ k ∈ elseBody, Lowering.Adds C k pe) (hnone : elseBody = none → pe = true) :
    (lowerSwitch expr arms elseBody).Adds C
      (C.labels (arms.map Arm.labels) && ps.all id && pe) := by
  intro st st' hinv _ hs
  simp only [lowerSwitch, bind_eq_ok] at hs
  obtain ⟨st₁, h₁, st₂, h₂, st₃, h₃, h₄⟩ := hs
  obtain ⟨w₁, hlen⟩ := switchEntry_within hinv h₁
  have hsound := switchArms_sound st sarms (n := st.nextId + 2) (by omega)
  have hm : Scope.Allowed st st₁ st.nextId := Or.inl ⟨le_rfl, by omega⟩
  have v₂ := lowerArms_within w₁.scope hsound h₂ hm
  have k₁ : C.Passes st₁ ↔ C.Passes st ∧ C.labels (arms.map Arm.labels) = true := by
    rw [passes_sealBlock_and h₁, passes_newBlocks, BlockCheck.term, labels_zipWith]
  have k₂ := passes_arms w₁.scope hsound hm
    (fun a ha => hbinding a.2 (mem_range'_zip ha).2.2) (forall₂_zip_range' hk _) h₂
  have hdefault : Lowering.Adds C (elseBody.getD .ok) pe := by
    cases elseBody with
    | none =>
      obtain rfl := hnone rfl
      exact adds_ok
    | some k => exact helse k rfl
  rw [passes_startIfReached h₄, passes_arm v₂.scope (by omega) hdefault h₃, k₂, k₁]
  simp [and_assoc]

theorem passes_dispatch {reraise : Nat} {clauses : List (Nat × Option SymbolId)}
    (hs : lowerDispatch reraise clauses st = .ok st') : C.Passes st' ↔ C.Passes st := by
  induction clauses generalizing st with
  | nil =>
    cases hs
    exact Iff.rfl
  | cons c rest ih =>
    obtain ⟨t, st₁, ht, -, h₁, h₂⟩ | ⟨e, st₁, st₂, -, -, h₁, h₂, h₃⟩ := lowerDispatch_cons hs
    · obtain rfl | ⟨e, rfl⟩ := ht <;> rw [ih h₂, passes_sealBlock h₁ rfl]
    · rw [ih h₃, passes_startBlock h₂, passes_sealBlock h₁ rfl]
      exact passes_alloc none

variable {finallyBody : Option (List HirStmt)}

theorem passes_reraise {block : Nat} (hsc : Scope st₀ st) (hblock : st₀.nextId ≤ block)
    (hs : lowerReraise block finallyBody st = .ok st') :
    C.Passes st' ↔
      C.Passes st ∧ C.stmts (finallyBody.getD []) = true := by
  simp only [lowerReraise, bind_eq_ok] at hs
  obtain ⟨st₁, h₁, h₂⟩ := hs
  rw [passes_sealBlock h₂ rfl, passes_armEntry hsc hblock h₁]

theorem passes_catch {catchBlock finallyNormal : Nat} {clauses : List Clause} (hsc : Scope st₀ st)
    (sclauses : ∀ c ∈ clauses, c.body.Sound) (hcatch : st₀.nextId ≤ catchBlock)
    (hfin : Scope.Allowed st₀ st finallyNormal)
    (hk : List.Forall₂ (fun c p => Lowering.Adds C c.body p) clauses ps)
    (hs : lowerCatch catchBlock finallyNormal clauses finallyBody st = .ok st') :
    C.Passes st' ↔
      (C.Passes st ∧ ps.all id = true) ∧ C.stmts (finallyBody.getD []) = true := by
  unfold lowerCatch at hs
  split at hs
  · rename_i hnil
    rw [List.isEmpty_iff] at hnil
    subst hnil
    cases hk
    simpa using passes_reraise hsc hcatch hs
  · simp only [bind_eq_ok] at hs
    obtain ⟨st₁, h₁, st₂, h₂, h₃⟩ := hs
    have w₁ := catchEntry_within hsc h₁ hcatch
    have hle := hsc.nextId_le
    have hsound := handlerArms_sound sclauses (Nat.le_succ_of_le hle)
    have hbinding : ∀ a ∈ handlerArms (st.nextId + 1) clauses,
        C.stmts a.2.binding = true := by
      intro a ha
      obtain ⟨c, _, hc⟩ := mem_map.mp (of_mem_zip ha).2
      rw [← hc]
      rfl
    have harms : List.Forall₂ (fun a p => Lowering.Adds C a.2.body p)
        (handlerArms (st.nextId + 1) clauses) ps := by
      have hmap : List.Forall₂ (fun (a : Arm) p => Lowering.Adds C a.body p)
          (clauses.map fun c => ⟨[], [], c.body⟩) ps := forall₂_map_left_iff.mpr hk
      have hzip := forall₂_zip_range' hmap (st.nextId + 1)
      rwa [length_map] at hzip
    have v₂ := lowerArms_within w₁.scope hsound h₂ (hfin.mono w₁.le)
    have k₁ : C.Passes st₁ ↔ C.Passes st := by
      simp only [catchEntry, bind_eq_ok] at h₁
      obtain ⟨s, e₁, e₂⟩ := h₁
      rw [passes_dispatch e₂, passes_newBlocksNoHandler, passes_startBlock e₁]
    rw [passes_reraise v₂.scope hle h₃,
      passes_arms w₁.scope hsound (hfin.mono w₁.le) hbinding harms h₂, k₁]

theorem passes_tryEntry {hasFinally : Bool} (hs : tryEntry hasFinally st = .ok st') :
    C.Passes st' ↔ C.Passes st := by
  simp only [tryEntry, bind_eq_ok] at hs
  obtain ⟨s₁, e₁, e₂⟩ := hs
  rw [passes_startBlock e₂, passes_sealIfOpen e₁, CfgBuilder.newBlock_eq, passes_alloc]
  cases hasFinally with
  | false => exact (passes_alloc none).trans (passes_alloc _)
  | true => exact (passes_alloc _).trans ((passes_alloc none).trans (passes_alloc _))

/-- The `FINALLY` part is copied on every way out of the `TRY`. -/
theorem adds_try {clauses : List Clause} (sbody : body.Sound)
    (sclauses : ∀ c ∈ clauses, c.body.Sound) (hk : body.Adds C p)
    (hclauses : List.Forall₂ (fun c p => Lowering.Adds C c.body p) clauses ps) :
    (lowerTry body clauses finallyBody).Adds C
      (p && ps.all id && C.stmts (finallyBody.getD [])) := by
  intro st st' hinv hopen hs
  simp only [lowerTry, bind_eq_ok] at hs
  obtain ⟨st₁, h₁, st₂, h₂, st₃, h₃, st₄, h₄, st₅, h₅, h₆⟩ := hs
  obtain ⟨w₁, hle, w₂, hle₂, hfin⟩ := try_within hinv sbody h₁ h₂
  have v₃ := Within.sealIfOpen w₂.scope h₃ hfin
  have v₄ := lowerCatch_within v₃.scope sclauses h₄ (by omega) (hfin.mono v₃.le)
  have k₃ := passes_sealIfOpen (C := C) h₃
  change _ ↔ C.Passes st₂ at k₃
  have k₄ := passes_catch v₃.scope sclauses (by omega) (hfin.mono v₃.le) hclauses h₄
  rw [k₃, hk st₁ st₂ w₁.scope.inv (tryEntry_after hinv hopen h₁).1 h₂, passes_tryEntry h₁] at k₄
  rw [passes_startIfReached h₆]
  cases finallyBody with
  | none =>
    cases h₅
    rw [k₄]
    simp [and_assoc]
  | some ss =>
    rw [passes_arm v₄.scope (le_finallyTarget _ _) adds_ok h₅, k₄]
    simp [and_assoc]

theorem adds_lock {mutex : HirExpr} {loc : SourceLoc}
    (sbody : body.Sound) (hk : body.Adds C p) : (lowerLock mutex loc body).Adds C p := by
  intro st st' hinv hopen hs
  simp only [lowerLock, bind_eq_ok, pure_eq_ok] at hs
  obtain ⟨st₁, h₁, rfl⟩ := hs
  have hinv₁ := ((Scope.refl hinv).pushStmt (lockCall mutex loc)).inv
  have k₁ := hk _ st₁ hinv₁ (by simpa [CfgBuilder.isOpen] using hopen) h₁
  rw [passes_pushStmt hinv hopen] at k₁
  have hlock : C.stmt (lockCall mutex loc) = true := C.mutex _ _ _ _
  split
  · rename_i ho
    rw [passes_pushStmt (sbody _ st₁ hinv₁ h₁).scope.inv ho, k₁, hlock]
    simp [unlockCall, C.mutex]
  · rw [k₁, hlock]
    simp

end Adds

end Mx

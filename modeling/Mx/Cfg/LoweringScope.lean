import Mx.Cfg.BuilderInvariant

/-!
# Every lowering stays in its scope

One lemma for each construct: if the lowerings of its bodies keep the builder
invariant and stay in their scope, so does the lowering of the construct. The
induction over the syntax only puts these together.
-/

namespace Mx

open Mx.Core List

@[simp] theorem CfgBuilder.newBlock_nextId (st : CfgBuilder) :
    st.newBlock.nextId = st.nextId + 1 := by simp [CfgBuilder.newBlock_eq]

@[simp] theorem CfgBuilder.newBlockNoHandler_nextId (st : CfgBuilder) :
    st.newBlockNoHandler.nextId = st.nextId + 1 := by simp [CfgBuilder.newBlockNoHandler_eq]

@[simp] theorem CfgBuilder.newBlocks_nextId (st : CfgBuilder) (n : Nat) :
    (st.newBlocks n).nextId = st.nextId + n := by
  induction n generalizing st with
  | zero => rfl
  | succ n ih =>
    rw [CfgBuilder.newBlocks, ih, CfgBuilder.newBlock_nextId]
    omega

@[simp] theorem CfgBuilder.newBlocksNoHandler_nextId (st : CfgBuilder) (n : Nat) :
    (st.newBlocksNoHandler n).nextId = st.nextId + n := by
  induction n generalizing st with
  | zero => rfl
  | succ n ih =>
    rw [CfgBuilder.newBlocksNoHandler, ih, CfgBuilder.newBlockNoHandler_nextId]
    omega

@[simp] theorem CfgBuilder.newBlocks_handlerStack (st : CfgBuilder) (n : Nat) :
    (st.newBlocks n).handlerStack = st.handlerStack := by
  induction n generalizing st with
  | zero => rfl
  | succ n ih => exact ih st.newBlock

variable {st st' : CfgBuilder} {t : Terminator}

theorem CfgBuilder.sealBlock_nextId (h : st.sealBlock t = .ok st') : st'.nextId = st.nextId := by
  obtain ⟨i, b, _, _, _, rfl⟩ := CfgBuilder.sealBlock_eq_ok.mp h
  simp [CfgBuilder.nextId]

theorem CfgBuilder.startBlock_nextId {id : Nat}
    (h : st.startBlock id = .ok st') : st'.nextId = st.nextId := by
  obtain ⟨_, b, _, _, rfl⟩ := CfgBuilder.startBlock_eq_ok.mp h
  rfl

theorem CfgBuilder.sealBlock_grows
    (hs : st.sealBlock t = .ok st') : Grows st.blocks st'.blocks := by
  obtain ⟨i, b, _, hb, ht, rfl⟩ := sealBlock_eq_ok.mp hs
  exact grows_set hb ⟨rfl, rfl, prefix_rfl, by simp [ht]⟩

theorem CfgBuilder.startBlock_grows {id : Nat}
    (hs : st.startBlock id = .ok st') : Grows st.blocks st'.blocks := by
  obtain ⟨_, b, _, _, rfl⟩ := startBlock_eq_ok.mp hs
  exact Grows.refl _

/-- A piece of a construct entered at `st₀` leads from `st` to `st'` and leaves both
stacks as they were. -/
structure Within (st₀ st st' : CfgBuilder) : Prop where
  scope : Scope st₀ st'
  grows : Grows st.blocks st'.blocks
  exits : st'.loopExitStack = st.loopExitStack
  handlers : st'.handlerStack = st.handlerStack

/-- A lowering that keeps the invariant, stays in its scope and restores the stacks. -/
def Lowering.Sound (k : Lowering) : Prop :=
  ∀ st st', st.Inv → k st = .ok st' → Within st st st'

namespace Within

variable {st₀ st st' st'' : CfgBuilder}

theorem refl (h : Scope st₀ st) : Within st₀ st st := ⟨h, Grows.refl _, rfl, rfl⟩

theorem trans (h : Within st₀ st st') (k : Within st₀ st' st'') : Within st₀ st st'' :=
  ⟨k.scope, h.grows.trans k.grows, k.exits.trans h.exits, k.handlers.trans h.handlers⟩

theorem le (h : Within st₀ st st') : st.nextId ≤ st'.nextId := h.grows.length_le

/-- A body lowered inside the construct. -/
theorem body (h : Scope st₀ st) {k : Lowering} (hk : k.Sound) (hs : k st = .ok st') :
    Within st₀ st st' := by
  have w := hk st st' h.inv hs
  exact ⟨h.trans w.scope, w.grows, w.exits, w.handlers⟩

theorem sealBlock (h : Scope st₀ st) {t : Terminator} (hs : st.sealBlock t = .ok st')
    (ht : ∀ s ∈ t.successors, Scope.Allowed st₀ st s) : Within st₀ st st' := by
  refine ⟨h.sealBlock hs ht, CfgBuilder.sealBlock_grows hs, ?_, ?_⟩ <;>
  · obtain ⟨i, b, _, _, _, rfl⟩ := CfgBuilder.sealBlock_eq_ok.mp hs
    rfl

theorem sealGoto (h : Scope st₀ st) {t : Nat} (hs : st.sealBlock (.goto t) = .ok st')
    (ht : Scope.Allowed st₀ st t) : Within st₀ st st' :=
  sealBlock h hs (by simpa [Terminator.successors] using ht)

theorem sealBranch (h : Scope st₀ st) {c : HirExpr} {t f : Nat}
    (hs : st.sealBlock (.branch c t f) = .ok st') (ht : Scope.Allowed st₀ st t)
    (hf : Scope.Allowed st₀ st f) : Within st₀ st st' :=
  sealBlock h hs (by simpa [Terminator.successors] using ⟨ht, hf⟩)

theorem sealIfOpen (h : Scope st₀ st) {t : Nat} (hs : st.sealIfOpen (.goto t) = .ok st')
    (ht : Scope.Allowed st₀ st t) : Within st₀ st st' := by
  unfold CfgBuilder.sealIfOpen at hs
  split at hs
  · exact sealGoto h hs ht
  · cases hs
    exact refl h

theorem startBlock (h : Scope st₀ st) {id : Nat} (hs : st.startBlock id = .ok st')
    (hid : st₀.nextId ≤ id) : Within st₀ st st' := by
  refine ⟨h.startBlock hs hid, CfgBuilder.startBlock_grows hs, ?_, ?_⟩ <;>
  · obtain ⟨_, b, _, _, rfl⟩ := CfgBuilder.startBlock_eq_ok.mp hs
    rfl

theorem startIfReached (h : Scope st₀ st) {id : Nat} (hs : st.startIfReached id = .ok st')
    (hid : st₀.nextId ≤ id) : Within st₀ st st' := by
  unfold CfgBuilder.startIfReached at hs
  split at hs
  · exact startBlock h hs hid
  · cases hs
    exact refl h

theorem pushStmts (h : Scope st₀ st) (ss : List HirStmt) : Within st₀ st (st.pushStmts ss) :=
  ⟨h.pushStmts ss, ((Scope.refl h.inv).pushStmts ss).grows, by simp, by simp⟩

theorem newBlock (h : Scope st₀ st) : Within st₀ st st.newBlock :=
  ⟨h.newBlock, grows_append _ _, rfl, rfl⟩

theorem newBlockNoHandler (h : Scope st₀ st) : Within st₀ st st.newBlockNoHandler :=
  ⟨h.newBlockNoHandler, grows_append _ _, rfl, rfl⟩

theorem newBlocks (h : Scope st₀ st) (n : Nat) : Within st₀ st (st.newBlocks n) := by
  induction n generalizing st with
  | zero => exact refl h
  | succ n ih => exact (newBlock h).trans (ih h.newBlock)

theorem newBlocksNoHandler (h : Scope st₀ st) (n : Nat) :
    Within st₀ st (st.newBlocksNoHandler n) := by
  induction n generalizing st with
  | zero => exact refl h
  | succ n ih => exact (newBlockNoHandler h).trans (ih h.newBlockNoHandler)

end Within

variable {st₀ : CfgBuilder}

/-- A condition jumps to its two given targets and to its own right-hand blocks. -/
theorem lowerExprAsBranch_within {e : HirExpr} {t f : Nat}
    (h : Scope st₀ st) (hs : lowerExprAsBranch e t f st = .ok st')
    (ht : Scope.Allowed st₀ st t) (hf : Scope.Allowed st₀ st f) : Within st₀ st st' := by
  fun_induction lowerExprAsBranch e t f st generalizing st' with
  | case1 left right _ _ t f st ihl ihr =>
    simp only [bind_eq_ok] at hs
    obtain ⟨st₁, h₁, st₂, h₂, h₃⟩ := hs
    have w₁ := Within.newBlock h
    have hrhs : Scope.Allowed st₀ st.newBlock st.nextId := Or.inl ⟨h.nextId_le, by simp⟩
    have w₂ := w₁.trans (ihl w₁.scope h₁ hrhs (hf.mono w₁.le))
    have w₃ := w₂.trans (Within.startBlock w₂.scope h₂ h.nextId_le)
    exact w₃.trans (ihr st₂ w₃.scope h₃ (ht.mono w₃.le) (hf.mono w₃.le))
  | case2 left right _ _ t f st ihl ihr =>
    simp only [bind_eq_ok] at hs
    obtain ⟨st₁, h₁, st₂, h₂, h₃⟩ := hs
    have w₁ := Within.newBlock h
    have hrhs : Scope.Allowed st₀ st.newBlock st.nextId := Or.inl ⟨h.nextId_le, by simp⟩
    have w₂ := w₁.trans (ihl w₁.scope h₁ (ht.mono w₁.le) hrhs)
    have w₃ := w₂.trans (Within.startBlock w₂.scope h₂ h.nextId_le)
    exact w₃.trans (ihr st₂ w₃.scope h₃ (ht.mono w₃.le) (hf.mono w₃.le))
  | case3 inner _ _ t f st ih => exact ih h hs hf ht
  | case4 e t f st _ _ _ => exact Within.sealBranch h hs ht hf

theorem armEntry_within {start : Nat} {before : List HirStmt}
    (h : Scope st₀ st) (hs : armEntry start before st = .ok st') (hstart : st₀.nextId ≤ start) :
    Within st₀ st st' := by
  simp only [armEntry, bind_eq_ok, pure_eq_ok] at hs
  obtain ⟨st₁, h₁, rfl⟩ := hs
  have w := Within.startBlock h h₁ hstart
  exact w.trans (Within.pushStmts w.scope before)

variable {body : Lowering} {st₂ : CfgBuilder} {elsifs : List (HirExpr × Lowering)} {expr : HirExpr}

/-- A body in a block of the construct, continuing at an allowed block. -/
theorem lowerArm_within {start next : Nat} {before : List HirStmt}
    (h : Scope st₀ st) (hk : body.Sound)
    (hs : lowerArm start before body next st = .ok st') (hstart : st₀.nextId ≤ start)
    (hnext : Scope.Allowed st₀ st next) : Within st₀ st st' := by
  simp only [lowerArm, bind_eq_ok] at hs
  obtain ⟨st₁, h₁, st₂, h₂, h₃⟩ := hs
  have w₁ := armEntry_within h h₁ hstart
  have w₂ := w₁.trans (Within.body w₁.scope hk h₂)
  exact w₂.trans (Within.sealIfOpen w₂.scope h₃ (hnext.mono w₂.le))

variable {merge : Nat}

theorem le_falseTarget (more : Bool) (h : Scope st₀ st)
    (hmerge : st₀.nextId ≤ merge) : st₀.nextId ≤ falseTarget merge more st := by
  have := h.nextId_le
  unfold falseTarget
  split <;> omega

variable {cond : HirExpr}

/-- A test jumps to its body and to the place a failing test continues at. -/
theorem lowerTest_within {more : Bool}
    (h : Scope st₀ st) (hs : lowerTest cond merge more st = .ok st')
    (hmerge : Scope.Allowed st₀ st merge) : Within st₀ st st' := by
  have hle := h.nextId_le
  have w := Within.newBlocks h (if more then 2 else 1)
  have hthen : Scope.Allowed st₀ (st.newBlocks (if more then 2 else 1)) st.nextId :=
    Or.inl ⟨hle, by simp; split <;> omega⟩
  refine w.trans (lowerExprAsBranch_within w.scope hs hthen ?_)
  unfold falseTarget
  split
  · exact Or.inl ⟨by omega, by simp⟩
  · exact hmerge.mono (by simp)

/-- What a test of an `ELSIF` chain and its body stay within, and where the chain goes on. -/
theorem elsif_within {cur : Nat} {more : Bool} {st₁ st₃ : CfgBuilder}
    (h : Scope st₀ st) (hk : body.Sound) (hmerge : st₀.nextId ≤ merge ∧ merge < st.nextId)
    (hcur : st₀.nextId ≤ cur) (h₁ : st.startBlock cur = .ok st₁)
    (h₂ : lowerTest cond merge more st₁ = .ok st₂)
    (h₃ : lowerArm st₁.nextId [] body merge st₂ = .ok st₃) :
    Within st₀ st st₁ ∧ Within st₀ st st₂ ∧ Within st₀ st st₃ ∧
      (st₀.nextId ≤ merge ∧ merge < st₃.nextId) ∧ st₀.nextId ≤ falseTarget merge more st₁ := by
  have hm : Scope.Allowed st₀ st merge := Or.inl hmerge
  have v₁ := Within.startBlock h h₁ hcur
  have v₂ := v₁.trans (lowerTest_within v₁.scope h₂ (hm.mono v₁.le))
  have v₃ := v₂.trans (lowerArm_within v₂.scope hk h₃ v₁.scope.nextId_le (hm.mono v₂.le))
  exact ⟨v₁, v₂, v₃, ⟨hmerge.1, Nat.lt_of_lt_of_le hmerge.2 v₃.le⟩,
    le_falseTarget _ v₁.scope hmerge.1⟩

/-- The `ELSIF` chain stays in scope; it ends at its first test or at a block of the construct. -/
theorem lowerElsifs_within {cur out : Nat} {hasElse : Bool} (h : Scope st₀ st)
    (hk : ∀ e ∈ elsifs, Lowering.Sound e.2)
    (hs : lowerElsifs merge hasElse elsifs cur st = .ok (out, st'))
    (hmerge : st₀.nextId ≤ merge ∧ merge < st.nextId) (hcur : st₀.nextId ≤ cur) :
    Within st₀ st st' ∧ st₀.nextId ≤ out := by
  induction elsifs generalizing cur st with
  | nil =>
    cases hs
    exact ⟨Within.refl h, hcur⟩
  | cons e rest ih =>
    obtain ⟨cond, body⟩ := e
    simp only [lowerElsifs, bind_eq_ok] at hs
    obtain ⟨st₁, h₁, st₂, h₂, st₃, h₃, h₄⟩ := hs
    rw [forall_mem_cons] at hk
    obtain ⟨_, _, v₃, hmerge₃, hcur₃⟩ := elsif_within h hk.1 hmerge hcur h₁ h₂ h₃
    obtain ⟨v₄, hout⟩ := ih v₃.scope hk.2 h₄ hmerge₃ hcur₃
    exact ⟨v₃.trans v₄, hout⟩

variable {elseBody : Option Lowering}

theorem lowerElse_within {cur : Nat} (h : Scope st₀ st) (hk : ∀ k ∈ elseBody, Lowering.Sound k)
    (hs : lowerElse merge cur elseBody st = .ok st') (hmerge : Scope.Allowed st₀ st merge)
    (hcur : st₀.nextId ≤ cur) : Within st₀ st st' := by
  cases elseBody with
  | none =>
    cases hs
    exact Within.refl h
  | some body => exact lowerArm_within h (hk body rfl) hs hcur hmerge

/-- What the tests of an `IF` and their bodies stay within. -/
theorem if_within {thenBody : Lowering}
    {more hasElse : Bool} {cur : Nat} {st₃ st₄ : CfgBuilder} (hinv : st.Inv)
    (hthen : thenBody.Sound) (helsifs : ∀ e ∈ elsifs, Lowering.Sound e.2)
    (h₂ : lowerTest cond st.nextId more st.newBlock = .ok st₂)
    (h₃ : lowerArm st.newBlock.nextId [] thenBody st.nextId st₂ = .ok st₃)
    (h₄ : lowerElsifs st.nextId hasElse elsifs (falseTarget st.nextId more st.newBlock) st₃ =
      .ok (cur, st₄)) :
    Within st st.newBlock st₂ ∧ Within st st.newBlock st₃ ∧ Within st st₃ st₄ ∧
      st.nextId < st₃.nextId ∧ Scope.Allowed st st₄ st.nextId ∧
      st.nextId ≤ falseTarget st.nextId more st.newBlock ∧ st.nextId ≤ cur := by
  have w₁ := Within.newBlock (Scope.refl hinv)
  have hm : Scope.Allowed st st.newBlock st.nextId := Or.inl ⟨le_rfl, by simp⟩
  have v₂ := lowerTest_within w₁.scope h₂ hm
  have v₃ := v₂.trans (lowerArm_within v₂.scope hthen h₃ (by simp) (hm.mono v₂.le))
  have hlt₃ : st.nextId < st₃.nextId := Nat.lt_of_lt_of_le (by simp) v₃.le
  have hcur₀ := le_falseTarget more w₁.scope le_rfl
  obtain ⟨w₄, hcur⟩ := lowerElsifs_within v₃.scope helsifs h₄ ⟨le_rfl, hlt₃⟩ hcur₀
  exact ⟨v₂, v₃, w₄, hlt₃, hm.mono (v₃.trans w₄).le, hcur₀, hcur⟩

theorem lowerIf_sound {thenBody : Lowering} (hthen : thenBody.Sound)
    (helsifs : ∀ e ∈ elsifs, Lowering.Sound e.2) (helse : ∀ k ∈ elseBody, Lowering.Sound k) :
    (lowerIf cond thenBody elsifs elseBody).Sound := by
  intro st st' hinv hs
  simp only [lowerIf, bind_eq_ok] at hs
  obtain ⟨st₂, h₂, st₃, h₃, ⟨cur, st₄⟩, h₄, st₅, h₅, h₆⟩ := hs
  obtain ⟨v₂, v₃, w₄, hlt₃, hm₄, hcur₀, hcur⟩ := if_within hinv hthen helsifs h₂ h₃ h₄
  have v₄ := v₃.trans w₄
  have v₅ := v₄.trans (lowerElse_within v₄.scope helse h₅ hm₄ hcur)
  exact ((Within.newBlock (Scope.refl hinv)).trans v₅).trans
    (Within.startIfReached v₅.scope h₆ le_rfl)

/-! ## Loops -/

variable {x : Nat}

/-- Entering a loop whose exit block the construct has allocated. -/
theorem Scope.pushLoopExit (h : Scope st₀ st)
    (hx : st₀.nextId ≤ x ∧ x < st.nextId) : Scope st₀ (st.pushLoopExit x) := by
  refine h.withLoopExits ?_ ?_
  · intro y hy
    rcases mem_cons.mp hy with rfl | hy
    · have := h.base.nextId_pos
      omega
    · exact h.inv.exits y hy
  · intro y hy
    cases hy
    exact Or.inr hx.1

/-- Leaving the loop that was entered from `st`. -/
theorem Within.popLoopExit (h : Scope st₀ st)
    (w : Within st₀ (st.pushLoopExit x) st') : Within st₀ st st'.popLoopExit := by
  have htail : st'.loopExitStack.tail = st.loopExitStack := by rw [w.exits]; rfl
  refine ⟨w.scope.withLoopExits ?_ ?_, w.grows, htail, w.handlers⟩
  · intro y hy
    exact w.scope.inv.exits y (mem_of_mem_tail hy)
  · rw [htail]
    exact h.exits

/-- The header of a `WHILE` enters its loop. -/
theorem whileEntry_within (hinv : st.Inv) (hs : whileEntry cond st = .ok st') :
    Within st (st.pushLoopExit (st.nextId + 2)) st' ∧ st.nextId + 3 ≤ st'.nextId := by
  simp only [whileEntry, bind_eq_ok] at hs
  obtain ⟨st₁, h₁, st₂, h₂, st₃, h₃, h₄⟩ := hs
  have w₀ := Within.newBlocks (Scope.refl hinv) 3
  have hnew : ∀ i, i < 3 → Scope.Allowed st (st.newBlocks 3) (st.nextId + i) :=
    fun i hi => Or.inl ⟨by omega, by simp; omega⟩
  have v₁ := Within.sealGoto w₀.scope h₁ (hnew 0 (by omega))
  have v₂ := v₁.trans (Within.startBlock v₁.scope h₂ le_rfl)
  have v₃ := v₂.trans (lowerExprAsBranch_within v₂.scope h₃ ((hnew 1 (by omega)).mono v₂.le)
    ((hnew 2 (by omega)).mono v₂.le))
  have w₃ := w₀.trans v₃
  have hle : st.nextId + 3 ≤ st₃.nextId := by simpa using v₃.le
  have w₄ := Within.startBlock (w₃.scope.pushLoopExit (x := st.nextId + 2) (by omega)) h₄
    (by omega)
  refine ⟨⟨w₄.scope, ?_, ?_, w₄.handlers.trans w₃.handlers⟩, Nat.le_trans hle w₄.le⟩
  · exact w₃.grows.trans w₄.grows
  · rw [w₄.exits]
    exact congrArg (List.cons _) w₃.exits

/-- The start of a `LOOP` or `REPEAT` enters its loop. -/
theorem loopEntry_within (hinv : st.Inv) (hs : loopEntry st = .ok st') :
    Within st (st.pushLoopExit (st.nextId + 1)) st' ∧ st.nextId + 2 ≤ st'.nextId := by
  simp only [loopEntry, bind_eq_ok] at hs
  obtain ⟨st₁, h₁, h₂⟩ := hs
  have w₀ := Within.newBlocks (Scope.refl hinv) 2
  have v₁ := Within.sealGoto w₀.scope h₁ (Or.inl ⟨le_rfl, by simp⟩)
  have hle : st.nextId + 2 ≤ st₁.nextId := by simpa using v₁.le
  have w₁ := w₀.trans v₁
  have w₂ := Within.startBlock (w₁.scope.pushLoopExit (x := st.nextId + 1) (by omega)) h₂
    le_rfl
  refine ⟨⟨w₂.scope, ?_, ?_, w₂.handlers.trans w₁.handlers⟩, Nat.le_trans hle w₂.le⟩
  · exact w₁.grows.trans w₂.grows
  · rw [w₂.exits]
    exact congrArg (List.cons _) w₁.exits

variable {var : String} {varTy : TypeId} {direction : ForDirection}

/-- The start of a `FOR` enters its loop. -/
theorem forEntry_within {start stop : HirExpr} (hinv : st.Inv)
    (hs : forEntry var varTy start stop direction st = .ok st') :
    Within st (st.pushLoopExit (st.nextId + 3)) st' ∧ st.nextId + 4 ≤ st'.nextId := by
  simp only [forEntry, bind_eq_ok] at hs
  obtain ⟨st₁, h₁, st₂, h₂, st₃, h₃, h₄⟩ := hs
  have wi : Within st st (st.pushStmt (assignVar var varTy start)) :=
    Within.pushStmts (Scope.refl hinv) [assignVar var varTy start]
  have w₀ := Within.newBlocks wi.scope 4
  have hnew : ∀ i, i < 4 → Scope.Allowed st
      ((st.pushStmt (assignVar var varTy start)).newBlocks 4) (st.nextId + i) :=
    fun i hi => Or.inl ⟨by omega, by simp; omega⟩
  have v₁ := Within.sealGoto w₀.scope h₁ (hnew 0 (by omega))
  have v₂ := v₁.trans (Within.startBlock v₁.scope h₂ le_rfl)
  have v₃ := v₂.trans (Within.sealBranch v₂.scope h₃ ((hnew 1 (by omega)).mono v₂.le)
    ((hnew 3 (by omega)).mono v₂.le))
  have w₃ := (wi.trans w₀).trans v₃
  have hle : st.nextId + 4 ≤ st₃.nextId := by simpa using v₃.le
  have w₄ := Within.startBlock (w₃.scope.pushLoopExit (x := st.nextId + 3) (by omega)) h₄
    (by omega)
  refine ⟨⟨w₄.scope, ?_, ?_, w₄.handlers.trans w₃.handlers⟩, Nat.le_trans hle w₄.le⟩
  · exact w₃.grows.trans w₄.grows
  · rw [w₄.exits]
    exact congrArg (List.cons _) w₃.exits

/-- Leaving a loop entered from `st`, jumping back to a block of the loop. -/
theorem leaveLoop_within {st'' : CfgBuilder} {back : Nat} (h : Scope st₀ st)
    (w : Within st₀ (st.pushLoopExit x) st') (hs : leaveLoop back x st' = .ok st'')
    (hback : Scope.Allowed st₀ st' back) (hx : st₀.nextId ≤ x) : Within st₀ st st'' := by
  simp only [leaveLoop, bind_eq_ok] at hs
  obtain ⟨st₁, h₁, h₂⟩ := hs
  have w₁ := Within.popLoopExit h (w.trans (Within.sealIfOpen w.scope h₁ hback))
  exact w₁.trans (Within.startBlock w₁.scope h₂ hx)

theorem lowerWhile_sound (hk : body.Sound) : (lowerWhile cond body).Sound := by
  intro st st' hinv hs
  simp only [lowerWhile, bind_eq_ok] at hs
  obtain ⟨st₁, h₁, st₂, h₂, h₃⟩ := hs
  obtain ⟨w₁, hle⟩ := whileEntry_within hinv h₁
  have v₂ := Within.body w₁.scope hk h₂
  have := v₂.le
  exact leaveLoop_within (Scope.refl hinv) (w₁.trans v₂) h₃
    (Or.inl ⟨le_rfl, by omega⟩) (by omega)

theorem lowerLoop_sound (hk : body.Sound) : (lowerLoop body).Sound := by
  intro st st' hinv hs
  simp only [lowerLoop, bind_eq_ok] at hs
  obtain ⟨st₁, h₁, st₂, h₂, h₃⟩ := hs
  obtain ⟨w₁, hle⟩ := loopEntry_within hinv h₁
  have v₂ := Within.body w₁.scope hk h₂
  have := v₂.le
  exact leaveLoop_within (Scope.refl hinv) (w₁.trans v₂) h₃
    (Or.inl ⟨le_rfl, by omega⟩) (by omega)

theorem lowerExit_sound : Lowering.Sound lowerExit := by
  intro st st' hinv hs
  unfold lowerExit at hs
  split at hs
  · cases hs
  · rename_i x xs hx
    exact Within.sealGoto (Scope.refl hinv) hs (Or.inr (by simp [hx]))

theorem lowerUntil_within {back : Nat} (h : Scope st₀ st) (hs : lowerUntil cond x back st = .ok st')
    (hx : Scope.Allowed st₀ st x) (hback : Scope.Allowed st₀ st back) : Within st₀ st st' := by
  unfold lowerUntil at hs
  split at hs
  · exact lowerExprAsBranch_within h hs hx hback
  · cases hs
    exact Within.refl h

theorem lowerRepeat_sound (hk : body.Sound) : (lowerRepeat body cond).Sound := by
  intro st st' hinv hs
  simp only [lowerRepeat, bind_eq_ok] at hs
  obtain ⟨st₁, h₁, st₂, h₂, st₃, h₃, h₄⟩ := hs
  obtain ⟨w₁, hle⟩ := loopEntry_within hinv h₁
  have v₂ := Within.body w₁.scope hk h₂
  have := v₂.le
  have w₂ := w₁.trans v₂
  have w₃ := Within.popLoopExit (Scope.refl hinv) (w₂.trans (lowerUntil_within w₂.scope h₃
    (Or.inl ⟨by omega, by omega⟩) (Or.inl ⟨le_rfl, by omega⟩)))
  exact w₃.trans (Within.startBlock w₃.scope h₄ (by omega))

theorem forLatch_within {step : Option HirExpr} {latch condBlock : Nat} (h : Scope st₀ st)
    (hs : forLatch var varTy step direction latch condBlock st = .ok st')
    (hlatch : st₀.nextId ≤ latch) (hcond : Scope.Allowed st₀ st condBlock) :
    Within st₀ st st' := by
  simp only [forLatch, bind_eq_ok] at hs
  obtain ⟨st₁, h₁, h₂⟩ := hs
  have w₁ := armEntry_within h h₁ hlatch
  exact w₁.trans (Within.sealGoto w₁.scope h₂ (hcond.mono w₁.le))

theorem lowerFor_sound {start stop : HirExpr} {step : Option HirExpr} (hk : body.Sound) :
    (lowerFor var varTy start stop step direction body).Sound := by
  intro st st' hinv hs
  simp only [lowerFor, bind_eq_ok] at hs
  obtain ⟨st₁, h₁, st₂, h₂, st₃, h₃, st₄, h₄, h₅⟩ := hs
  obtain ⟨w₁, hle⟩ := forEntry_within hinv h₁
  have v₂ := Within.body w₁.scope hk h₂
  have hle₂ := v₂.le
  have hnew : ∀ i, i < 4 → Scope.Allowed st st₂ (st.nextId + i) :=
    fun i hi => Or.inl ⟨by omega, by omega⟩
  have v₃ := Within.sealIfOpen v₂.scope h₃ (hnew 2 (by omega))
  have w₃ := Within.popLoopExit (Scope.refl hinv) (w₁.trans (v₂.trans v₃))
  have w₄ := w₃.trans (forLatch_within w₃.scope h₄ (by omega) ((hnew 0 (by omega)).mono v₃.le))
  exact w₄.trans (Within.startBlock w₄.scope h₅ (by omega))

/-! ## Switches -/

/-- The bodies of a switch or of a dispatch, each in a block of the construct. -/
theorem lowerArms_within {arms : List (Nat × Arm)}
    (h : Scope st₀ st) (hk : ∀ a ∈ arms, a.2.body.Sound ∧ st₀.nextId ≤ a.1)
    (hs : lowerArms merge arms st = .ok st') (hmerge : Scope.Allowed st₀ st merge) :
    Within st₀ st st' := by
  induction arms generalizing st with
  | nil =>
    cases hs
    exact Within.refl h
  | cons a rest ih =>
    obtain ⟨block, arm⟩ := a
    simp only [lowerArms, bind_eq_ok] at hs
    obtain ⟨st₁, h₁, h₂⟩ := hs
    obtain ⟨hbody, hblock⟩ := hk _ (mem_cons_self ..)
    have w := lowerArm_within h hbody h₁ hblock hmerge
    exact w.trans (ih w.scope (fun a ha => hk a (mem_cons_of_mem _ ha)) h₂ (hmerge.mono w.le))

/-- A lowering that does nothing. -/
theorem sound_ok : Lowering.Sound .ok := by
  intro st st' hinv hs
  cases hs
  exact Within.refl (Scope.refl hinv)

theorem sound_getD {k : Option Lowering} (hk : ∀ l ∈ k, Lowering.Sound l) :
    Lowering.Sound (k.getD .ok) := by
  cases k with
  | none => exact sound_ok
  | some l => exact hk l rfl

/-- Blocks numbered consecutively from `n`, paired with the parts they hold. -/
theorem mem_range'_zip {α : Type} {n len i : Nat} {as : List α} {a : α}
    (h : (i, a) ∈ (List.range' n len).zip as) : n ≤ i ∧ i < n + len ∧ a ∈ as := by
  obtain ⟨hi, ha⟩ := of_mem_zip h
  rw [mem_range'_1] at hi
  exact ⟨hi.1, hi.2, ha⟩

/-- The switch jumps to its own arms and its own default block. -/
theorem switchEntry_within {arms : List Arm}
    (hinv : st.Inv) (hs : switchEntry expr arms st = .ok st') :
    Within st st st' ∧ st'.nextId = st.nextId + (2 + arms.length) := by
  have w₀ := Within.newBlocks (Scope.refl hinv) (2 + arms.length)
  refine ⟨w₀.trans (Within.sealBlock w₀.scope hs ?_), ?_⟩
  · intro s hs
    simp only [Terminator.successors, mem_append, mem_map, mem_singleton] at hs
    rcases hs with ⟨arm, harm, rfl⟩ | rfl
    · rw [← map_uncurry_zip_eq_zipWith, mem_map] at harm
      obtain ⟨⟨i, a⟩, hia, rfl⟩ := harm
      obtain ⟨hlo, hhi, _⟩ := mem_range'_zip hia
      exact Or.inl ⟨by simp; omega, by simp; omega⟩
    · exact Or.inl ⟨by simp, by simp; omega⟩
  · rw [CfgBuilder.sealBlock_nextId hs]
    simp

theorem lowerSwitch_sound {arms : List Arm}
    (harms : ∀ a ∈ arms, a.body.Sound) (helse : ∀ k ∈ elseBody, Lowering.Sound k) :
    (lowerSwitch expr arms elseBody).Sound := by
  intro st st' hinv hs
  simp only [lowerSwitch, bind_eq_ok] at hs
  obtain ⟨st₁, h₁, st₂, h₂, st₃, h₃, h₄⟩ := hs
  obtain ⟨w₁, hlen⟩ := switchEntry_within hinv h₁
  have hm : Scope.Allowed st st₁ st.nextId := Or.inl ⟨le_rfl, by omega⟩
  have v₂ := lowerArms_within w₁.scope (fun a ha => by
    obtain ⟨hlo, _, hmem⟩ := mem_range'_zip ha
    exact ⟨harms a.2 hmem, by omega⟩) h₂ hm
  have v₃ := v₂.trans (lowerArm_within v₂.scope (sound_getD helse) h₃ (by omega) (hm.mono v₂.le))
  exact (w₁.trans v₃).trans (Within.startIfReached v₃.scope h₄ le_rfl)

theorem lowerCase_sound {branches : List (List HirCaseLabel × Lowering)}
    (hk : ∀ b ∈ branches, Lowering.Sound b.2)
    (helse : ∀ k ∈ elseBody, Lowering.Sound k) : (lowerCase expr branches elseBody).Sound := by
  refine lowerSwitch_sound ?_ helse
  intro a ha
  obtain ⟨b, hb, rfl⟩ := mem_map.mp ha
  exact hk b hb

theorem lowerTypecase_sound
    {branches : List (List SymbolId × Option String × Lowering)}
    (hk : ∀ b ∈ branches, Lowering.Sound b.2.2) (helse : ∀ k ∈ elseBody, Lowering.Sound k) :
    (lowerTypecase expr branches elseBody).Sound := by
  refine lowerSwitch_sound ?_ helse
  intro a ha
  obtain ⟨b, hb, rfl⟩ := mem_map.mp ha
  exact hk b hb

/-! ## `TRY` and `LOCK` -/

section Dispatch

variable {reraise : Nat} {clauses : List (Nat × Option SymbolId)}

/-- A clause seals the block with a jump or the last test, or with a test that goes on in a block
of its own. -/
theorem lowerDispatch_cons {handler : Nat} {exc : Option SymbolId}
    (hs : lowerDispatch reraise ((handler, exc) :: clauses) st = .ok st') :
    (∃ t st₁, (t = .goto handler ∨ ∃ e, t = .branch e handler reraise) ∧
      (exc = none ∨ clauses = []) ∧ st.sealBlock t = .ok st₁ ∧
      lowerDispatch reraise clauses st₁ = .ok st') ∨
    ∃ e st₁ st₂, exc ≠ none ∧ clauses ≠ [] ∧
      st.newBlockNoHandler.sealBlock (.branch e handler st.nextId) = .ok st₁ ∧
      st₁.startBlock st.nextId = .ok st₂ ∧ lowerDispatch reraise clauses st₂ = .ok st' := by
  cases exc with
  | none =>
    simp only [lowerDispatch, bind_eq_ok] at hs
    obtain ⟨st₁, h₁, h₂⟩ := hs
    exact Or.inl ⟨_, st₁, Or.inl rfl, Or.inl rfl, h₁, h₂⟩
  | some exc =>
    unfold lowerDispatch at hs
    split at hs
    · next hnil =>
      simp only [bind_eq_ok] at hs
      obtain ⟨st₁, h₁, h₂⟩ := hs
      exact Or.inl ⟨_, st₁, Or.inr ⟨_, rfl⟩, Or.inr (List.isEmpty_iff.mp hnil), h₁, h₂⟩
    · next hne =>
      simp only [bind_eq_ok] at hs
      obtain ⟨st₁, h₁, st₂, h₂, h₃⟩ := hs
      exact Or.inr ⟨_, st₁, st₂, nofun, mt List.isEmpty_iff.mpr hne, h₁, h₂, h₃⟩

/-- The exception tests jump to the handler blocks, to each other and to the re-raise. -/
theorem lowerDispatch_within (h : Scope st₀ st)
    (hs : lowerDispatch reraise clauses st = .ok st') (hreraise : Scope.Allowed st₀ st reraise)
    (hclauses : ∀ c ∈ clauses, Scope.Allowed st₀ st c.1) : Within st₀ st st' := by
  induction clauses generalizing st with
  | nil =>
    cases hs
    exact Within.refl h
  | cons c rest ih =>
    obtain ⟨hhandler, hrest⟩ := forall_mem_cons.mp hclauses
    obtain ⟨t, st₁, ht, -, h₁, h₂⟩ | ⟨e, st₁, st₂, -, -, h₁, h₂, h₃⟩ := lowerDispatch_cons hs
    · have w : Within st₀ st st₁ := by
        obtain rfl | ⟨e, rfl⟩ := ht
        · exact Within.sealGoto h h₁ hhandler
        · exact Within.sealBranch h h₁ hhandler hreraise
      exact w.trans (ih w.scope h₂ (hreraise.mono w.le) fun c hc => (hrest c hc).mono w.le)
    · have w₀ := Within.newBlockNoHandler h
      have hnext : Scope.Allowed st₀ st.newBlockNoHandler st.nextId :=
        Or.inl ⟨h.nextId_le, by simp⟩
      have w₁ := w₀.trans (Within.sealBranch w₀.scope h₁ (hhandler.mono w₀.le) hnext)
      have w₂ := w₁.trans (Within.startBlock w₁.scope h₂ h.nextId_le)
      exact w₂.trans (ih w₂.scope h₃ (hreraise.mono w₂.le) fun c hc => (hrest c hc).mono w₂.le)

end Dispatch

variable {finallyBody : Option (List HirStmt)}

theorem lowerReraise_within {block : Nat} (h : Scope st₀ st)
    (hs : lowerReraise block finallyBody st = .ok st') (hblock : st₀.nextId ≤ block) :
    Within st₀ st st' := by
  simp only [lowerReraise, bind_eq_ok] at hs
  obtain ⟨st₁, h₁, h₂⟩ := hs
  have w₁ := armEntry_within h h₁ hblock
  exact w₁.trans (Within.sealBlock w₁.scope h₂ (by simp [Terminator.successors]))

theorem catchEntry_within {catchBlock : Nat}
    {exceptions : List (Option SymbolId)} (h : Scope st₀ st)
    (hs : catchEntry catchBlock exceptions st = .ok st') (hcatch : st₀.nextId ≤ catchBlock) :
    Within st₀ st st' := by
  simp only [catchEntry, bind_eq_ok] at hs
  obtain ⟨st₁, h₁, h₂⟩ := hs
  have hle := h.nextId_le
  have hlen := CfgBuilder.startBlock_nextId h₁
  have w₁ := Within.startBlock h h₁ hcatch
  have w₂ := w₁.trans (Within.newBlocksNoHandler w₁.scope (1 + exceptions.length))
  refine w₂.trans (lowerDispatch_within w₂.scope h₂ (Or.inl ⟨hle, by simp; omega⟩) ?_)
  intro c hc
  obtain ⟨hlo, hhi, _⟩ := mem_range'_zip hc
  exact Or.inl ⟨by omega, by simp; omega⟩

theorem lowerCatch_within {catchBlock finallyNormal : Nat}
    {clauses : List Clause} (h : Scope st₀ st)
    (hk : ∀ c ∈ clauses, c.body.Sound)
    (hs : lowerCatch catchBlock finallyNormal clauses finallyBody st = .ok st')
    (hcatch : st₀.nextId ≤ catchBlock) (hfin : Scope.Allowed st₀ st finallyNormal) :
    Within st₀ st st' := by
  unfold lowerCatch at hs
  split at hs
  · exact lowerReraise_within h hs hcatch
  · simp only [bind_eq_ok] at hs
    obtain ⟨st₁, h₁, st₂, h₂, h₃⟩ := hs
    have hle := h.nextId_le
    have w₁ := catchEntry_within h h₁ hcatch
    have w₂ := w₁.trans (lowerArms_within w₁.scope (by
      intro a ha
      obtain ⟨hlo, _, hmem⟩ := mem_range'_zip ha
      obtain ⟨c, hc, he⟩ := mem_map.mp hmem
      exact ⟨by rw [← he]; exact hk c hc, by omega⟩) h₂ (hfin.mono w₁.le))
    exact w₂.trans (lowerReraise_within w₂.scope h₃ hle)

theorem lowerFinally_within {finallyNormal : Nat} (h : Scope st₀ st)
    (hs : lowerFinally finallyNormal merge finallyBody st = .ok st')
    (hfin : st₀.nextId ≤ finallyNormal) (hmerge : Scope.Allowed st₀ st merge) :
    Within st₀ st st' := by
  cases finallyBody with
  | none =>
    cases hs
    exact Within.refl h
  | some ss => exact lowerArm_within h sound_ok hs hfin hmerge

/-- Entering a `TRY` body whose catch block the construct has allocated. -/
theorem Scope.pushHandler (h : Scope st₀ st)
    (hx : st₀.nextId ≤ x) (hc : ∃ c, st.blocks[x]? = some c ∧ c.handler = none) :
    Scope st₀ (st.pushHandler x) := by
  refine h.withHandlers ?_ ?_
  · intro y hy
    rcases mem_cons.mp hy with rfl | hy
    · exact hc
    · exact h.inv.catches y hy
  · intro y hy
    cases hy
    exact Or.inr hx

/-- Leaving the `TRY` body that was entered from `st`. -/
theorem Within.popHandler (h : Scope st₀ st)
    (w : Within st₀ (st.pushHandler x) st') : Within st₀ st st'.popHandler := by
  have htail : st'.handlerStack.tail = st.handlerStack := by rw [w.handlers]; rfl
  refine ⟨w.scope.withHandlers ?_ ?_, w.grows, w.exits, htail⟩
  · intro y hy
    exact w.scope.inv.catches y (mem_of_mem_tail hy)
  · rw [htail]
    exact h.catches

/-- The start of a `TRY` enters the region of its catch block. -/
theorem tryEntry_within {hasFinally : Bool} (hinv : st.Inv)
    (hs : tryEntry hasFinally st = .ok st') :
    Within st (st.pushHandler (st.nextId + 1)) st' ∧ st.nextId + 2 ≤ st'.nextId ∧
      finallyTarget st.nextId hasFinally < st'.nextId := by
  simp only [tryEntry, bind_eq_ok] at hs
  obtain ⟨st₁, h₁, h₂⟩ := hs
  have w₀ := Within.newBlock (Scope.refl hinv)
  have w₁ := w₀.trans (Within.newBlockNoHandler w₀.scope)
  have hcatch : ∃ c, st.newBlock.newBlockNoHandler.blocks[st.nextId + 1]? = some c ∧
      c.handler = none := by
    have hc := st.newBlock.alloc_getElem?_nextId none
    rw [CfgBuilder.newBlock_nextId] at hc
    exact ⟨_, hc, rfl⟩
  -- with a `FINALLY` a third block is allocated before the body
  obtain ⟨s, hes, ws, hcs, hle, hfin⟩ : ∃ s, s = (if hasFinally then
        st.newBlock.newBlockNoHandler.newBlock else st.newBlock.newBlockNoHandler) ∧
      Within st st s ∧ (∃ c, s.blocks[st.nextId + 1]? = some c ∧ c.handler = none) ∧
      st.nextId + 2 ≤ s.nextId ∧ finallyTarget st.nextId hasFinally < s.nextId := by
    cases hasFinally with
    | false =>
      have hnext : st.newBlock.newBlockNoHandler.nextId = st.nextId + 2 := by simp
      exact ⟨_, rfl, w₁, hcatch, Nat.le_of_eq hnext.symm,
        show st.nextId < st.newBlock.newBlockNoHandler.nextId by omega⟩
    | true =>
      exact ⟨_, rfl, w₁.trans (Within.newBlock w₁.scope), (grows_append _ _).noHandler hcatch,
        by simp, by simp [finallyTarget]⟩
  rw [← hes] at h₁ h₂
  have hsc := ws.scope.pushHandler (x := st.nextId + 1) (by omega) hcs
  have v₀ := Within.newBlock hsc
  have v₁ := v₀.trans (Within.sealIfOpen v₀.scope h₁ (Or.inl ⟨hsc.nextId_le, by simp⟩))
  have v₂ := v₁.trans (Within.startBlock v₁.scope h₂ hsc.nextId_le)
  have hle₂ : s.nextId ≤ st'.nextId := v₂.le
  refine ⟨⟨v₂.scope, ws.grows.trans v₂.grows, v₂.exits.trans ws.exits, ?_⟩, by omega, by omega⟩
  rw [v₂.handlers]
  exact congrArg (List.cons _) ws.handlers

theorem le_finallyTarget (n : Nat) (hasFinally : Bool) : n ≤ finallyTarget n hasFinally := by
  unfold finallyTarget
  split <;> omega

/-- The guarded part of a `TRY`, up to the block that its end continues at. -/
theorem try_within {hasFinally : Bool} {st₁ : CfgBuilder} (hinv : st.Inv)
    (hk : body.Sound) (h₁ : tryEntry hasFinally st = .ok st₁) (h₂ : body st₁ = .ok st₂) :
    Within st (st.pushHandler (st.nextId + 1)) st₁ ∧ st.nextId + 2 ≤ st₁.nextId ∧
      Within st st st₂.popHandler ∧ st₁.nextId ≤ st₂.nextId ∧
        Scope.Allowed st st₂ (finallyTarget st.nextId hasFinally) := by
  obtain ⟨w₁, hle, hlt⟩ := tryEntry_within hinv h₁
  have v₂ := Within.body w₁.scope hk h₂
  exact ⟨w₁, hle, Within.popHandler (Scope.refl hinv) (w₁.trans v₂), v₂.le,
    Or.inl ⟨le_finallyTarget _ _, Nat.lt_of_lt_of_le hlt v₂.le⟩⟩

theorem lowerTry_sound {clauses : List Clause} (hk : body.Sound)
    (hclauses : ∀ c ∈ clauses, c.body.Sound) : (lowerTry body clauses finallyBody).Sound := by
  intro st st' hinv hs
  simp only [lowerTry, bind_eq_ok] at hs
  obtain ⟨st₁, h₁, st₂, h₂, st₃, h₃, st₄, h₄, st₅, h₅, h₆⟩ := hs
  obtain ⟨w₁, hle, w₂, hle₂, hfin⟩ := try_within hinv hk h₁ h₂
  have hm : Scope.Allowed st st₂ st.nextId := Or.inl ⟨le_rfl, by omega⟩
  have v₃ := Within.sealIfOpen w₂.scope h₃ hfin
  have v₄ := v₃.trans (lowerCatch_within v₃.scope hclauses h₄ (by omega) (hfin.mono v₃.le))
  have v₅ := v₄.trans (lowerFinally_within v₄.scope h₅ (le_finallyTarget _ _) (hm.mono v₄.le))
  exact (w₂.trans v₅).trans (Within.startIfReached v₅.scope h₆ le_rfl)

theorem lowerLock_sound {mutex : HirExpr} {loc : SourceLoc}
    (hk : body.Sound) : (lowerLock mutex loc body).Sound := by
  intro st st' hinv hs
  simp only [lowerLock, bind_eq_ok, pure_eq_ok] at hs
  obtain ⟨st₁, h₁, rfl⟩ := hs
  have w₀ := Within.pushStmts (Scope.refl hinv) [lockCall mutex loc]
  have w₁ := w₀.trans (Within.body w₀.scope hk h₁)
  split
  · exact w₁.trans (Within.pushStmts w₁.scope [unlockCall mutex loc])
  · exact w₁

/-! ## Induction over the syntax -/

theorem elsifLowerings_eq (es : List (HirExpr × List HirStmt)) :
    elsifLowerings es = es.map fun e => (e.1, lowerStmts e.2) := by
  induction es with
  | nil => rfl
  | cons e es ih => rw [elsifLowerings, ih, map_cons]

theorem optLowering_eq (o : Option (List HirStmt)) : optLowering o = o.map lowerStmts := by
  cases o <;> rfl

theorem branchLowerings_eq (bs : List HirCaseBranch) :
    branchLowerings bs = bs.map fun b => (b.labels, lowerStmts b.body) := by
  induction bs with
  | nil => rfl
  | cons b bs ih =>
    obtain ⟨labels, body⟩ := b
    rw [branchLowerings, ih, map_cons]

theorem typeBranchLowerings_eq (bs : List HirTypeCaseBranch) :
    typeBranchLowerings bs = bs.map fun b => (b.types, b.var, lowerStmts b.body) := by
  induction bs with
  | nil => rfl
  | cons b bs ih =>
    obtain ⟨types, var, body⟩ := b
    rw [typeBranchLowerings, ih, map_cons]

theorem clauseLowerings_eq (cs : List HirExceptClause) :
    clauseLowerings cs = cs.map fun c => ⟨c.exception, lowerStmts c.body⟩ := by
  induction cs with
  | nil => rfl
  | cons c cs ih =>
    obtain ⟨exception, var, body⟩ := c
    rw [clauseLowerings, ih, map_cons]

/-- A closed builder lowers nothing. -/
theorem lowerStmt_closed (h : st.isOpen = false) (s : HirStmt) : lowerStmt s st = .ok st := by
  obtain ⟨kind, loc⟩ := s
  simp [lowerStmt, h]

/-- Only the lowering in an open builder has to be sound. -/
theorem sound_of_kind {s : HirStmt} (hk : (lowerKind s.kind s.loc).Sound) :
    (lowerStmt s).Sound := by
  obtain ⟨kind, loc⟩ := s
  intro st st' hinv hs
  rw [lowerStmt] at hs
  split at hs
  · exact hk st st' hinv hs
  · exact sound_ok st st' hinv hs

theorem sound_push (s : HirStmt) : Lowering.Sound fun st => .ok (st.pushStmt s) := by
  intro st st' hinv hs
  cases hs
  exact Within.pushStmts (Scope.refl hinv) [s]

/-- Sealing with a terminator that leaves the graph. -/
theorem sound_leave (ht : t.successors = []) : Lowering.Sound fun st => st.sealBlock t := by
  intro st st' hinv hs
  exact Within.sealBlock (Scope.refl hinv) hs (by simp [ht])

/-- The obligations of the induction: every construct is sound if its bodies are. -/
theorem lowering_sound_cases :
    HirStmt.Cases (fun ss => (lowerStmts ss).Sound)
      (fun s => (lowerKind s.kind s.loc).Sound) where
  nil := sound_ok
  cons s ss hs hss := by
    intro st st' hinv h
    simp only [lowerStmts, bind_eq_ok] at h
    obtain ⟨st₁, h₁, h₂⟩ := h
    have w := sound_of_kind hs st st₁ hinv h₁
    exact w.trans (Within.body w.scope hss h₂)
  empty _ := sound_ok
  assign _ _ _ := sound_push _
  procCall _ _ _ := sound_push _
  ifStmt _ _ _ _ _ hthen helsifs helse := by
    refine lowerIf_sound hthen ?_ ?_
    · rw [elsifLowerings_eq, forall_mem_map]
      exact helsifs
    · simpa [optLowering_eq] using helse
  caseStmt _ _ _ _ hb helse := by
    refine lowerCase_sound ?_ ?_
    · simpa [branchLowerings_eq] using hb
    · simpa [optLowering_eq] using helse
  whileStmt _ _ _ hb := lowerWhile_sound hb
  repeatStmt _ _ _ hb := lowerRepeat_sound hb
  forStmt _ _ _ _ _ _ _ _ hb := lowerFor_sound hb
  loop _ _ hb := lowerLoop_sound hb
  ret _ _ := sound_leave rfl
  exit _ := lowerExit_sound
  raise _ _ := sound_leave rfl
  retry _ := sound_push _
  tryStmt _ _ _ _ hb hc _ := by
    refine lowerTry_sound hb ?_
    simpa [clauseLowerings_eq] using hc
  lock _ _ _ hb := lowerLock_sound hb
  typeCase _ _ _ _ hb helse := by
    refine lowerTypecase_sound ?_ ?_
    · simpa [typeBranchLowerings_eq] using hb
    · simpa [optLowering_eq] using helse

/-- Lowering a statement list keeps the builder invariant and stays in its scope. -/
theorem lowerStmts_sound (ss : List HirStmt) : Lowering.Sound (lowerStmts ss) :=
  lowering_sound_cases.stmts ss

/-- Lowering a statement keeps the builder invariant and stays in its scope. -/
theorem lowerStmt_sound (s : HirStmt) : Lowering.Sound (lowerStmt s) :=
  sound_of_kind (lowering_sound_cases.stmt s)

theorem lowerKind_sound (kind : HirStmtKind) (loc : SourceLoc) : (lowerKind kind loc).Sound :=
  lowering_sound_cases.stmt ⟨kind, loc⟩

end Mx

import Mx.Cfg.Progress

/-!
# Progress of every lowering

Two facts for each construct: whether its lowering leaves the builder open, and
that it succeeds if the lowerings of its bodies do. The second is where the order
of allocations, seals and starts matters: every block must still wait when it is
started, and nothing may be current then.
-/

namespace Mx

open Mx.Core List

variable {st₀ st st' : CfgBuilder}

/-! ## `IF` -/

section Elsifs

variable {merge cur out : Nat} {hasElse : Bool} {elsifs : List (HirExpr × Lowering)}

theorem lowerElsifs_current (hc : st.current = none)
    (hs : lowerElsifs merge hasElse elsifs cur st = .ok (out, st')) : st'.current = none := by
  induction elsifs generalizing cur st with
  | nil =>
    cases hs
    exact hc
  | cons e rest ih =>
    obtain ⟨cond, body⟩ := e
    simp only [lowerElsifs, bind_eq_ok] at hs
    obtain ⟨st₁, _, st₂, _, st₃, h₃, h₄⟩ := hs
    exact ih (lowerArm_current h₃) h₄

theorem falseTarget_ne {id : Nat} {more : Bool} (hid : id < st.nextId) (hmore : more = true) :
    falseTarget merge more st ≠ id := by
  simp only [falseTarget, hmore, ite_true]
  omega

variable {hd : Option Nat}

/-- A waiting block other than the first test's is left alone. -/
theorem lowerElsifs_waiting {id : Nat} (h : Scope st₀ st)
    (hk : ∀ e ∈ elsifs, Lowering.Sound e.2) (w : st.Waiting id hd)
    (hne : elsifs ≠ [] → cur ≠ id)
    (hs : lowerElsifs merge hasElse elsifs cur st = .ok (out, st'))
    (hmerge : st₀.nextId ≤ merge ∧ merge < st.nextId) (hcur : st₀.nextId ≤ cur) :
    st'.Waiting id hd := by
  induction elsifs generalizing cur st with
  | nil =>
    cases hs
    exact w
  | cons e rest ih =>
    obtain ⟨cond, body⟩ := e
    simp only [lowerElsifs, bind_eq_ok] at hs
    obtain ⟨st₁, h₁, st₂, h₂, st₃, h₃, h₄⟩ := hs
    rw [forall_mem_cons] at hk
    obtain ⟨v₁, v₂, v₃, hmerge₃, hcur₃⟩ := elsif_within h hk.1 hmerge hcur h₁ h₂ h₃
    have w₁ := w.startBlock h₁ (hne (by simp))
    have w₂ := lowerTest_waiting w₁ h₂
    have w₃ := lowerArm_waiting v₂.scope hk.1 w₂ w₁.lt.ne' h₃ v₁.scope.nextId_le
    refine ih v₃.scope hk.2 w₃ ?_ h₄ hmerge₃
      hcur₃
    intro hrest
    exact falseTarget_ne w₁.lt (by simp [hrest])

/-- The chain reaches the merge block if some body completes, or if the last test has
nowhere else to go. -/
theorem lowerElsifs_reaches {os : List Bool} (h : Scope st₀ st)
    (hk : ∀ e ∈ elsifs, Lowering.Sound e.2)
    (ho : List.Forall₂ (fun e o => Lowering.Opens e.2 o) elsifs os)
    (hs : lowerElsifs merge hasElse elsifs cur st = .ok (out, st'))
    (hmerge : st₀.nextId ≤ merge ∧ merge < st.nextId) (hcur : st₀.nextId ≤ cur)
    (hx : st.loopExitStack.head? ≠ some merge) :
    st'.Reaches merge ↔
      st.Reaches merge ∨ os.any id = true ∨ (elsifs ≠ [] ∧ hasElse = false) := by
  induction ho generalizing cur st with
  | nil =>
    cases hs
    simp
  | @cons e o rest os heo _ ih =>
    obtain ⟨cond, body⟩ := e
    simp only [lowerElsifs, bind_eq_ok] at hs
    obtain ⟨st₁, h₁, st₂, h₂, st₃, h₃, h₄⟩ := hs
    rw [forall_mem_cons] at hk
    obtain ⟨v₁, v₂, v₃, hmerge₃, hcur₃⟩ := elsif_within h hk.1 hmerge hcur h₁ h₂ h₃
    have hlt₁ := Nat.lt_of_lt_of_le hmerge.2 v₁.le
    have hlt₂ := Nat.lt_of_lt_of_le hmerge.2 v₂.le
    rw [ih v₃.scope hk.2 h₄ hmerge₃
        hcur₃ (by rw [v₃.exits]; exact hx),
      lowerArm_reaches v₂.scope hk.1 heo h₃ v₁.scope.nextId_le hlt₂ (by rw [v₂.exits]; exact hx),
      lowerTest_reaches hlt₁ h₂, CfgBuilder.reaches_startBlock h₁]
    cases rest with
    | nil => simp; tauto
    | cons e' rest => simp; tauto

/-- After one test and its body, the block for the next test waits. -/
theorem elsif_next_waiting {cond : HirExpr} {body : Lowering} {more : Bool}
    {st₁ st₂ st₃ : CfgBuilder} (h : Scope st₀ st) (hk : body.Sound)
    (h₁ : st.startBlock cur = .ok st₁) (h₂ : lowerTest cond merge more st₁ = .ok st₂)
    (h₃ : lowerArm st₁.nextId [] body merge st₂ = .ok st₃)
    (hmerge : st₀.nextId ≤ merge ∧ merge < st.nextId) (hcur : st₀.nextId ≤ cur)
    (hmore : more = true) :
    st₃.Waiting (falseTarget merge more st₁) st.handlerStack.head? ∧
      falseTarget merge more st₁ ≠ merge := by
  obtain ⟨v₁, v₂, _⟩ := elsif_within h hk hmerge hcur h₁ h₂ h₃
  have hw := (lowerTest_waiting_new v₁.scope.inv h₂).2 hmore
  rw [v₁.handlers] at hw
  refine ⟨lowerArm_waiting v₂.scope hk hw ?_ h₃ v₁.scope.nextId_le,
    falseTarget_ne (Nat.lt_of_lt_of_le hmerge.2 v₁.le) hmore⟩
  simp only [falseTarget, hmore, ite_true]
  omega

/-- The `ELSE` block waits after the chain if the first test's block waits before it. -/
theorem lowerElsifs_else_waiting (h : Scope st₀ st) (hk : ∀ e ∈ elsifs, Lowering.Sound e.2)
    (w : elsifs ≠ [] ∨ hasElse = true → st.Waiting cur hd ∧ cur ≠ merge)
    (hs : lowerElsifs merge hasElse elsifs cur st = .ok (out, st'))
    (hmerge : st₀.nextId ≤ merge ∧ merge < st.nextId) (hcur : st₀.nextId ≤ cur)
    (hhd : st.handlerStack.head? = hd) (he : hasElse = true) :
    st'.Waiting out hd ∧ out ≠ merge := by
  induction elsifs generalizing cur st with
  | nil =>
    cases hs
    exact w (Or.inr he)
  | cons e rest ih =>
    obtain ⟨cond, body⟩ := e
    simp only [lowerElsifs, bind_eq_ok] at hs
    obtain ⟨st₁, h₁, st₂, h₂, st₃, h₃, h₄⟩ := hs
    rw [forall_mem_cons] at hk
    obtain ⟨v₁, v₂, v₃, hmerge₃, hcur₃⟩ := elsif_within h hk.1 hmerge hcur h₁ h₂ h₃
    refine ih v₃.scope hk.2 (fun hmore => ?_) h₄ hmerge₃
      hcur₃ (by rw [v₃.handlers]; exact hhd)
    rw [← hhd]
    exact elsif_next_waiting h hk.1 h₁ h₂ h₃ hmerge hcur (by simpa using hmore)

/-- The chain can be lowered if its first test's block waits. -/
theorem lowerElsifs_total {inLoop : Bool} (h : Scope st₀ st)
    (hk : ∀ e ∈ elsifs, Lowering.Sound e.2) (ht : ∀ e ∈ elsifs, Lowering.Total e.2 inLoop)
    (w : elsifs ≠ [] ∨ hasElse = true → st.Waiting cur hd ∧ cur ≠ merge) (hc : st.current = none)
    (hmerge : st₀.nextId ≤ merge ∧ merge < st.nextId) (hcur : st₀.nextId ≤ cur)
    (hhd : st.handlerStack.head? = hd) (hloop : inLoop = true → st.loopExitStack ≠ []) :
    ∃ out st', lowerElsifs merge hasElse elsifs cur st = .ok (out, st') := by
  induction elsifs generalizing cur st with
  | nil => exact ⟨cur, st, rfl⟩
  | cons e rest ih =>
    obtain ⟨cond, body⟩ := e
    rw [forall_mem_cons] at hk ht
    have hm : Scope.Allowed st₀ st merge := Or.inl hmerge
    obtain ⟨wcur, _⟩ := w (Or.inl (by simp))
    obtain ⟨st₁, h₁⟩ := wcur.exists_start hc
    have v₁ := Within.startBlock h h₁ hcur
    obtain ⟨st₂, h₂⟩ := lowerTest_total cond merge (!rest.isEmpty || hasElse) (wcur.at_start h₁)
    have v₂ := v₁.trans (lowerTest_within v₁.scope h₂ (hm.mono v₁.le))
    obtain ⟨wthen, _⟩ := lowerTest_waiting_new v₁.scope.inv h₂
    obtain ⟨st₃, h₃⟩ := lowerArm_total [] merge v₂.scope hk.1 ht.1 wthen
      (lowerExprAsBranch_current h₂) v₁.scope.nextId_le (by rw [v₂.exits]; exact hloop)
    have v₃ := v₂.trans (lowerArm_within v₂.scope hk.1 h₃ v₁.scope.nextId_le (hm.mono v₂.le))
    have w₃ : rest ≠ [] ∨ hasElse = true →
        st₃.Waiting (falseTarget merge (!rest.isEmpty || hasElse) st₁) hd ∧
          falseTarget merge (!rest.isEmpty || hasElse) st₁ ≠ merge := by
      intro hmore
      rw [← hhd]
      exact elsif_next_waiting h hk.1 h₁ h₂ h₃ hmerge hcur (by simpa using hmore)
    obtain ⟨out, st₄, h₄⟩ := ih v₃.scope hk.2 ht.2 w₃ (lowerArm_current h₃)
      ⟨hmerge.1, Nat.lt_of_lt_of_le hmerge.2 v₃.le⟩ (le_falseTarget _ v₁.scope hmerge.1)
      (by rw [v₃.handlers]; exact hhd) (by rw [v₃.exits]; exact hloop)
    exact ⟨out, st₄, by
      simp only [lowerElsifs, bind_eq_ok]
      exact ⟨st₁, h₁, st₂, h₂, st₃, h₃, h₄⟩⟩

end Elsifs

/-- Continuing at the merge block opens the builder exactly if the block is reached. -/
theorem startIfReached_isOpen {m : Nat} (hc : st.current = none)
    (hs : st.startIfReached m = .ok st') : st'.isOpen = true ↔ st.Reaches m := by
  unfold CfgBuilder.startIfReached at hs
  split at hs
  · rename_i hr
    simp [CfgBuilder.startBlock_isOpen hs, ← CfgBuilder.anyPathReaches_iff, hr]
  · rename_i hr
    cases hs
    simp [CfgBuilder.isOpen, hc, ← CfgBuilder.anyPathReaches_iff, hr]

theorem startIfReached_total {m : Nat} {hd : Option Nat} (w : st.Waiting m hd)
    (hc : st.current = none) : ∃ st', st.startIfReached m = .ok st' := by
  unfold CfgBuilder.startIfReached
  split
  · exact w.exists_start hc
  · exact ⟨st, rfl⟩

/-- Nothing reaches a block that is not allocated yet. -/
theorem CfgBuilder.Inv.not_reaches (hinv : st.Inv) : ¬ st.Reaches st.nextId := by
  rintro ⟨i, b, hb, hm⟩
  have := (hinv.targets i b hb _ hm).2
  omega

/-- A block that is not allocated yet is not a loop exit. -/
theorem CfgBuilder.Inv.not_exit (hinv : st.Inv) : st.loopExitStack.head? ≠ some st.nextId := by
  intro hx
  have := (hinv.exits _ (mem_of_head? hx)).2
  omega

section If

variable {cond : HirExpr} {thenBody : Lowering} {elsifs : List (HirExpr × Lowering)}
  {elseBody : Option Lowering}

theorem lowerElse_current {merge cur : Nat} (hc : st.current = none)
    (hs : lowerElse merge cur elseBody st = .ok st') : st'.current = none := by
  cases elseBody with
  | none =>
    cases hs
    exact hc
  | some body => exact lowerArm_current hs

theorem lowerElse_reaches {merge cur : Nat} {oe : Bool} (h : Scope st₀ st)
    (hk : ∀ k ∈ elseBody, Lowering.Sound k) (ho : ∀ k ∈ elseBody, Lowering.Opens k oe)
    (hs : lowerElse merge cur elseBody st = .ok st') (hcur : st₀.nextId ≤ cur)
    (hm : merge < st.nextId) (hx : st.loopExitStack.head? ≠ some merge) :
    st'.Reaches merge ↔ st.Reaches merge ∨ (elseBody.isSome = true ∧ oe = true) := by
  cases elseBody with
  | none =>
    cases hs
    simp
  | some body =>
    rw [lowerArm_reaches h (hk body rfl) (ho body rfl) hs hcur hm hx]
    simp

theorem lowerIf_opens {o oe : Bool} {os : List Bool} (hthen : thenBody.Sound)
    (helsifs : ∀ e ∈ elsifs, Lowering.Sound e.2) (helse : ∀ k ∈ elseBody, Lowering.Sound k)
    (ho : thenBody.Opens o) (hos : List.Forall₂ (fun e o => Lowering.Opens e.2 o) elsifs os)
    (hoe : ∀ k ∈ elseBody, Lowering.Opens k oe) (hnone : elseBody = none → oe = true) :
    (lowerIf cond thenBody elsifs elseBody).Opens (o || os.any id || oe) := by
  intro st st' hinv _ hs
  simp only [lowerIf, bind_eq_ok] at hs
  obtain ⟨st₂, h₂, st₃, h₃, ⟨cur, st₄⟩, h₄, st₅, h₅, h₆⟩ := hs
  obtain ⟨v₂, v₃, w₄, hlt₃, hm₄, hcur₀, hcur⟩ := if_within hinv hthen helsifs h₂ h₃ h₄
  have hx := hinv.not_exit
  have hlt₂ : st.nextId < st₂.nextId := Nat.lt_of_lt_of_le (by simp) v₂.le
  rw [Bool.eq_iff_iff, startIfReached_isOpen
      (lowerElse_current (lowerElsifs_current (lowerArm_current h₃) h₄) h₅) h₆,
    lowerElse_reaches (v₃.trans w₄).scope helse hoe h₅ hcur (Nat.lt_of_lt_of_le hlt₃ w₄.le)
      (by rw [(v₃.trans w₄).exits]; exact hx),
    lowerElsifs_reaches v₃.scope helsifs hos h₄ ⟨le_rfl, hlt₃⟩ hcur₀
      (by rw [v₃.exits]; exact hx),
    lowerArm_reaches v₂.scope hthen ho h₃ (by simp) hlt₂ (by rw [v₂.exits]; exact hx),
    lowerTest_reaches (by simp) h₂, CfgBuilder.newBlock_eq, CfgBuilder.reaches_alloc]
  have hno := hinv.not_reaches
  cases elseBody with
  | none =>
    obtain rfl := hnone rfl
    by_cases he : elsifs = [] <;> simp [he]
  | some body =>
    simp [hno]

section Parts

variable {st₂ st₃ st₄ st₅ : CfgBuilder} {cur : Nat} {more : Bool}

/-- After the first test and its body, the block for the next test waits. -/
theorem if_next_waiting (hinv : st.Inv) (hthen : thenBody.Sound)
    (h₂ : lowerTest cond st.nextId more st.newBlock = .ok st₂)
    (h₃ : lowerArm st.newBlock.nextId [] thenBody st.nextId st₂ = .ok st₃)
    (hmore : more = true) :
    st₃.Waiting (falseTarget st.nextId more st.newBlock) st.handlerStack.head? ∧
      falseTarget st.nextId more st.newBlock ≠ st.nextId := by
  have w₁ := Within.newBlock (Scope.refl hinv)
  have v₂ := lowerTest_within w₁.scope h₂ (Or.inl ⟨le_rfl, by simp⟩)
  have hw := (lowerTest_waiting_new w₁.scope.inv h₂).2 hmore
  refine ⟨lowerArm_waiting v₂.scope hthen hw ?_ h₃ (by simp), falseTarget_ne (by simp) hmore⟩
  simp only [falseTarget, hmore, ite_true]
  omega

/-- The merge block of an `IF` waits until all its bodies are lowered. -/
theorem if_merge_waiting (hinv : st.Inv) (hthen : thenBody.Sound)
    (helsifs : ∀ e ∈ elsifs, Lowering.Sound e.2) (helse : ∀ k ∈ elseBody, Lowering.Sound k)
    (h₂ : lowerTest cond st.nextId (!elsifs.isEmpty || elseBody.isSome) st.newBlock = .ok st₂)
    (h₃ : lowerArm st.newBlock.nextId [] thenBody st.nextId st₂ = .ok st₃)
    (h₄ : lowerElsifs st.nextId elseBody.isSome elsifs
      (falseTarget st.nextId (!elsifs.isEmpty || elseBody.isSome) st.newBlock) st₃ =
        .ok (cur, st₄))
    (h₅ : lowerElse st.nextId cur elseBody st₄ = .ok st₅) :
    st₅.Waiting st.nextId st.handlerStack.head? := by
  obtain ⟨v₂, v₃, w₄, hlt₃, hm₄, hcur₀, hcur⟩ := if_within hinv hthen helsifs h₂ h₃ h₄
  have hmerge := And.intro (Nat.le_refl st.nextId) hlt₃
  have hnext : elsifs ≠ [] ∨ elseBody.isSome = true → _ := fun hmore =>
    if_next_waiting hinv hthen h₂ h₃ (by simpa using hmore)
  have wmerge := hinv.waiting_alloc st.handlerStack.head?
  have wmerge₃ := lowerArm_waiting v₂.scope hthen (lowerTest_waiting wmerge h₂) (by simp) h₃
    (by simp)
  have wmerge₄ := lowerElsifs_waiting v₃.scope helsifs wmerge₃ (fun he => (hnext (Or.inl he)).2)
    h₄ hmerge hcur₀
  cases elseBody with
  | none =>
    cases h₅
    exact wmerge₄
  | some body =>
    have wout := lowerElsifs_else_waiting v₃.scope helsifs hnext h₄ hmerge hcur₀
      (by rw [v₃.handlers]; rfl) rfl
    exact lowerArm_waiting (v₃.trans w₄).scope (helse body rfl) wmerge₄ wout.2 h₅ hcur

end Parts

theorem lowerIf_total {inLoop : Bool} (hthen : thenBody.Sound)
    (helsifs : ∀ e ∈ elsifs, Lowering.Sound e.2) (helse : ∀ k ∈ elseBody, Lowering.Sound k)
    (ht : thenBody.Total inLoop) (hts : ∀ e ∈ elsifs, Lowering.Total e.2 inLoop)
    (hte : ∀ k ∈ elseBody, Lowering.Total k inLoop) :
    (lowerIf cond thenBody elsifs elseBody).Total inLoop := by
  intro st hinv hopen hloop
  have w₁ := Within.newBlock (Scope.refl hinv)
  have hm : Scope.Allowed st st.newBlock st.nextId := Or.inl ⟨le_rfl, by simp⟩
  obtain ⟨c, ss, hd, ha⟩ := hinv.exists_at hopen
  obtain ⟨st₂, h₂⟩ := lowerTest_total cond st.nextId
    (!elsifs.isEmpty || elseBody.isSome) (ha.alloc st.handlerStack.head?)
  have v₂ := lowerTest_within w₁.scope h₂ hm
  obtain ⟨wthen, wfalse⟩ := lowerTest_waiting_new w₁.scope.inv h₂
  obtain ⟨st₃, h₃⟩ := lowerArm_total [] st.nextId v₂.scope hthen ht wthen
    (lowerExprAsBranch_current h₂) (by simp) (by rw [v₂.exits]; exact hloop)
  have v₃ := v₂.trans (lowerArm_within v₂.scope hthen h₃ (by simp) (hm.mono v₂.le))
  have hlt₃ : st.nextId < st₃.nextId := Nat.lt_of_lt_of_le (by simp) v₃.le
  have hcur₀ := le_falseTarget (!elsifs.isEmpty || elseBody.isSome) w₁.scope
    le_rfl
  have wcur : elsifs ≠ [] ∨ elseBody.isSome = true → _ := fun hmore =>
    if_next_waiting hinv hthen h₂ h₃ (by simpa using hmore)
  have hhd₃ : st₃.handlerStack.head? = st.handlerStack.head? := by rw [v₃.handlers]; rfl
  obtain ⟨cur, st₄, h₄⟩ := lowerElsifs_total v₃.scope helsifs hts wcur (lowerArm_current h₃)
    ⟨le_rfl, hlt₃⟩ hcur₀ hhd₃ (by rw [v₃.exits]; exact hloop)
  have wout := lowerElsifs_else_waiting v₃.scope helsifs wcur h₄ ⟨le_rfl, hlt₃⟩ hcur₀ hhd₃
  obtain ⟨w₄, hcur⟩ := lowerElsifs_within v₃.scope helsifs h₄ ⟨le_rfl, hlt₃⟩ hcur₀
  have v₄ := v₃.trans w₄
  obtain ⟨st₅, h₅⟩ : ∃ st₅, lowerElse st.nextId cur elseBody st₄ = .ok st₅ := by
    cases elseBody with
    | none => exact ⟨st₄, rfl⟩
    | some body =>
      exact lowerArm_total [] st.nextId v₄.scope (helse body rfl) (hte body rfl) (wout rfl).1
        (lowerElsifs_current (lowerArm_current h₃) h₄) hcur (by rw [v₄.exits]; exact hloop)
  obtain ⟨st₆, h₆⟩ := startIfReached_total
    (if_merge_waiting hinv hthen helsifs helse h₂ h₃ h₄ h₅)
    (lowerElse_current (lowerElsifs_current (lowerArm_current h₃) h₄) h₅)
  refine ⟨st₆, ?_⟩
  simp only [lowerIf, bind_eq_ok]
  exact ⟨st₂, h₂, st₃, h₃, (cur, st₄), h₄, st₅, h₅, h₆⟩

end If

/-! ## Loops -/

variable {h : Option Nat}

theorem CfgBuilder.Waiting.pushLoopExit {id : Nat} (w : st.Waiting id h)
    (x : Nat) : (st.pushLoopExit x).Waiting id h := ⟨w.block, w.idle⟩

theorem CfgBuilder.Waiting.popLoopExit {id : Nat} (w : st.Waiting id h) :
    st.popLoopExit.Waiting id h := ⟨w.block, w.idle⟩

@[simp] theorem CfgBuilder.pushLoopExit_current (st : CfgBuilder) (x : Nat) :
    (st.pushLoopExit x).current = st.current := rfl

@[simp] theorem CfgBuilder.popLoopExit_current (st : CfgBuilder) :
    st.popLoopExit.current = st.current := rfl

/-- The exit block of a `WHILE` waits while its body is lowered. -/
theorem whileEntry_after {cond : HirExpr} (hinv : st.Inv) (hs : whileEntry cond st = .ok st') :
    st'.isOpen = true ∧ st'.Waiting (st.nextId + 2) st.handlerStack.head? := by
  simp only [whileEntry, bind_eq_ok] at hs
  obtain ⟨st₁, h₁, st₂, h₂, st₃, h₃, h₄⟩ := hs
  have w₀ := hinv.waiting_newBlocks (n := 3) (i := st.nextId + 2) (by omega) (by omega)
  have w₃ := lowerExprAsBranch_waiting ((w₀.sealBlock h₁).startBlock h₂ (by omega)) h₃
  exact ⟨CfgBuilder.startBlock_isOpen h₄, (w₃.pushLoopExit _).startBlock h₄ (by omega)⟩

theorem whileEntry_total (cond : HirExpr) (hinv : st.Inv) (hopen : st.isOpen = true) :
    ∃ st', whileEntry cond st = .ok st' := by
  obtain ⟨c, ss, hd, ha⟩ := hinv.exists_at hopen
  have hnew : ∀ i, i < 3 → (st.newBlocks 3).Waiting (st.nextId + i) st.handlerStack.head? :=
    fun i hi => hinv.waiting_newBlocks (by omega) (by omega)
  obtain ⟨st₁, h₁⟩ := (ha.newBlocks 3).exists_seal (.goto st.nextId)
  have wh := (hnew 0 (by omega)).sealBlock h₁
  obtain ⟨st₂, h₂⟩ := wh.exists_start (CfgBuilder.sealBlock_current h₁)
  obtain ⟨st₃, h₃⟩ := lowerExprAsBranch_total (e := cond) (t := st.nextId + 1)
    (f := st.nextId + 2) (wh.at_start h₂)
  have wb := lowerExprAsBranch_waiting
    (((hnew 1 (by omega)).sealBlock h₁).startBlock h₂ (by omega)) h₃
  obtain ⟨st₄, h₄⟩ := (wb.pushLoopExit (st.nextId + 2)).exists_start
    (by simpa using lowerExprAsBranch_current h₃)
  exact ⟨st₄, by simp only [whileEntry, bind_eq_ok]; exact ⟨st₁, h₁, st₂, h₂, st₃, h₃, h₄⟩⟩

/-- The exit block of a `LOOP` or `REPEAT` waits while its body is lowered. -/
theorem loopEntry_after (hinv : st.Inv) (hs : loopEntry st = .ok st') :
    st'.isOpen = true ∧ st'.Waiting (st.nextId + 1) st.handlerStack.head? := by
  simp only [loopEntry, bind_eq_ok] at hs
  obtain ⟨st₁, h₁, h₂⟩ := hs
  have w₀ := hinv.waiting_newBlocks (n := 2) (i := st.nextId + 1) (by omega) (by omega)
  exact ⟨CfgBuilder.startBlock_isOpen h₂,
    ((w₀.sealBlock h₁).pushLoopExit _).startBlock h₂ (by omega)⟩

theorem loopEntry_total (hinv : st.Inv) (hopen : st.isOpen = true) :
    ∃ st', loopEntry st = .ok st' := by
  obtain ⟨c, ss, hd, ha⟩ := hinv.exists_at hopen
  have w₀ := hinv.waiting_newBlocks (n := 2) (i := st.nextId) le_rfl (by omega)
  obtain ⟨st₁, h₁⟩ := (ha.newBlocks 2).exists_seal (.goto st.nextId)
  obtain ⟨st₂, h₂⟩ := ((w₀.sealBlock h₁).pushLoopExit (st.nextId + 1)).exists_start
    (by simpa using CfgBuilder.sealBlock_current h₁)
  exact ⟨st₂, by simp only [loopEntry, bind_eq_ok]; exact ⟨st₁, h₁, h₂⟩⟩

section For

variable {var : String} {varTy : TypeId} {start stop : HirExpr} {step : Option HirExpr}
  {direction : ForDirection}

/-- The latch and the exit block of a `FOR` wait while its body is lowered. -/
theorem forEntry_after (hinv : st.Inv) (hs : forEntry var varTy start stop direction st = .ok st') :
    st'.isOpen = true ∧ st'.Waiting (st.nextId + 2) st.handlerStack.head? ∧
      st'.Waiting (st.nextId + 3) st.handlerStack.head? := by
  simp only [forEntry, bind_eq_ok] at hs
  obtain ⟨st₁, h₁, st₂, h₂, st₃, h₃, h₄⟩ := hs
  have hpush : (st.pushStmt (assignVar var varTy start)).Inv :=
    ((Scope.refl hinv).pushStmt _).inv
  have hw : ∀ i, 2 ≤ i → i < 4 → st'.Waiting (st.nextId + i) st.handlerStack.head? := by
    intro i hlo hhi
    have w₀ := hpush.waiting_newBlocks (n := 4) (i := st.nextId + i) (by simp)
      (by simp; omega)
    rw [CfgBuilder.pushStmt_handlerStack] at w₀
    have w₃ := ((w₀.sealBlock h₁).startBlock h₂ (by omega)).sealBlock h₃
    exact (w₃.pushLoopExit _).startBlock h₄ (by omega)
  exact ⟨CfgBuilder.startBlock_isOpen h₄, hw 2 (by omega) (by omega), hw 3 (by omega) (by omega)⟩

theorem forEntry_total (var : String) (varTy : TypeId) (start stop : HirExpr)
    (direction : ForDirection) (hinv : st.Inv) (hopen : st.isOpen = true) :
    ∃ st', forEntry var varTy start stop direction st = .ok st' := by
  have hpush : (st.pushStmt (assignVar var varTy start)).Inv :=
    ((Scope.refl hinv).pushStmt _).inv
  obtain ⟨c, ss, hd, ha⟩ := hpush.exists_at (by simpa [CfgBuilder.isOpen] using hopen)
  have hnew : ∀ i, i < 4 → ((st.pushStmt (assignVar var varTy start)).newBlocks 4).Waiting
      (st.nextId + i) (st.pushStmt (assignVar var varTy start)).handlerStack.head? :=
    fun i hi => hpush.waiting_newBlocks (by simp) (by simp; omega)
  obtain ⟨st₁, h₁⟩ := (ha.newBlocks 4).exists_seal (.goto st.nextId)
  have wc := (hnew 0 (by omega)).sealBlock h₁
  obtain ⟨st₂, h₂⟩ := wc.exists_start (CfgBuilder.sealBlock_current h₁)
  obtain ⟨st₃, h₃⟩ := (wc.at_start h₂).exists_seal
    (.branch (makeBinop (forCmp direction) var varTy stop) (st.nextId + 1) (st.nextId + 3))
  have wb := (((hnew 1 (by omega)).sealBlock h₁).startBlock h₂ (by omega)).sealBlock h₃
  obtain ⟨st₄, h₄⟩ := (wb.pushLoopExit (st.nextId + 3)).exists_start
    (by simpa using CfgBuilder.sealBlock_current h₃)
  exact ⟨st₄, by simp only [forEntry, bind_eq_ok]; exact ⟨st₁, h₁, st₂, h₂, st₃, h₃, h₄⟩⟩

theorem forLatch_total {latch : Nat} {hd : Option Nat} (var : String) (varTy : TypeId)
    (step : Option HirExpr) (direction : ForDirection) (condBlock : Nat) (w : st.Waiting latch hd)
    (hc : st.current = none) :
    ∃ st', forLatch var varTy step direction latch condBlock st = .ok st' := by
  obtain ⟨st₁, h₁⟩ := w.exists_start hc
  obtain ⟨st₂, h₂⟩ := ((w.at_start h₁).pushStmts [assignVar var varTy
    (makeBinop .add var varTy (forStep varTy step direction))]).exists_seal (.goto condBlock)
  refine ⟨st₂, ?_⟩
  simp only [forLatch, armEntry, bind_eq_ok, pure_eq_ok]
  exact ⟨_, ⟨st₁, h₁, rfl⟩, h₂⟩

theorem forLatch_waiting {latch condBlock id : Nat} {h : Option Nat} (w : st.Waiting id h)
    (hne : latch ≠ id) (hs : forLatch var varTy step direction latch condBlock st = .ok st') :
    st'.Waiting id h ∧ st'.current = none := by
  simp only [forLatch, bind_eq_ok] at hs
  obtain ⟨st₁, h₁, h₂⟩ := hs
  exact ⟨(armEntry_waiting w hne h₁).sealBlock h₂, CfgBuilder.sealBlock_current h₂⟩

end For

theorem leaveLoop_total {x : Nat} (back : Nat) (hinv : st.Inv) (w : st.Waiting x h) :
    ∃ st', leaveLoop back x st = .ok st' := by
  obtain ⟨st₁, h₁⟩ := hinv.exists_sealIfOpen (.goto back)
  obtain ⟨st₂, h₂⟩ := (w.sealIfOpen h₁).popLoopExit.exists_start
    (by simpa using CfgBuilder.sealIfOpen_current h₁)
  exact ⟨st₂, by simp only [leaveLoop, bind_eq_ok]; exact ⟨st₁, h₁, h₂⟩⟩

section Loops

variable {body : Lowering} {inLoop : Bool}

/-- A construct that ends by starting a block leaves the builder open. -/
theorem opens_of_start {k : Lowering}
    (h : ∀ st st', k st = .ok st' → ∃ st₁ id, CfgBuilder.startBlock st₁ id = .ok st') :
    k.Opens true := by
  intro st st' _ _ hs
  obtain ⟨st₁, id, h₁⟩ := h st st' hs
  exact CfgBuilder.startBlock_isOpen h₁

theorem leaveLoop_start {x back : Nat} (hs : leaveLoop back x st = .ok st') :
    ∃ st₁ id, CfgBuilder.startBlock st₁ id = .ok st' := by
  simp only [leaveLoop, bind_eq_ok] at hs
  obtain ⟨st₁, _, h₂⟩ := hs
  exact ⟨_, _, h₂⟩

variable {cond : HirExpr}

theorem lowerWhile_opens : (lowerWhile cond body).Opens true := by
  refine opens_of_start fun st st' hs => ?_
  simp only [lowerWhile, bind_eq_ok] at hs
  obtain ⟨st₁, _, st₂, _, h₃⟩ := hs
  exact leaveLoop_start h₃

theorem lowerLoop_opens : (lowerLoop body).Opens true := by
  refine opens_of_start fun st st' hs => ?_
  simp only [lowerLoop, bind_eq_ok] at hs
  obtain ⟨st₁, _, st₂, _, h₃⟩ := hs
  exact leaveLoop_start h₃

theorem lowerRepeat_opens : (lowerRepeat body cond).Opens true := by
  refine opens_of_start fun st st' hs => ?_
  simp only [lowerRepeat, bind_eq_ok] at hs
  obtain ⟨st₁, _, st₂, _, st₃, _, h₄⟩ := hs
  exact ⟨_, _, h₄⟩

theorem lowerFor_opens {var : String} {varTy : TypeId} {start stop : HirExpr}
    {step : Option HirExpr} {direction : ForDirection} :
    (lowerFor var varTy start stop step direction body).Opens true := by
  refine opens_of_start fun st st' hs => ?_
  simp only [lowerFor, bind_eq_ok] at hs
  obtain ⟨st₁, _, st₂, _, st₃, _, st₄, _, h₅⟩ := hs
  exact ⟨_, _, h₅⟩

theorem lowerWhile_total (hk : body.Sound) (ht : body.Total true) :
    (lowerWhile cond body).Total inLoop := by
  intro st hinv hopen _
  obtain ⟨st₁, h₁⟩ := whileEntry_total cond hinv hopen
  obtain ⟨hopen₁, wx⟩ := whileEntry_after hinv h₁
  obtain ⟨w₁, _⟩ := whileEntry_within hinv h₁
  obtain ⟨st₂, h₂⟩ := ht st₁ w₁.scope.inv hopen₁ fun _ => by
    rw [w₁.exits]
    exact cons_ne_nil _ _
  have v₂ := hk st₁ st₂ w₁.scope.inv h₂
  obtain ⟨st₃, h₃⟩ := leaveLoop_total st.nextId v₂.scope.inv (wx.of_scope v₂.scope)
  exact ⟨st₃, by simp only [lowerWhile, bind_eq_ok]; exact ⟨st₁, h₁, st₂, h₂, h₃⟩⟩

theorem lowerLoop_total (hk : body.Sound) (ht : body.Total true) :
    (lowerLoop body).Total inLoop := by
  intro st hinv hopen _
  obtain ⟨st₁, h₁⟩ := loopEntry_total hinv hopen
  obtain ⟨hopen₁, wx⟩ := loopEntry_after hinv h₁
  obtain ⟨w₁, _⟩ := loopEntry_within hinv h₁
  obtain ⟨st₂, h₂⟩ := ht st₁ w₁.scope.inv hopen₁ fun _ => by
    rw [w₁.exits]
    exact cons_ne_nil _ _
  have v₂ := hk st₁ st₂ w₁.scope.inv h₂
  obtain ⟨st₃, h₃⟩ := leaveLoop_total st.nextId v₂.scope.inv (wx.of_scope v₂.scope)
  exact ⟨st₃, by simp only [lowerLoop, bind_eq_ok]; exact ⟨st₁, h₁, st₂, h₂, h₃⟩⟩

theorem lowerUntil_total (cond : HirExpr) (x back : Nat) (hinv : st.Inv) :
    ∃ st', lowerUntil cond x back st = .ok st' := by
  unfold lowerUntil
  split
  · rename_i ho
    obtain ⟨c, ss, h, ha⟩ := hinv.exists_at ho
    exact lowerExprAsBranch_total ha
  · exact ⟨st, rfl⟩

theorem lowerUntil_current {x back : Nat}
    (hs : lowerUntil cond x back st = .ok st') : st'.current = none := by
  unfold lowerUntil at hs
  split at hs
  · exact lowerExprAsBranch_current hs
  · rename_i ho
    cases hs
    exact CfgBuilder.isOpen_eq_false_iff.mp (by simpa using ho)

theorem lowerUntil_waiting {x back id : Nat} {h : Option Nat}
    (w : st.Waiting id h) (hs : lowerUntil cond x back st = .ok st') : st'.Waiting id h := by
  unfold lowerUntil at hs
  split at hs
  · exact lowerExprAsBranch_waiting w hs
  · cases hs
    exact w

theorem lowerRepeat_total (hk : body.Sound) (ht : body.Total true) :
    (lowerRepeat body cond).Total inLoop := by
  intro st hinv hopen _
  obtain ⟨st₁, h₁⟩ := loopEntry_total hinv hopen
  obtain ⟨hopen₁, wx⟩ := loopEntry_after hinv h₁
  obtain ⟨w₁, _⟩ := loopEntry_within hinv h₁
  obtain ⟨st₂, h₂⟩ := ht st₁ w₁.scope.inv hopen₁ fun _ => by
    rw [w₁.exits]
    exact cons_ne_nil _ _
  have v₂ := hk st₁ st₂ w₁.scope.inv h₂
  obtain ⟨st₃, h₃⟩ := lowerUntil_total cond (st.nextId + 1) st.nextId v₂.scope.inv
  have wx₃ := lowerUntil_waiting (wx.of_scope v₂.scope) h₃
  obtain ⟨st₄, h₄⟩ := wx₃.popLoopExit.exists_start (by simpa using lowerUntil_current h₃)
  exact ⟨st₄, by simp only [lowerRepeat, bind_eq_ok]; exact ⟨st₁, h₁, st₂, h₂, st₃, h₃, h₄⟩⟩

theorem lowerFor_total {var : String} {varTy : TypeId} {start stop : HirExpr}
    {step : Option HirExpr} {direction : ForDirection} (hk : body.Sound) (ht : body.Total true) :
    (lowerFor var varTy start stop step direction body).Total inLoop := by
  intro st hinv hopen _
  obtain ⟨st₁, h₁⟩ := forEntry_total var varTy start stop direction hinv hopen
  obtain ⟨hopen₁, wlatch, wx⟩ := forEntry_after hinv h₁
  obtain ⟨w₁, _⟩ := forEntry_within hinv h₁
  obtain ⟨st₂, h₂⟩ := ht st₁ w₁.scope.inv hopen₁ fun _ => by
    rw [w₁.exits]
    exact cons_ne_nil _ _
  have v₂ := hk st₁ st₂ w₁.scope.inv h₂
  obtain ⟨st₃, h₃⟩ := v₂.scope.inv.exists_sealIfOpen (.goto (st.nextId + 2))
  have hpop : ∀ {i : Nat} {h : Option Nat}, st₁.Waiting i h → st₃.popLoopExit.Waiting i h :=
    fun w => ((w.of_scope v₂.scope).sealIfOpen h₃).popLoopExit
  obtain ⟨st₄, h₄⟩ := forLatch_total var varTy step direction st.nextId (hpop wlatch)
    (by simpa using CfgBuilder.sealIfOpen_current h₃)
  obtain ⟨wx₄, hc₄⟩ := forLatch_waiting (hpop wx) (by omega) h₄
  obtain ⟨st₅, h₅⟩ := wx₄.exists_start hc₄
  exact ⟨st₅, by
    simp only [lowerFor, bind_eq_ok]
    exact ⟨st₁, h₁, st₂, h₂, st₃, h₃, st₄, h₄, h₅⟩⟩

theorem lowerExit_opens : Lowering.Opens lowerExit false := by
  intro st st' _ _ hs
  unfold lowerExit at hs
  split at hs
  · cases hs
  · exact CfgBuilder.isOpen_eq_false_iff.mpr (CfgBuilder.sealBlock_current hs)

theorem lowerExit_total : Lowering.Total lowerExit true := by
  intro st hinv hopen hloop
  unfold lowerExit
  split
  · rename_i hx
    exact absurd hx (hloop rfl)
  · exact hinv.exists_seal hopen _

end Loops

/-! ## Switches -/

section Switch

variable {expr : HirExpr} {arms : List Arm} {elseBody : Option Lowering}

/-- All blocks of a switch wait after its dispatch. -/
theorem switchEntry_after (hinv : st.Inv) (hs : switchEntry expr arms st = .ok st') :
    st'.current = none ∧ ∀ i, st.nextId ≤ i → i < st.nextId + (2 + arms.length) →
      st'.Waiting i st.handlerStack.head? :=
  ⟨CfgBuilder.sealBlock_current hs,
    fun _ hlo hhi => (hinv.waiting_newBlocks hlo hhi).sealBlock hs⟩

theorem switchEntry_reaches (hinv : st.Inv) (hs : switchEntry expr arms st = .ok st') :
    ¬ st'.Reaches st.nextId := by
  rw [CfgBuilder.reaches_sealBlock hs, CfgBuilder.reaches_newBlocks]
  rintro (h | h)
  · exact hinv.not_reaches h
  · simp only [Terminator.successors, mem_append, mem_map, mem_singleton] at h
    rcases h with ⟨arm, harm, he⟩ | he
    · rw [← map_uncurry_zip_eq_zipWith, mem_map] at harm
      obtain ⟨⟨i, a⟩, hia, rfl⟩ := harm
      obtain ⟨hlo, _, _⟩ := mem_range'_zip hia
      have : i = st.nextId := he
      omega
    · omega

/-- The arms of a switch are numbered by the blocks they are placed in. -/
theorem switchArms_sound {n : Nat} (st : CfgBuilder) (harms : ∀ a ∈ arms, a.body.Sound)
    (hn : st.nextId ≤ n) :
    ∀ a ∈ (List.range' n arms.length).zip arms, a.2.body.Sound ∧ st.nextId ≤ a.1 := by
  intro a ha
  obtain ⟨hlo, _, hmem⟩ := mem_range'_zip ha
  exact ⟨harms a.2 hmem, by omega⟩

theorem total_ok (inLoop : Bool) : Lowering.Total .ok inLoop := fun st _ _ _ => ⟨st, rfl⟩

theorem opens_getD {oe : Bool} (hoe : ∀ k ∈ elseBody, Lowering.Opens k oe)
    (hnone : elseBody = none → oe = true) : Lowering.Opens (elseBody.getD .ok) oe := by
  cases elseBody with
  | none =>
    intro st st' _ ho hs
    cases hs
    rw [ho, hnone rfl]
  | some k => exact hoe k rfl

theorem total_getD {inLoop : Bool} (hte : ∀ k ∈ elseBody, Lowering.Total k inLoop) :
    Lowering.Total (elseBody.getD .ok) inLoop := by
  cases elseBody with
  | none => exact total_ok inLoop
  | some k => exact hte k rfl

/-- Facts about list elements carry over to the numbered list. -/
theorem forall₂_zip_range' {α β : Type} {R : α → β → Prop} {as : List α} {bs : List β}
    (h : List.Forall₂ R as bs) (n : Nat) :
    List.Forall₂ (fun a b => R a.2 b) ((List.range' n as.length).zip as) bs := by
  induction h generalizing n with
  | nil => exact .nil
  | cons hab _ ih =>
    rw [length_cons, range'_succ, zip_cons_cons]
    exact .cons hab (ih (n + 1))

/-- The merge and the default block of a switch wait while its arms are lowered. -/
theorem switch_waiting {st₁ st₂ : CfgBuilder} {i : Nat} (hinv : st.Inv)
    (harms : ∀ a ∈ arms, a.body.Sound) (h₁ : switchEntry expr arms st = .ok st₁)
    (h₂ : lowerArms st.nextId ((List.range' (st.nextId + 2) arms.length).zip arms) st₁ = .ok st₂)
    (hi : i < 2) : st₂.Waiting (st.nextId + i) st.handlerStack.head? := by
  obtain ⟨w₁, _⟩ := switchEntry_within hinv h₁
  refine lowerArms_waiting w₁.scope (switchArms_sound st harms (by omega))
    (Or.inl ⟨le_rfl, by omega⟩) ((switchEntry_after hinv h₁).2 _ (by omega) (by omega)) ?_ h₂
  intro a ha
  have := mem_range'_zip ha
  omega

theorem lowerSwitch_opens {os : List Bool} {oe : Bool} (harms : ∀ a ∈ arms, a.body.Sound)
    (helse : ∀ k ∈ elseBody, Lowering.Sound k)
    (hos : List.Forall₂ (fun a o => Lowering.Opens a.body o) arms os)
    (hoe : ∀ k ∈ elseBody, Lowering.Opens k oe) (hnone : elseBody = none → oe = true) :
    (lowerSwitch expr arms elseBody).Opens (os.any id || oe) := by
  intro st st' hinv _ hs
  simp only [lowerSwitch, bind_eq_ok] at hs
  obtain ⟨st₁, h₁, st₂, h₂, st₃, h₃, h₄⟩ := hs
  obtain ⟨w₁, hlen⟩ := switchEntry_within hinv h₁
  have hsound := switchArms_sound st harms (n := st.nextId + 2) (by omega)
  have hm : st.nextId ≤ st.nextId ∧ st.nextId < st₁.nextId := ⟨le_rfl, by omega⟩
  have v₂ := lowerArms_within w₁.scope hsound h₂ (Or.inl hm)
  have hx := hinv.not_exit
  rw [Bool.eq_iff_iff, startIfReached_isOpen (lowerArm_current h₃) h₄,
    lowerArm_reaches v₂.scope (sound_getD helse) (opens_getD hoe hnone) h₃ (by omega)
      (Nat.lt_of_lt_of_le hm.2 v₂.le) (by rw [v₂.exits, w₁.exits]; exact hx),
    lowerArms_reaches w₁.scope hsound (forall₂_zip_range' hos _) hm (by rw [w₁.exits]; exact hx)
      h₂]
  simp [switchEntry_reaches hinv h₁]

theorem lowerSwitch_total {inLoop : Bool} (harms : ∀ a ∈ arms, a.body.Sound)
    (helse : ∀ k ∈ elseBody, Lowering.Sound k) (hts : ∀ a ∈ arms, a.body.Total inLoop)
    (hte : ∀ k ∈ elseBody, Lowering.Total k inLoop) :
    (lowerSwitch expr arms elseBody).Total inLoop := by
  intro st hinv hopen hloop
  obtain ⟨c, ss, hd, ha⟩ := hinv.exists_at hopen
  obtain ⟨st₁, h₁⟩ : ∃ st₁, switchEntry expr arms st = .ok st₁ :=
    (ha.newBlocks (2 + arms.length)).exists_seal _
  obtain ⟨hc₁, hw₁⟩ := switchEntry_after hinv h₁
  obtain ⟨w₁, hlen⟩ := switchEntry_within hinv h₁
  have hsound := switchArms_sound st harms (n := st.nextId + 2) (by omega)
  have hm : Scope.Allowed st st₁ st.nextId := Or.inl ⟨le_rfl, by omega⟩
  have hzip := fun a (ha : a ∈ (List.range' (st.nextId + 2) arms.length).zip arms) =>
    mem_range'_zip ha
  obtain ⟨st₂, h₂⟩ := lowerArms_total st.handlerStack.head? inLoop w₁.scope hsound
    (fun a ha => hts a.2 (hzip a ha).2.2)
    (fun a ha => hw₁ a.1 (by have := hzip a ha; omega) (by have := hzip a ha; omega))
    (by rw [map_fst_zip (by simp)]; exact nodup_range') hc₁ hm
    (by rw [w₁.exits]; exact hloop)
  have v₂ := lowerArms_within w₁.scope hsound h₂ hm
  have hwait : ∀ i, i < 2 → st₂.Waiting (st.nextId + i) st.handlerStack.head? :=
    fun i hi => switch_waiting hinv harms h₁ h₂ hi
  obtain ⟨st₃, h₃⟩ := lowerArm_total [] st.nextId v₂.scope
    (sound_getD helse) (total_getD hte) (hwait 1 (by omega)) (lowerArms_current hc₁ h₂)
    (by omega) (by rw [v₂.exits, w₁.exits]; exact hloop)
  have wm := lowerArm_waiting v₂.scope (sound_getD helse) (hwait 0 (by omega)) (by omega) h₃
    (by omega)
  obtain ⟨st₄, h₄⟩ := startIfReached_total wm (lowerArm_current h₃)
  exact ⟨st₄, by simp only [lowerSwitch, bind_eq_ok]; exact ⟨st₁, h₁, st₂, h₂, st₃, h₃, h₄⟩⟩

end Switch

/-! ## `TRY` and `LOCK` -/

/-- Only the last clause may be a catch-all. -/
def catchAllLast : List (Option SymbolId) → Bool
  | [] => true
  | exc :: rest => (exc.isSome || rest.isEmpty) && catchAllLast rest

section Dispatch

variable {reraise : Nat} {clauses : List (Nat × Option SymbolId)}

theorem lowerDispatch_waiting {id : Nat} {h : Option Nat} (w : st.Waiting id h)
    (hs : lowerDispatch reraise clauses st = .ok st') : st'.Waiting id h := by
  induction clauses generalizing st with
  | nil =>
    cases hs
    exact w
  | cons c rest ih =>
    obtain ⟨t, st₁, -, -, h₁, h₂⟩ | ⟨e, st₁, st₂, -, -, h₁, h₂, h₃⟩ := lowerDispatch_cons hs
    · exact ih (w.sealBlock h₁) h₂
    · exact ih (((w.alloc none).sealBlock h₁).startBlock h₂ w.lt.ne') h₃

/-- The tests can be lowered if a catch-all is the last clause. -/
theorem lowerDispatch_total {c : Nat} {ss : List HirStmt} {h : Option Nat} (reraise : Nat)
    (clauses : List (Nat × Option SymbolId)) (a : st.At c ss h)
    (hlast : catchAllLast (clauses.map Prod.snd) = true) :
    ∃ st', lowerDispatch reraise clauses st = .ok st' := by
  induction clauses generalizing st c ss h with
  | nil => exact ⟨st, rfl⟩
  | cons cl rest ih =>
    obtain ⟨handler, exc⟩ := cl
    simp only [map_cons, catchAllLast, Bool.and_eq_true, Bool.or_eq_true,
      List.isEmpty_iff, map_eq_nil_iff] at hlast
    cases exc with
    | none =>
      obtain rfl : rest = [] := by simpa using hlast.1
      obtain ⟨st₁, h₁⟩ := a.exists_seal (.goto handler)
      exact ⟨st₁, by simp only [lowerDispatch, bind_eq_ok]; exact ⟨st₁, h₁, rfl⟩⟩
    | some exc =>
      unfold lowerDispatch
      split
      · rename_i hrest
        obtain rfl : rest = [] := by simpa using hrest
        obtain ⟨st₁, h₁⟩ := a.exists_seal (.branch (exceptionCond exc) handler reraise)
        exact ⟨st₁, by simp only [lowerDispatch, bind_eq_ok]; exact ⟨st₁, h₁, rfl⟩⟩
      · obtain ⟨st₁, h₁⟩ := (a.alloc none).exists_seal
          (.branch (exceptionCond exc) handler st.nextId)
        have w := (a.waiting_alloc none).sealBlock h₁
        obtain ⟨st₂, h₂⟩ := w.exists_start (CfgBuilder.sealBlock_current h₁)
        obtain ⟨st₃, h₃⟩ := ih (w.at_start h₂) hlast.2
        exact ⟨st₃, by simp only [bind_eq_ok]; exact ⟨st₁, h₁, st₂, h₂, h₃⟩⟩

theorem lowerDispatch_nil_of_closed (hc : st.current = none)
    (hs : lowerDispatch reraise clauses st = .ok st') : clauses = [] := by
  cases clauses with
  | nil => rfl
  | cons c rest =>
    exfalso
    obtain ⟨t, st₁, -, -, h₁, -⟩ | ⟨e, st₁, st₂, -, -, h₁, -⟩ := lowerDispatch_cons hs
    all_goals
      obtain ⟨i, _, hi, _⟩ := CfgBuilder.sealBlock_eq_ok.mp h₁
      cases hc.symm.trans hi

/-- A catch-all seals the dispatch, so a clause after it cannot be lowered. -/
theorem lowerDispatch_catchAllLast (hs : lowerDispatch reraise clauses st = .ok st') :
    catchAllLast (clauses.map Prod.snd) = true := by
  induction clauses generalizing st with
  | nil => rfl
  | cons c rest ih =>
    simp only [map_cons, catchAllLast, Bool.and_eq_true, Bool.or_eq_true,
      List.isEmpty_iff, map_eq_nil_iff]
    obtain ⟨t, st₁, -, -, h₁, h₂⟩ | ⟨e, st₁, st₂, hsome, -, h₁, h₂, h₃⟩ := lowerDispatch_cons hs
    · exact ⟨Or.inr (lowerDispatch_nil_of_closed (CfgBuilder.sealBlock_current h₁) h₂), ih h₂⟩
    · exact ⟨Or.inl (Option.isSome_iff_ne_none.mpr hsome), ih h₃⟩

theorem lowerDispatch_current (hne : clauses ≠ [])
    (hs : lowerDispatch reraise clauses st = .ok st') : st'.current = none := by
  induction clauses generalizing st with
  | nil => exact absurd rfl hne
  | cons c rest ih =>
    obtain ⟨t, st₁, -, -, h₁, h₂⟩ | ⟨e, st₁, st₂, -, hrest, h₁, h₂, h₃⟩ := lowerDispatch_cons hs
    · have hc := CfgBuilder.sealBlock_current h₁
      obtain rfl := lowerDispatch_nil_of_closed hc h₂
      cases h₂
      exact hc
    · exact ih hrest h₃

/-- The tests reach the handlers, each other and the re-raise, but no other block. -/
theorem lowerDispatch_reaches {m : Nat} (hm : m < st.nextId) (hre : m ≠ reraise)
    (hcl : ∀ c ∈ clauses, m ≠ c.1) (hs : lowerDispatch reraise clauses st = .ok st') :
    st'.Reaches m ↔ st.Reaches m := by
  induction clauses generalizing st with
  | nil =>
    cases hs
    exact Iff.rfl
  | cons c rest ih =>
    obtain ⟨handler, exc⟩ := c
    rw [forall_mem_cons] at hcl
    obtain ⟨t, st₁, ht, -, h₁, h₂⟩ | ⟨e, st₁, st₂, -, -, h₁, h₂, h₃⟩ := lowerDispatch_cons hs
    · rw [ih (by rw [CfgBuilder.sealBlock_nextId h₁]; exact hm) hcl.2 h₂,
        CfgBuilder.reaches_sealBlock h₁]
      obtain rfl | ⟨e, rfl⟩ := ht <;> simp [Terminator.successors, hcl.1, hre]
    · have hlt : m < st₂.nextId := by
        rw [CfgBuilder.startBlock_nextId h₂, CfgBuilder.sealBlock_nextId h₁]
        simp
        omega
      rw [ih hlt hcl.2 h₃, CfgBuilder.reaches_startBlock h₂, CfgBuilder.reaches_sealBlock h₁,
        CfgBuilder.newBlockNoHandler_eq, CfgBuilder.reaches_alloc]
      simp [Terminator.successors, hcl.1, hm.ne]

end Dispatch

section Catch

variable {catchBlock finallyNormal : Nat} {exceptions : List (Option SymbolId)}
  {clauses : List Clause} {finallyBody : Option (List HirStmt)}

/-- The handler blocks and the re-raise block wait after the dispatch. -/
theorem catchEntry_after (h : Scope st₀ st) (hcatch : st₀.nextId ≤ catchBlock)
    (hs : catchEntry catchBlock exceptions st = .ok st') {i : Nat} (hlo : st.nextId ≤ i)
    (hhi : i < st.nextId + (1 + exceptions.length)) : st'.Waiting i none := by
  simp only [catchEntry, bind_eq_ok] at hs
  obtain ⟨st₁, h₁, h₂⟩ := hs
  have hlen := CfgBuilder.startBlock_nextId h₁
  have hinv₁ := (Within.startBlock h h₁ hcatch).scope.inv
  exact lowerDispatch_waiting
    (hinv₁.waiting_newBlocksNoHandler (by omega) (by omega)) h₂

variable {hd : Option Nat}

theorem catchEntry_waiting {id : Nat} (w : st.Waiting id hd)
    (hne : catchBlock ≠ id) (hs : catchEntry catchBlock exceptions st = .ok st') :
    st'.Waiting id hd := by
  simp only [catchEntry, bind_eq_ok] at hs
  obtain ⟨st₁, h₁, h₂⟩ := hs
  exact lowerDispatch_waiting ((w.startBlock h₁ hne).newBlocksNoHandler _) h₂

theorem catchEntry_current (hne : exceptions ≠ [])
    (hs : catchEntry catchBlock exceptions st = .ok st') : st'.current = none := by
  simp only [catchEntry, bind_eq_ok] at hs
  obtain ⟨st₁, _, h₂⟩ := hs
  refine lowerDispatch_current ?_ h₂
  intro hnil
  have := congrArg List.length hnil
  simp at this
  exact hne this

theorem catchEntry_reaches {m : Nat} (hm : m < st.nextId)
    (hs : catchEntry catchBlock exceptions st = .ok st') : st'.Reaches m ↔ st.Reaches m := by
  simp only [catchEntry, bind_eq_ok] at hs
  obtain ⟨st₁, h₁, h₂⟩ := hs
  have hlen := CfgBuilder.startBlock_nextId h₁
  rw [lowerDispatch_reaches (by simp; omega) (by omega) ?_ h₂,
    CfgBuilder.reaches_newBlocksNoHandler, CfgBuilder.reaches_startBlock h₁]
  intro c hc
  have := mem_range'_zip hc
  omega

theorem catchEntry_catchAllLast (hs : catchEntry catchBlock exceptions st = .ok st') :
    catchAllLast exceptions = true := by
  simp only [catchEntry, bind_eq_ok] at hs
  obtain ⟨st₁, _, h₂⟩ := hs
  simpa [map_snd_zip] using lowerDispatch_catchAllLast h₂

theorem catchEntry_total (w : st.Waiting catchBlock hd)
    (hc : st.current = none) (hlast : catchAllLast exceptions = true) :
    ∃ st', catchEntry catchBlock exceptions st = .ok st' := by
  obtain ⟨st₁, h₁⟩ := w.exists_start hc
  obtain ⟨st₂, h₂⟩ := lowerDispatch_total st.nextId
    ((List.range' (st.nextId + 1) exceptions.length).zip exceptions)
    ((w.at_start h₁).newBlocksNoHandler (1 + exceptions.length))
    (by simpa [map_snd_zip] using hlast)
  exact ⟨st₂, by simp only [catchEntry, bind_eq_ok]; exact ⟨st₁, h₁, h₂⟩⟩

theorem lowerReraise_total {block : Nat}
    (finallyBody : Option (List HirStmt)) (w : st.Waiting block hd)
    (hc : st.current = none) : ∃ st', lowerReraise block finallyBody st = .ok st' := by
  obtain ⟨st₁, h₁⟩ := w.exists_start hc
  obtain ⟨st₂, h₂⟩ := ((w.at_start h₁).pushStmts (finallyBody.getD [])).exists_seal (.raise none)
  refine ⟨st₂, ?_⟩
  simp only [lowerReraise, armEntry, bind_eq_ok, pure_eq_ok]
  exact ⟨_, ⟨st₁, h₁, rfl⟩, h₂⟩

theorem lowerReraise_after {block : Nat} (hs : lowerReraise block finallyBody st = .ok st') :
    st'.current = none ∧ (∀ m, st'.Reaches m ↔ st.Reaches m) ∧
      ∀ id hd, block ≠ id → st.Waiting id hd → st'.Waiting id hd := by
  simp only [lowerReraise, bind_eq_ok] at hs
  obtain ⟨st₁, h₁, h₂⟩ := hs
  refine ⟨CfgBuilder.sealBlock_current h₂, fun m => ?_, fun id hd hne w => ?_⟩
  · rw [CfgBuilder.reaches_sealBlock h₂, armEntry_reaches h₁]
    simp [Terminator.successors]
  · exact (armEntry_waiting w hne h₁).sealBlock h₂

/-- The handler bodies of a `TRY` as numbered arms. -/
def handlerArms (n : Nat) (clauses : List Clause) : List (Nat × Arm) :=
  (List.range' n clauses.length).zip (clauses.map fun c => ⟨[], [], c.body⟩)

theorem mem_handlerArms {n : Nat} {a : Nat × Arm} (ha : a ∈ handlerArms n clauses) :
    n ≤ a.1 ∧ a.1 < n + clauses.length ∧ ∃ c ∈ clauses, a.2.body = c.body := by
  obtain ⟨hlo, hhi, hmem⟩ := mem_range'_zip ha
  obtain ⟨c, hc, he⟩ := mem_map.mp hmem
  exact ⟨hlo, hhi, c, hc, by rw [← he]⟩

theorem handlerArms_sound {m n : Nat} (hk : ∀ c ∈ clauses, c.body.Sound) (hle : m ≤ n) :
    ∀ a ∈ handlerArms n clauses, a.2.body.Sound ∧ m ≤ a.1 := by
  intro a ha
  obtain ⟨hlo, _, c, hc, he⟩ := mem_handlerArms ha
  exact ⟨by rw [he]; exact hk c hc, Nat.le_trans hle hlo⟩

/-- What the catch side does to the blocks allocated before it. -/
theorem lowerCatch_after (h : Scope st₀ st) (hk : ∀ c ∈ clauses, c.body.Sound)
    (hs : lowerCatch catchBlock finallyNormal clauses finallyBody st = .ok st')
    (hcatch : st₀.nextId ≤ catchBlock) (hfin : Scope.Allowed st₀ st finallyNormal) :
    st'.current = none ∧ ∀ id hd, catchBlock ≠ id → st.Waiting id hd → st'.Waiting id hd := by
  unfold lowerCatch at hs
  split at hs
  · obtain ⟨hc, _, hw⟩ := lowerReraise_after hs
    exact ⟨hc, hw⟩
  · simp only [bind_eq_ok] at hs
    obtain ⟨st₁, h₁, st₂, h₂, h₃⟩ := hs
    obtain ⟨hc, _, hw⟩ := lowerReraise_after h₃
    refine ⟨hc, fun id hd hne w => hw id hd w.lt.ne' ?_⟩
    have w₁ := catchEntry_within h h₁ hcatch
    have hle := h.nextId_le
    refine lowerArms_waiting w₁.scope (handlerArms_sound hk (Nat.le_succ_of_le hle))
      (hfin.mono w₁.le) (catchEntry_waiting w hne h₁) (fun a ha => ?_) h₂
    have := (mem_handlerArms ha).1
    have := w.lt
    omega

/-- The catch side reaches the normal continuation exactly when a handler completes. -/
theorem lowerCatch_reaches {os : List Bool} (h : Scope st₀ st) (hk : ∀ c ∈ clauses, c.body.Sound)
    (hos : List.Forall₂ (fun c o => Lowering.Opens c.body o) clauses os)
    (hs : lowerCatch catchBlock finallyNormal clauses finallyBody st = .ok st')
    (hcatch : st₀.nextId ≤ catchBlock)
    (hfin : st₀.nextId ≤ finallyNormal ∧ finallyNormal < st.nextId)
    (hx : st.loopExitStack.head? ≠ some finallyNormal) :
    st'.Reaches finallyNormal ↔ st.Reaches finallyNormal ∨ os.any id = true := by
  unfold lowerCatch at hs
  split at hs
  · rename_i hnil
    rw [(lowerReraise_after hs).2.1]
    rw [List.isEmpty_iff] at hnil
    subst hnil
    cases hos
    simp
  · simp only [bind_eq_ok] at hs
    obtain ⟨st₁, h₁, st₂, h₂, h₃⟩ := hs
    have w₁ := catchEntry_within h h₁ hcatch
    have hle := h.nextId_le
    have harms : List.Forall₂ (fun a o => Lowering.Opens a.2.body o)
        (handlerArms (st.nextId + 1) clauses) os := by
      have hmap : List.Forall₂ (fun (a : Arm) o => Lowering.Opens a.body o)
          (clauses.map fun c => ⟨[], [], c.body⟩) os := forall₂_map_left_iff.mpr hos
      have := forall₂_zip_range' hmap (st.nextId + 1)
      rwa [length_map] at this
    rw [(lowerReraise_after h₃).2.1,
      lowerArms_reaches w₁.scope (handlerArms_sound hk (Nat.le_succ_of_le h.nextId_le)) harms
        ⟨hfin.1, Nat.lt_of_lt_of_le hfin.2 w₁.le⟩ (by rw [w₁.exits]; exact hx) h₂,
      catchEntry_reaches hfin.2 h₁]

theorem lowerCatch_catchAllLast
    (hs : lowerCatch catchBlock finallyNormal clauses finallyBody st = .ok st') :
    catchAllLast (clauses.map Clause.exception) = true := by
  unfold lowerCatch at hs
  split at hs
  · rename_i hnil
    rw [List.isEmpty_iff] at hnil
    subst hnil
    rfl
  · simp only [bind_eq_ok] at hs
    obtain ⟨st₁, h₁, _⟩ := hs
    exact catchEntry_catchAllLast h₁

theorem lowerCatch_total {inLoop : Bool} (finallyBody : Option (List HirStmt)) (h : Scope st₀ st)
    (hk : ∀ c ∈ clauses, c.body.Sound) (ht : ∀ c ∈ clauses, c.body.Total inLoop)
    (w : st.Waiting catchBlock hd) (hc : st.current = none) (hcatch : st₀.nextId ≤ catchBlock)
    (hfin : Scope.Allowed st₀ st finallyNormal)
    (hlast : catchAllLast (clauses.map Clause.exception) = true)
    (hloop : inLoop = true → st.loopExitStack ≠ []) :
    ∃ st', lowerCatch catchBlock finallyNormal clauses finallyBody st = .ok st' := by
  unfold lowerCatch
  split
  · exact lowerReraise_total finallyBody w hc
  · rename_i hne
    have hne' : clauses.map Clause.exception ≠ [] := by simpa using hne
    obtain ⟨st₁, h₁⟩ := catchEntry_total w hc hlast
    have w₁ := catchEntry_within h h₁ hcatch
    have hle := h.nextId_le
    have hc₁ := catchEntry_current hne' h₁
    have hwait : ∀ i, st.nextId ≤ i → i < st.nextId + (1 + clauses.length) →
        st₁.Waiting i none :=
      fun i hlo hhi => catchEntry_after h hcatch h₁ hlo (by simpa using hhi)
    have hsound := handlerArms_sound hk (Nat.le_succ_of_le hle)
    obtain ⟨st₂, h₂⟩ : ∃ st₂, lowerArms finallyNormal (handlerArms (st.nextId + 1) clauses) st₁ =
        .ok st₂ := by
      refine lowerArms_total none inLoop w₁.scope hsound (fun a ha => ?_)
        (fun a ha => ?_) ?_ hc₁ (hfin.mono w₁.le) (by rw [w₁.exits]; exact hloop)
      · obtain ⟨_, _, c, hc, he⟩ := mem_handlerArms ha
        rw [he]
        exact ht c hc
      · obtain ⟨hlo, hhi, _⟩ := mem_handlerArms ha
        exact hwait a.1 (by omega) (by omega)
      · rw [handlerArms, map_fst_zip (by simp)]
        exact nodup_range'
    have wre := lowerArms_waiting w₁.scope hsound (hfin.mono w₁.le)
      (hwait st.nextId le_rfl (by omega))
      (fun a ha => by have := (mem_handlerArms ha).1; omega) h₂
    obtain ⟨st₃, h₃⟩ := lowerReraise_total finallyBody wre
      (lowerArms_current hc₁ h₂)
    exact ⟨st₃, by simp only [bind_eq_ok]; exact ⟨st₁, h₁, st₂, h₂, h₃⟩⟩

end Catch

section Try

variable {hasFinally : Bool} {body : Lowering} {clauses : List Clause}
  {finallyBody : Option (List HirStmt)}

/-- The blocks a `TRY` allocates before its body. -/
theorem tryEntry_alloc (hasFinally : Bool) (hinv : st.Inv) (hopen : st.isOpen = true) :
    ∃ s c ss hd, s = (if hasFinally then st.newBlock.newBlockNoHandler.newBlock
        else st.newBlock.newBlockNoHandler) ∧ s.At c ss hd ∧ s.current = st.current ∧
      st.nextId + 2 ≤ s.nextId ∧ s.Waiting st.nextId st.handlerStack.head? ∧
      s.Waiting (st.nextId + 1) none ∧
      s.Waiting (finallyTarget st.nextId hasFinally) st.handlerStack.head? := by
  obtain ⟨c, ss, hd, ha⟩ := hinv.exists_at hopen
  have w₀ := (hinv.waiting_alloc st.handlerStack.head?).alloc none
  have hinv₁ := (Scope.refl hinv).newBlock.inv
  have w₁ := hinv₁.waiting_alloc none
  rw [CfgBuilder.newBlock_nextId] at w₁
  have ha₁ := (ha.alloc st.handlerStack.head?).alloc none
  cases hasFinally with
  | false => exact ⟨_, c, ss, hd, rfl, ha₁, rfl, by simp, w₀, w₁, w₀⟩
  | true =>
    have hinv₂ := (Scope.refl hinv).newBlock.newBlockNoHandler.inv
    have w₂ := hinv₂.waiting_alloc st.handlerStack.head?
    rw [CfgBuilder.newBlockNoHandler_nextId, CfgBuilder.newBlock_nextId] at w₂
    exact ⟨_, c, ss, hd, rfl, ha₁.alloc _, rfl, by simp, w₀.alloc _, w₁.alloc _, w₂⟩

/-- The blocks allocated before a `TRY` body wait while it is lowered. -/
theorem tryEntry_after (hinv : st.Inv) (hopen : st.isOpen = true)
    (hs : tryEntry hasFinally st = .ok st') :
    st'.isOpen = true ∧ st'.Waiting st.nextId st.handlerStack.head? ∧
      st'.Waiting (st.nextId + 1) none ∧
      st'.Waiting (finallyTarget st.nextId hasFinally) st.handlerStack.head? := by
  obtain ⟨s, c, ss, hd, he, _, _, _, hm, hcatch, hfin⟩ :=
    tryEntry_alloc hasFinally hinv hopen
  simp only [tryEntry, bind_eq_ok, ← he] at hs
  obtain ⟨st₁, h₁, h₂⟩ := hs
  have hkeep : ∀ {i : Nat} {h : Option Nat}, s.Waiting i h → st'.Waiting i h := by
    intro i h w
    have w' : (s.pushHandler (st.nextId + 1)).Waiting i h := ⟨w.block, w.idle⟩
    exact ((w'.alloc _).sealIfOpen h₁).startBlock h₂ w'.lt.ne'
  exact ⟨CfgBuilder.startBlock_isOpen h₂, hkeep hm, hkeep hcatch, hkeep hfin⟩

theorem tryEntry_total (hasFinally : Bool) (hinv : st.Inv) (hopen : st.isOpen = true) :
    ∃ st', tryEntry hasFinally st = .ok st' := by
  obtain ⟨s, c, ss, hd, he, ha, _⟩ := tryEntry_alloc hasFinally hinv hopen
  have ha' : (s.pushHandler (st.nextId + 1)).At c ss hd := ⟨ha.current, ha.block⟩
  have w := ha'.waiting_alloc (s.pushHandler (st.nextId + 1)).handlerStack.head?
  have ha₁ : (s.pushHandler (st.nextId + 1)).newBlock.At c ss hd := ha'.alloc _
  obtain ⟨st₁, h₁⟩ : ∃ st₁, (s.pushHandler (st.nextId + 1)).newBlock.sealIfOpen
      (.goto (s.pushHandler (st.nextId + 1)).nextId) = .ok st₁ := by
    unfold CfgBuilder.sealIfOpen
    rw [if_pos ha₁.isOpen]
    exact ha₁.exists_seal _
  obtain ⟨st₂, h₂⟩ := (w.sealIfOpen h₁).exists_start (CfgBuilder.sealIfOpen_current h₁)
  exact ⟨st₂, by simp only [tryEntry, bind_eq_ok, ← he]; exact ⟨st₁, h₁, h₂⟩⟩

theorem tryEntry_reaches (hinv : st.Inv) (hopen : st.isOpen = true)
    (hs : tryEntry hasFinally st = .ok st') :
    ¬ st'.Reaches st.nextId := by
  obtain ⟨s, c, ss, hd, he, _, _, hle, _⟩ := tryEntry_alloc hasFinally hinv hopen
  have hs₀ : ¬ s.Reaches st.nextId := by
    rw [he]
    split <;>
    · simp only [CfgBuilder.newBlock_eq, CfgBuilder.newBlockNoHandler_eq, CfgBuilder.reaches_alloc]
      exact hinv.not_reaches
  simp only [tryEntry, bind_eq_ok, ← he] at hs
  obtain ⟨st₁, h₁, h₂⟩ := hs
  rw [CfgBuilder.reaches_startBlock h₂, CfgBuilder.reaches_sealIfOpen h₁, CfgBuilder.newBlock_eq,
    CfgBuilder.reaches_alloc]
  rintro (h | ⟨_, h⟩)
  · exact hs₀ h
  · have : (s.pushHandler (st.nextId + 1)).nextId = s.nextId := rfl
    omega

variable {finallyNormal : Nat}

theorem lowerFinally_reaches {merge : Nat} (h : Scope st₀ st)
    (hs : lowerFinally finallyNormal merge finallyBody st = .ok st')
    (hfin : st₀.nextId ≤ finallyNormal) (hm : merge < st.nextId)
    (hx : st.loopExitStack.head? ≠ some merge) :
    st'.Reaches merge ↔ st.Reaches merge ∨ finallyBody.isSome = true := by
  cases finallyBody with
  | none =>
    cases hs
    simp
  | some ss =>
    have hok : Lowering.Opens .ok true := fun st st' _ ho hs => by
      cases hs
      exact ho
    rw [lowerArm_reaches h sound_ok hok hs hfin hm hx]
    simp

theorem lowerFinally_current {merge : Nat} (hc : st.current = none)
    (hs : lowerFinally finallyNormal merge finallyBody st = .ok st') : st'.current = none := by
  cases finallyBody with
  | none =>
    cases hs
    exact hc
  | some ss => exact lowerArm_current hs

theorem lowerTry_opens {o : Bool} {os : List Bool} (hk : body.Sound)
    (hclauses : ∀ c ∈ clauses, c.body.Sound) (ho : body.Opens o)
    (hos : List.Forall₂ (fun c o => Lowering.Opens c.body o) clauses os) :
    (lowerTry body clauses finallyBody).Opens (finallyBody.isSome || o || os.any id) := by
  intro st st' hinv hopen hs
  simp only [lowerTry, bind_eq_ok] at hs
  obtain ⟨st₁, h₁, st₂, h₂, st₃, h₃, st₄, h₄, st₅, h₅, h₆⟩ := hs
  obtain ⟨w₁, hle, w₂, hle₂, hfin⟩ := try_within hinv hk h₁ h₂
  obtain ⟨hopen₁, _⟩ := tryEntry_after hinv hopen h₁
  have v₃ := Within.sealIfOpen w₂.scope h₃ hfin
  have v₄ := v₃.trans (lowerCatch_within v₃.scope hclauses h₄ (by omega) (hfin.mono v₃.le))
  have hx := hinv.not_exit
  have hm₂ : st.nextId < st₂.popHandler.nextId := Nat.lt_of_lt_of_le (by omega) hle₂
  have hm₃ := Nat.lt_of_lt_of_le hm₂ v₃.le
  have hm₄ := Nat.lt_of_lt_of_le hm₂ v₄.le
  obtain ⟨hc₄, _⟩ := lowerCatch_after v₃.scope hclauses h₄ (by omega) (hfin.mono v₃.le)
  rw [Bool.eq_iff_iff, startIfReached_isOpen (lowerFinally_current hc₄ h₅) h₆,
    lowerFinally_reaches v₄.scope h₅ (le_finallyTarget _ _) hm₄
      (by rw [v₄.exits, w₂.exits]; exact hx)]
  cases finallyBody with
  | some ss => simp
  | none =>
    -- without a `FINALLY` the body and the handlers continue at the merge block
    have hbody : st₂.popHandler.Reaches st.nextId ↔ st₁.Reaches st.nextId :=
      (hk st₁ st₂ w₁.scope.inv h₂).scope.reaches (by omega) (by rw [w₁.exits]; exact hx)
    have ho₂ : st₂.popHandler.isOpen = o := ho st₁ st₂ w₁.scope.inv hopen₁ h₂
    have htarget : finallyTarget st.nextId (none : Option (List HirStmt)).isSome = st.nextId := rfl
    rw [htarget] at h₃ h₄
    rw [lowerCatch_reaches v₃.scope hclauses hos h₄ (by omega)
        ⟨le_rfl, hm₃⟩ (by rw [v₃.exits, w₂.exits]; exact hx),
      CfgBuilder.reaches_sealIfOpen h₃, hbody, ho₂]
    simp [tryEntry_reaches hinv hopen h₁]

theorem lowerFinally_total {hd : Option Nat} (merge : Nat) (h : Scope st₀ st)
    (w : finallyBody.isSome = true → st.Waiting finallyNormal hd) (hc : st.current = none)
    (hfin : st₀.nextId ≤ finallyNormal) :
    ∃ st', lowerFinally finallyNormal merge finallyBody st = .ok st' := by
  cases finallyBody with
  | none => exact ⟨st, rfl⟩
  | some ss =>
    exact lowerArm_total ss merge h sound_ok (total_ok false) (w rfl) hc hfin (by simp)

theorem lowerFinally_waiting {merge id : Nat} {hd : Option Nat} (h : Scope st₀ st)
    (w : st.Waiting id hd) (hne : finallyBody.isSome = true → finallyNormal ≠ id)
    (hs : lowerFinally finallyNormal merge finallyBody st = .ok st')
    (hfin : st₀.nextId ≤ finallyNormal) : st'.Waiting id hd := by
  cases finallyBody with
  | none =>
    cases hs
    exact w
  | some ss => exact lowerArm_waiting h sound_ok w (hne rfl) hs hfin

theorem lowerTry_total {inLoop : Bool} (hk : body.Sound)
    (hclauses : ∀ c ∈ clauses, c.body.Sound) (ht : body.Total inLoop)
    (hts : ∀ c ∈ clauses, c.body.Total inLoop)
    (hlast : catchAllLast (clauses.map Clause.exception) = true) :
    (lowerTry body clauses finallyBody).Total inLoop := by
  intro st hinv hopen hloop
  obtain ⟨st₁, h₁⟩ := tryEntry_total finallyBody.isSome hinv hopen
  obtain ⟨hopen₁, wm₁, wc₁, wf₁⟩ := tryEntry_after hinv hopen h₁
  obtain ⟨w₁, hle, hlt⟩ := tryEntry_within hinv h₁
  obtain ⟨st₂, h₂⟩ := ht st₁ w₁.scope.inv hopen₁ (by rw [w₁.exits]; exact hloop)
  have hsc := (hk st₁ st₂ w₁.scope.inv h₂).scope
  have v₂ := Within.body w₁.scope hk h₂
  have hle₂ := v₂.le
  have hfin : Scope.Allowed st st₂ (finallyTarget st.nextId finallyBody.isSome) :=
    Or.inl ⟨le_finallyTarget _ _, by omega⟩
  have w₂ := Within.popHandler (Scope.refl hinv) (w₁.trans v₂)
  obtain ⟨st₃, h₃⟩ := w₂.scope.inv.exists_sealIfOpen
    (.goto (finallyTarget st.nextId finallyBody.isSome))
  have v₃ := Within.sealIfOpen w₂.scope h₃ hfin
  have hwait : ∀ {i : Nat} {h : Option Nat}, st₁.Waiting i h → st₃.Waiting i h := by
    intro i h w
    have w' : st₂.popHandler.Waiting i h := ⟨(w.of_scope hsc).block, (w.of_scope hsc).idle⟩
    exact w'.sealIfOpen h₃
  obtain ⟨st₄, h₄⟩ := lowerCatch_total finallyBody v₃.scope hclauses hts
    (hwait wc₁) (CfgBuilder.sealIfOpen_current h₃) (by omega) (hfin.mono v₃.le) hlast
    (by rw [v₃.exits, w₂.exits]; exact hloop)
  have v₄ := v₃.trans (lowerCatch_within v₃.scope hclauses h₄ (by omega) (hfin.mono v₃.le))
  obtain ⟨hc₄, hw₄⟩ := lowerCatch_after v₃.scope hclauses h₄ (by omega) (hfin.mono v₃.le)
  have hne : finallyBody.isSome = true →
      finallyTarget st.nextId finallyBody.isSome = st.nextId + 2 := by
    intro he
    simp [finallyTarget, he]
  obtain ⟨st₅, h₅⟩ := lowerFinally_total st.nextId v₄.scope
    (fun he => hw₄ _ _ (by rw [hne he]; omega) (hwait wf₁)) hc₄ (le_finallyTarget _ _)
  have wm₅ := lowerFinally_waiting v₄.scope (hw₄ _ _ (by omega) (hwait wm₁))
    (fun he => by rw [hne he]; omega) h₅ (le_finallyTarget _ _)
  obtain ⟨st₆, h₆⟩ := startIfReached_total wm₅ (lowerFinally_current hc₄ h₅)
  exact ⟨st₆, by
    simp only [lowerTry, bind_eq_ok]
    exact ⟨st₁, h₁, st₂, h₂, st₃, h₃, st₄, h₄, st₅, h₅, h₆⟩⟩

end Try

section Lock

variable {mutex : HirExpr} {loc : SourceLoc} {body : Lowering}

theorem lowerLock_opens {o : Bool} (ho : body.Opens o) : (lowerLock mutex loc body).Opens o := by
  intro st st' hinv hopen hs
  simp only [lowerLock, bind_eq_ok, pure_eq_ok] at hs
  obtain ⟨st₁, h₁, rfl⟩ := hs
  have hinv' := ((Scope.refl hinv).pushStmt (lockCall mutex loc)).inv
  have ho₁ := ho _ st₁ hinv' (by simpa [CfgBuilder.isOpen] using hopen) h₁
  split
  · simpa [CfgBuilder.isOpen] using ho₁
  · exact ho₁

theorem lowerLock_total {inLoop : Bool} (ht : body.Total inLoop) :
    (lowerLock mutex loc body).Total inLoop := by
  intro st hinv hopen hloop
  have hinv' := ((Scope.refl hinv).pushStmt (lockCall mutex loc)).inv
  obtain ⟨st₁, h₁⟩ := ht _ hinv' (by simpa [CfgBuilder.isOpen] using hopen)
    (by simpa using hloop)
  exact ⟨_, by simp only [lowerLock, bind_eq_ok, pure_eq_ok]; exact ⟨st₁, h₁, rfl⟩⟩

end Lock

end Mx

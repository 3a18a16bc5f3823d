import Mx.Cfg.LoweringScope

/-!
# Blocks that wait and blocks that are reached

A construct allocates its blocks first and starts them later. `Waiting` says that
a block is still as it was allocated; it survives everything but its own start.
`Reaches` is the fact behind `any_path_reaches`: some sealed block leads there.
-/

namespace Mx

open Mx.Core List

namespace CfgBuilder

/-- Block `id` is allocated, empty and open, and nothing is being written to it. -/
structure Waiting (st : CfgBuilder) (id : Nat) (h : Option Nat) : Prop where
  block : st.blocks[id]? = some ⟨id, [], none, h⟩
  idle : st.current ≠ some id

/-- Block `id` is current and holds the statements `ss` so far. -/
structure At (st : CfgBuilder) (id : Nat) (ss : List HirStmt) (h : Option Nat) : Prop where
  current : st.current = some id
  block : st.blocks[id]? = some ⟨id, ss, none, h⟩

namespace Waiting

variable {st st' : CfgBuilder} {id : Nat} {h : Option Nat}

theorem lt (w : st.Waiting id h) : id < st.nextId := (List.getElem?_eq_some_iff.mp w.block).1

theorem of_scope (w : st.Waiting id h) (hs : Scope st st') : st'.Waiting id h := by
  refine ⟨hs.unchanged w.block w.idle, fun hc => ?_⟩
  rcases hs.current id hc with hc | hc
  · exact w.idle hc
  · exact absurd w.lt (Nat.not_lt.mpr hc)

theorem sealBlock (w : st.Waiting id h) {t : Terminator} (hs : st.sealBlock t = .ok st') :
    st'.Waiting id h := by
  obtain ⟨i, b, hi, _, _, rfl⟩ := sealBlock_eq_ok.mp hs
  refine ⟨?_, by simp⟩
  have hne : i ≠ id := fun he => w.idle (he ▸ hi)
  rw [← w.block]
  exact getElem?_set_ne hne

theorem sealIfOpen (w : st.Waiting id h) {t : Terminator} (hs : st.sealIfOpen t = .ok st') :
    st'.Waiting id h := by
  unfold CfgBuilder.sealIfOpen at hs
  split at hs
  · exact w.sealBlock hs
  · cases hs
    exact w

theorem startBlock (w : st.Waiting id h) {j : Nat} (hs : st.startBlock j = .ok st')
    (hne : j ≠ id) : st'.Waiting id h := by
  obtain ⟨_, b, _, _, rfl⟩ := startBlock_eq_ok.mp hs
  exact ⟨w.block, by simpa using hne⟩

theorem pushStmts (w : st.Waiting id h) (ss : List HirStmt) : (st.pushStmts ss).Waiting id h := by
  refine ⟨?_, by simpa using w.idle⟩
  rw [pushStmts_getElem?_ne w.idle, w.block]

theorem alloc (w : st.Waiting id h) (hd : Option Nat) : (st.alloc hd).Waiting id h := by
  refine ⟨?_, w.idle⟩
  rw [alloc_getElem?_of_lt _ _ w.lt, w.block]

theorem newBlocks (w : st.Waiting id h) (n : Nat) : (st.newBlocks n).Waiting id h := by
  induction n generalizing st with
  | zero => exact w
  | succ n ih => exact ih (w.alloc _)

theorem newBlocksNoHandler (w : st.Waiting id h) (n : Nat) :
    (st.newBlocksNoHandler n).Waiting id h := by
  induction n generalizing st with
  | zero => exact w
  | succ n ih => exact ih (w.alloc _)

end Waiting

variable {st st' : CfgBuilder}

theorem Inv.current_lt (hinv : st.Inv) {i : Nat} (hi : st.current = some i) : i < st.nextId := by
  obtain ⟨b, hb, _⟩ := hinv.current i hi
  exact (List.getElem?_eq_some_iff.mp hb).1

/-- A block waits from its allocation on. -/
theorem Inv.waiting_alloc (hinv : st.Inv) (hd : Option Nat) :
    (st.alloc hd).Waiting st.nextId hd :=
  ⟨alloc_getElem?_nextId st hd, fun hc => absurd (hinv.current_lt hc) (Nat.lt_irrefl _)⟩

theorem Inv.waiting_newBlocks (hinv : st.Inv) {n i : Nat} (hlo : st.nextId ≤ i)
    (hhi : i < st.nextId + n) : (st.newBlocks n).Waiting i st.handlerStack.head? := by
  induction n generalizing st with
  | zero => omega
  | succ n ih =>
    by_cases hi : i = st.nextId
    · subst i
      exact (hinv.waiting_alloc _).newBlocks n
    · exact ih (Scope.refl hinv).newBlock.inv (by simp; omega) (by simp; omega)

theorem Inv.waiting_newBlocksNoHandler (hinv : st.Inv) {n i : Nat} (hlo : st.nextId ≤ i)
    (hhi : i < st.nextId + n) : (st.newBlocksNoHandler n).Waiting i none := by
  induction n generalizing st with
  | zero => omega
  | succ n ih =>
    by_cases hi : i = st.nextId
    · subst i
      exact (hinv.waiting_alloc _).newBlocksNoHandler n
    · exact ih (Scope.refl hinv).newBlockNoHandler.inv (by simp; omega) (by simp; omega)

/-- A waiting block can be started. -/
theorem Waiting.exists_start {id : Nat} {h : Option Nat} (w : st.Waiting id h)
    (hc : st.current = none) : ∃ st', st.startBlock id = .ok st' :=
  ⟨_, startBlock_eq_ok.mpr ⟨hc, _, w.block, rfl, rfl⟩⟩

/-- A waiting block is empty when it is started. -/
theorem Waiting.at_start {id : Nat} {h : Option Nat} (w : st.Waiting id h)
    (hs : st.startBlock id = .ok st') : st'.At id [] h := by
  obtain ⟨_, b, hb, _, rfl⟩ := startBlock_eq_ok.mp hs
  exact ⟨rfl, w.block⟩

/-! ## The current block -/

theorem isOpen_iff : st.isOpen = true ↔ ∃ i, st.current = some i := by
  simp [isOpen, Option.isSome_iff_exists]

theorem isOpen_eq_false_iff : st.isOpen = false ↔ st.current = none := by
  simp [isOpen]

theorem startBlock_isOpen {id : Nat} (hs : st.startBlock id = .ok st') : st'.isOpen = true := by
  obtain ⟨_, b, _, _, rfl⟩ := startBlock_eq_ok.mp hs
  rfl

theorem sealBlock_current {t : Terminator} (hs : st.sealBlock t = .ok st') :
    st'.current = none := by
  obtain ⟨i, b, _, _, _, rfl⟩ := sealBlock_eq_ok.mp hs
  rfl

theorem sealIfOpen_current {t : Terminator} (hs : st.sealIfOpen t = .ok st') :
    st'.current = none := by
  unfold sealIfOpen at hs
  split at hs
  · exact sealBlock_current hs
  · rename_i ho
    cases hs
    simpa [isOpen] using ho

/-- An open builder can seal its block. -/
theorem Inv.exists_seal (hinv : st.Inv) (ho : st.isOpen = true) (t : Terminator) :
    ∃ st', st.sealBlock t = .ok st' := by
  obtain ⟨i, hi⟩ := isOpen_iff.mp ho
  obtain ⟨b, hb, ht⟩ := hinv.current i hi
  exact ⟨_, sealBlock_eq_ok.mpr ⟨i, b, hi, hb, ht, rfl⟩⟩

theorem Inv.exists_sealIfOpen (hinv : st.Inv) (t : Terminator) :
    ∃ st', st.sealIfOpen t = .ok st' := by
  unfold CfgBuilder.sealIfOpen
  split
  · rename_i ho
    exact hinv.exists_seal ho t
  · exact ⟨st, rfl⟩

@[simp] theorem pushStmts_isOpen (ss : List HirStmt) : (st.pushStmts ss).isOpen = st.isOpen := by
  simp [isOpen]

/-- An open builder is at a block. -/
theorem Inv.exists_at (hinv : st.Inv) (ho : st.isOpen = true) : ∃ c ss h, st.At c ss h := by
  obtain ⟨c, hc⟩ := isOpen_iff.mp ho
  obtain ⟨⟨id, ss, t, h⟩, hb, ht⟩ := hinv.current c hc
  obtain rfl : id = c := hinv.ids c _ hb
  obtain rfl : t = none := ht
  exact ⟨id, ss, h, hc, hb⟩

namespace At

variable {c : Nat} {ss : List HirStmt} {h : Option Nat}

theorem lt (a : st.At c ss h) : c < st.nextId := (List.getElem?_eq_some_iff.mp a.block).1

theorem isOpen (a : st.At c ss h) : st.isOpen = true := isOpen_iff.mpr ⟨c, a.current⟩

theorem alloc (a : st.At c ss h) (hd : Option Nat) : (st.alloc hd).At c ss h := by
  refine ⟨a.current, ?_⟩
  rw [alloc_getElem?_of_lt _ _ a.lt, a.block]

theorem newBlocks (a : st.At c ss h) (n : Nat) : (st.newBlocks n).At c ss h := by
  induction n generalizing st with
  | zero => exact a
  | succ n ih => exact ih (a.alloc _)

theorem newBlocksNoHandler (a : st.At c ss h) (n : Nat) : (st.newBlocksNoHandler n).At c ss h := by
  induction n generalizing st with
  | zero => exact a
  | succ n ih => exact ih (a.alloc _)

theorem pushStmts (a : st.At c ss h) (ss' : List HirStmt) :
    (st.pushStmts ss').At c (ss ++ ss') h :=
  ⟨by simpa using a.current, pushStmts_getElem?_current a.current a.block⟩

theorem exists_seal (a : st.At c ss h) (t : Terminator) : ∃ st', st.sealBlock t = .ok st' :=
  ⟨_, sealBlock_eq_ok.mpr ⟨c, _, a.current, a.block, rfl, rfl⟩⟩

/-- A block allocated while another one is current waits. -/
theorem waiting_alloc (a : st.At c ss h) (hd : Option Nat) :
    (st.alloc hd).Waiting st.nextId hd := by
  refine ⟨alloc_getElem?_nextId st hd, fun hc => ?_⟩
  have he : st.current = some st.nextId := hc
  rw [a.current] at he
  cases he
  exact absurd a.lt (Nat.lt_irrefl _)

/-- Sealing fixes the current block. -/
theorem sealed (a : st.At c ss h) {t : Terminator} (hs : st.sealBlock t = .ok st') :
    st'.blocks[c]? = some ⟨c, ss, some t, h⟩ := by
  obtain ⟨i, b, hi, hb, _, rfl⟩ := sealBlock_eq_ok.mp hs
  rw [a.current] at hi
  cases hi
  rw [a.block] at hb
  cases hb
  exact getElem?_set_self a.lt

end At

/-! ## Reached blocks -/

/-- Some sealed block leads to `m`. -/
def Reaches (st : CfgBuilder) (m : Nat) : Prop :=
  ∃ (i : Nat) (b : BasicBlock), st.blocks[i]? = some b ∧ m ∈ b.successors

theorem anyPathReaches_iff {m : Nat} : st.anyPathReaches m = true ↔ st.Reaches m := by
  simp only [anyPathReaches, any_eq_true, decide_eq_true_iff]
  constructor
  · rintro ⟨b, hb, hm⟩
    obtain ⟨i, hi⟩ := getElem?_of_mem hb
    exact ⟨i, b, hi, hm⟩
  · rintro ⟨i, b, hi, hm⟩
    exact ⟨b, mem_of_getElem? hi, hm⟩

theorem reaches_sealBlock {t : Terminator} {m : Nat} (hs : st.sealBlock t = .ok st') :
    st'.Reaches m ↔ st.Reaches m ∨ m ∈ t.successors := by
  obtain ⟨i, b, _, hb, ht, rfl⟩ := sealBlock_eq_ok.mp hs
  have hlt : i < st.blocks.length := (List.getElem?_eq_some_iff.mp hb).1
  constructor
  · rintro ⟨j, c, hc, hm⟩
    by_cases hij : i = j
    · subst j
      rw [getElem?_set_self hlt] at hc
      cases hc
      exact Or.inr hm
    · rw [getElem?_set_ne hij] at hc
      exact Or.inl ⟨j, c, hc, hm⟩
  · rintro (⟨j, c, hc, hm⟩ | hm)
    · have hij : i ≠ j := by
        rintro rfl
        rw [hb] at hc
        cases hc
        simp [BasicBlock.successors, ht] at hm
      exact ⟨j, c, by rw [← hc]; exact getElem?_set_ne hij, hm⟩
    · exact ⟨i, _, getElem?_set_self hlt, hm⟩

theorem reaches_startBlock {id m : Nat} (hs : st.startBlock id = .ok st') :
    st'.Reaches m ↔ st.Reaches m := by
  obtain ⟨_, b, _, _, rfl⟩ := startBlock_eq_ok.mp hs
  exact Iff.rfl

theorem reaches_sealIfOpen {t m : Nat} (hs : st.sealIfOpen (.goto t) = .ok st') :
    st'.Reaches m ↔ st.Reaches m ∨ (st.isOpen = true ∧ m = t) := by
  unfold sealIfOpen at hs
  split at hs
  · rename_i ho
    rw [reaches_sealBlock hs]
    simp [Terminator.successors, ho]
  · rename_i ho
    cases hs
    simp [ho]

end CfgBuilder

/-- A construct does not reach older blocks other than the enclosing loop's exit. -/
theorem Scope.reaches {st st' : CfgBuilder} {m : Nat} (hs : Scope st st') (hm : m < st.nextId)
    (hx : st.loopExitStack.head? ≠ some m) : st'.Reaches m ↔ st.Reaches m := by
  constructor
  · rintro ⟨i, b, hb, hmem⟩
    rcases hs.targets i b hb with ⟨b₀, hb₀, he⟩ | ht
    · exact ⟨i, b₀, hb₀, by rw [he]; exact hmem⟩
    · rcases ht m hmem with hle | he
      · exact absurd hm (Nat.not_lt.mpr hle)
      · exact absurd he hx
  · rintro ⟨i, b, hb, hmem⟩
    have hsome : b.terminator.isSome := by
      cases ht : b.terminator with
      | none => simp [BasicBlock.successors, ht] at hmem
      | some t => rfl
    exact ⟨i, b, hs.grows.sealed hb hsome, hmem⟩

/-! ## Conditions and arms -/

section Condition

variable {st st' : CfgBuilder} {e : HirExpr} {t f : Nat}

theorem lowerExprAsBranch_current (hs : lowerExprAsBranch e t f st = .ok st') :
    st'.current = none := by
  fun_induction lowerExprAsBranch e t f st generalizing st' with
  | case1 left right _ _ t f st ihl ihr | case2 left right _ _ t f st ihl ihr =>
    simp only [bind_eq_ok] at hs
    obtain ⟨st₁, _, st₂, _, h₃⟩ := hs
    exact ihr st₂ h₃
  | case3 inner _ _ t f st ih => exact ih hs
  | case4 e t f st _ _ _ => exact CfgBuilder.sealBlock_current hs

theorem lowerExprAsBranch_waiting {id : Nat} {h : Option Nat} (w : st.Waiting id h)
    (hs : lowerExprAsBranch e t f st = .ok st') : st'.Waiting id h := by
  fun_induction lowerExprAsBranch e t f st generalizing st' with
  | case1 left right _ _ t f st ihl ihr | case2 left right _ _ t f st ihl ihr =>
    simp only [bind_eq_ok] at hs
    obtain ⟨st₁, h₁, st₂, h₂, h₃⟩ := hs
    have w₁ := ihl (w.alloc _) h₁
    exact ihr st₂ (w₁.startBlock h₂ w.lt.ne') h₃
  | case3 inner _ _ t f st ih => exact ih w hs
  | case4 e t f st _ _ _ => exact w.sealBlock hs

/-- A condition can be lowered in every open builder. -/
theorem lowerExprAsBranch_total {c : Nat} {ss : List HirStmt} {h : Option Nat}
    (a : st.At c ss h) : ∃ st', lowerExprAsBranch e t f st = .ok st' := by
  fun_induction lowerExprAsBranch e t f st generalizing c ss h with
  | case1 left right _ _ t f st ihl ihr | case2 left right _ _ t f st ihl ihr =>
    obtain ⟨st₁, h₁⟩ := ihl (a.alloc _)
    have hw := a.waiting_alloc st.handlerStack.head?
    obtain ⟨st₂, h₂⟩ :=
      (lowerExprAsBranch_waiting hw h₁).exists_start (lowerExprAsBranch_current h₁)
    obtain ⟨st₃, h₃⟩ := ihr st₂ ((lowerExprAsBranch_waiting hw h₁).at_start h₂)
    exact ⟨st₃, by simp only [bind_eq_ok]; exact ⟨st₁, h₁, st₂, h₂, h₃⟩⟩
  | case3 inner _ _ t f st ih => exact ih a
  | case4 e t f st _ _ _ => exact a.exists_seal _

theorem CfgBuilder.reaches_alloc {m : Nat} (hd : Option Nat) :
    (st.alloc hd).Reaches m ↔ st.Reaches m := by
  constructor
  · rintro ⟨i, b, hb, hm⟩
    rw [CfgBuilder.alloc_blocks, getElem?_append] at hb
    split at hb
    · exact ⟨i, b, hb, hm⟩
    · have hb' := mem_of_getElem? hb
      rw [mem_singleton] at hb'
      subst hb'
      simp [BasicBlock.successors] at hm
  · rintro ⟨i, b, hb, hm⟩
    exact ⟨i, b, by rw [st.alloc_getElem?_of_lt hd (List.getElem?_eq_some_iff.mp hb).1, hb], hm⟩

theorem CfgBuilder.reaches_newBlocks {n m : Nat} :
    (st.newBlocks n).Reaches m ↔ st.Reaches m := by
  induction n generalizing st with
  | zero => exact Iff.rfl
  | succ n ih => rw [newBlocks, ih, newBlock_eq, reaches_alloc]

theorem CfgBuilder.reaches_newBlocksNoHandler {n m : Nat} :
    (st.newBlocksNoHandler n).Reaches m ↔ st.Reaches m := by
  induction n generalizing st with
  | zero => exact Iff.rfl
  | succ n ih => rw [newBlocksNoHandler, ih, newBlockNoHandler_eq, reaches_alloc]

theorem lowerExprAsBranch_grows (hs : lowerExprAsBranch e t f st = .ok st') :
    Grows st.blocks st'.blocks := by
  fun_induction lowerExprAsBranch e t f st generalizing st' with
  | case1 left right _ _ t f st ihl ihr | case2 left right _ _ t f st ihl ihr =>
    simp only [bind_eq_ok] at hs
    obtain ⟨st₁, h₁, st₂, h₂, h₃⟩ := hs
    exact (((grows_append _ _).trans (ihl h₁)).trans
      (CfgBuilder.startBlock_grows h₂)).trans (ihr st₂ h₃)
  | case3 inner _ _ t f st ih => exact ih hs
  | case4 e t f st _ _ _ => exact CfgBuilder.sealBlock_grows hs

/-- The right operand of a condition is tested after the left one. -/
theorem reaches_rhs {t₁ f₁ t₂ f₂ m : Nat} {st₁ st₂ : CfgBuilder}
    (hm : m < st.nextId) (h₂ : st₁.startBlock st.nextId = .ok st₂)
    (hgrows : Grows st.newBlock.blocks st₁.blocks)
    (hl : st₁.Reaches m ↔ st.newBlock.Reaches m ∨ m = t₁ ∨ m = f₁)
    (hr : m < st₂.nextId → (st'.Reaches m ↔ st₂.Reaches m ∨ m = t₂ ∨ m = f₂)) :
    st'.Reaches m ↔ (st.Reaches m ∨ m = t₁ ∨ m = f₁) ∨ m = t₂ ∨ m = f₂ := by
  have hle : st.nextId + 1 ≤ st₂.nextId := by
    rw [CfgBuilder.startBlock_nextId h₂]
    simpa [CfgBuilder.nextId, CfgBuilder.newBlock_eq] using hgrows.length_le
  rw [hr (by omega), CfgBuilder.reaches_startBlock h₂, hl, CfgBuilder.newBlock_eq,
    CfgBuilder.reaches_alloc]

theorem CfgBuilder.reaches_pushStmts {ss : List HirStmt} {m : Nat} :
    (st.pushStmts ss).Reaches m ↔ st.Reaches m := by
  have hpush : ∀ (st : CfgBuilder) (s : HirStmt), (st.pushStmt s).Reaches m ↔ st.Reaches m := by
    intro st s
    unfold pushStmt Reaches
    split
    · rename_i i _
      refine exists_congr fun j => ?_
      simp only [getElem?_modify]
      cases st.blocks[j]? with
      | none => simp
      | some b => by_cases hij : i = j <;> simp [hij, BasicBlock.successors]
    · exact Iff.rfl
  induction ss generalizing st with
  | nil => exact Iff.rfl
  | cons s ss ih => exact ih.trans (hpush st s)

/-- A condition reaches both of its targets and no other older block. -/
theorem lowerExprAsBranch_reaches {m : Nat} (hm : m < st.nextId)
    (hs : lowerExprAsBranch e t f st = .ok st') :
    st'.Reaches m ↔ st.Reaches m ∨ m = t ∨ m = f := by
  fun_induction lowerExprAsBranch e t f st generalizing st' with
  | case1 left right _ _ t f st ihl ihr | case2 left right _ _ t f st ihl ihr =>
    simp only [bind_eq_ok] at hs
    obtain ⟨st₁, h₁, st₂, h₂, h₃⟩ := hs
    have hne : m ≠ st.nextId := hm.ne
    have hlt : m < st.newBlock.nextId := by simp; omega
    have := reaches_rhs hm h₂ (lowerExprAsBranch_grows h₁)
      (ihl hlt h₁) (fun h => ihr st₂ h h₃)
    tauto
  | case3 inner _ _ t f st ih =>
    rw [ih hm hs]
    tauto
  | case4 e t f st _ _ _ =>
    rw [CfgBuilder.reaches_sealBlock hs]
    simp [Terminator.successors]

end Condition

/-- The lowering leaves an open builder open, or closed, as `o` says. -/
def Lowering.Opens (k : Lowering) (o : Bool) : Prop :=
  ∀ st st', st.Inv → st.isOpen = true → k st = .ok st' → st'.isOpen = o

/-- The lowering succeeds in every open builder that is in a loop if `inLoop`. -/
def Lowering.Total (k : Lowering) (inLoop : Bool) : Prop :=
  ∀ st, st.Inv → st.isOpen = true → (inLoop = true → st.loopExitStack ≠ []) →
    ∃ st', k st = .ok st'

section Arm

variable {st₀ st st' : CfgBuilder} {start next : Nat} {before : List HirStmt} {body : Lowering}

theorem armEntry_isOpen (hs : armEntry start before st = .ok st') : st'.isOpen = true := by
  simp only [armEntry, bind_eq_ok, pure_eq_ok] at hs
  obtain ⟨st₁, h₁, rfl⟩ := hs
  simpa using CfgBuilder.startBlock_isOpen h₁

theorem armEntry_waiting {id : Nat} {h : Option Nat} (w : st.Waiting id h) (hne : start ≠ id)
    (hs : armEntry start before st = .ok st') : st'.Waiting id h := by
  simp only [armEntry, bind_eq_ok, pure_eq_ok] at hs
  obtain ⟨st₁, h₁, rfl⟩ := hs
  exact (w.startBlock h₁ hne).pushStmts before

theorem armEntry_reaches {m : Nat} (hs : armEntry start before st = .ok st') :
    st'.Reaches m ↔ st.Reaches m := by
  simp only [armEntry, bind_eq_ok, pure_eq_ok] at hs
  obtain ⟨st₁, h₁, rfl⟩ := hs
  rw [CfgBuilder.reaches_pushStmts, CfgBuilder.reaches_startBlock h₁]

theorem lowerArm_current (hs : lowerArm start before body next st = .ok st') :
    st'.current = none := by
  simp only [lowerArm, bind_eq_ok] at hs
  obtain ⟨st₁, _, st₂, _, h₃⟩ := hs
  exact CfgBuilder.sealIfOpen_current h₃

theorem lowerArm_waiting {id : Nat} {hd : Option Nat} (h : Scope st₀ st) (hk : body.Sound)
    (w : st.Waiting id hd) (hne : start ≠ id)
    (hs : lowerArm start before body next st = .ok st') (hstart : st₀.nextId ≤ start) :
    st'.Waiting id hd := by
  simp only [lowerArm, bind_eq_ok] at hs
  obtain ⟨st₁, h₁, st₂, h₂, h₃⟩ := hs
  have w₁ := armEntry_waiting w hne h₁
  have w₂ := w₁.of_scope (hk st₁ st₂ (armEntry_within h h₁ hstart).scope.inv h₂).scope
  exact w₂.sealIfOpen h₃

/-- An arm reaches the block it continues at exactly when its body completes. -/
theorem lowerArm_reaches {m : Nat} {o : Bool} (h : Scope st₀ st) (hk : body.Sound)
    (ho : body.Opens o) (hs : lowerArm start before body next st = .ok st')
    (hstart : st₀.nextId ≤ start) (hm : m < st.nextId)
    (hx : st.loopExitStack.head? ≠ some m) :
    st'.Reaches m ↔ st.Reaches m ∨ (o = true ∧ m = next) := by
  simp only [lowerArm, bind_eq_ok] at hs
  obtain ⟨st₁, h₁, st₂, h₂, h₃⟩ := hs
  have w₁ := armEntry_within h h₁ hstart
  have hsc := (hk st₁ st₂ w₁.scope.inv h₂).scope
  rw [CfgBuilder.reaches_sealIfOpen h₃, ho st₁ st₂ w₁.scope.inv (armEntry_isOpen h₁) h₂,
    hsc.reaches (Nat.lt_of_lt_of_le hm w₁.le) (by rw [w₁.exits]; exact hx), armEntry_reaches h₁]

/-- An arm can be lowered if its block waits and its body can. -/
theorem lowerArm_total {hd : Option Nat} {inLoop : Bool} (before : List HirStmt) (next : Nat)
    (h : Scope st₀ st) (hk : body.Sound)
    (ht : body.Total inLoop) (w : st.Waiting start hd) (hc : st.current = none)
    (hstart : st₀.nextId ≤ start) (hloop : inLoop = true → st.loopExitStack ≠ []) :
    ∃ st', lowerArm start before body next st = .ok st' := by
  obtain ⟨s, hstartB⟩ := w.exists_start hc
  have h₁ : armEntry start before st = .ok (s.pushStmts before) := by
    simp only [armEntry, bind_eq_ok, pure_eq_ok]
    exact ⟨s, hstartB, rfl⟩
  have w₁ := armEntry_within h h₁ hstart
  obtain ⟨st₂, h₂⟩ := ht _ w₁.scope.inv (armEntry_isOpen h₁) (by rw [w₁.exits]; exact hloop)
  obtain ⟨st₃, h₃⟩ := (Within.body w₁.scope hk h₂).scope.inv.exists_sealIfOpen (.goto next)
  exact ⟨st₃, by simp only [lowerArm, bind_eq_ok]; exact ⟨_, h₁, _, h₂, h₃⟩⟩

end Arm

/-! ## Tests and lists of arms -/

section Test

variable {st st' : CfgBuilder} {cond : HirExpr} {merge : Nat} {more : Bool}

theorem lowerTest_waiting {id : Nat} {h : Option Nat} (w : st.Waiting id h)
    (hs : lowerTest cond merge more st = .ok st') : st'.Waiting id h :=
  lowerExprAsBranch_waiting (w.newBlocks _) hs

/-- The blocks of a test wait for its body and for what follows. -/
theorem lowerTest_waiting_new (hinv : st.Inv) (hs : lowerTest cond merge more st = .ok st') :
    st'.Waiting st.nextId st.handlerStack.head? ∧
      (more = true → st'.Waiting (falseTarget merge more st) st.handlerStack.head?) := by
  refine ⟨lowerExprAsBranch_waiting (hinv.waiting_newBlocks le_rfl ?_) hs, ?_⟩
  · split <;> omega
  · rintro rfl
    exact lowerExprAsBranch_waiting (hinv.waiting_newBlocks (by simp [falseTarget])
      (by simp [falseTarget])) hs

theorem lowerTest_reaches (hmerge : merge < st.nextId)
    (hs : lowerTest cond merge more st = .ok st') :
    st'.Reaches merge ↔ st.Reaches merge ∨ more = false := by
  have hlt : merge < (st.newBlocks (if more then 2 else 1)).nextId := by simp; omega
  rw [lowerExprAsBranch_reaches hlt hs, CfgBuilder.reaches_newBlocks]
  cases more with
  | false => simp [falseTarget]
  | true =>
    have h₁ : merge ≠ st.nextId := hmerge.ne
    have h₂ : merge ≠ st.nextId + 1 := by omega
    simp [falseTarget, h₁, h₂]

theorem lowerTest_total {c : Nat} {ss : List HirStmt} {h : Option Nat} (cond : HirExpr)
    (merge : Nat) (more : Bool) (a : st.At c ss h) :
    ∃ st', lowerTest cond merge more st = .ok st' :=
  lowerExprAsBranch_total (a.newBlocks _)

end Test

section Arms

variable {st₀ st st' : CfgBuilder} {merge : Nat} {arms : List (Nat × Arm)}

theorem lowerArms_current (hc : st.current = none) (hs : lowerArms merge arms st = .ok st') :
    st'.current = none := by
  induction arms generalizing st with
  | nil =>
    cases hs
    exact hc
  | cons a rest ih =>
    obtain ⟨block, arm⟩ := a
    simp only [lowerArms, bind_eq_ok] at hs
    obtain ⟨st₁, h₁, h₂⟩ := hs
    exact ih (lowerArm_current h₁) h₂

theorem lowerArms_waiting {id : Nat} {hd : Option Nat} (h : Scope st₀ st)
    (hk : ∀ a ∈ arms, a.2.body.Sound ∧ st₀.nextId ≤ a.1)
    (hmerge : Scope.Allowed st₀ st merge) (w : st.Waiting id hd)
    (hne : ∀ a ∈ arms, a.1 ≠ id) (hs : lowerArms merge arms st = .ok st') :
    st'.Waiting id hd := by
  induction arms generalizing st with
  | nil =>
    cases hs
    exact w
  | cons a rest ih =>
    obtain ⟨block, arm⟩ := a
    rw [forall_mem_cons] at hk hne
    simp only [lowerArms, bind_eq_ok] at hs
    obtain ⟨st₁, h₁, h₂⟩ := hs
    have v := lowerArm_within h hk.1.1 h₁ hk.1.2 hmerge
    exact ih v.scope hk.2 (hmerge.mono v.le)
      (lowerArm_waiting h hk.1.1 w hne.1 h₁ hk.1.2) hne.2 h₂

/-- A list of arms reaches the merge block exactly when some arm completes. -/
theorem lowerArms_reaches {os : List Bool} (h : Scope st₀ st)
    (hk : ∀ a ∈ arms, a.2.body.Sound ∧ st₀.nextId ≤ a.1)
    (ho : List.Forall₂ (fun a o => Lowering.Opens a.2.body o) arms os)
    (hmerge : st₀.nextId ≤ merge ∧ merge < st.nextId)
    (hx : st.loopExitStack.head? ≠ some merge) (hs : lowerArms merge arms st = .ok st') :
    st'.Reaches merge ↔ st.Reaches merge ∨ os.any id = true := by
  induction ho generalizing st with
  | nil =>
    cases hs
    simp
  | @cons a o rest os hao _ ih =>
    obtain ⟨block, arm⟩ := a
    rw [forall_mem_cons] at hk
    simp only [lowerArms, bind_eq_ok] at hs
    obtain ⟨st₁, h₁, h₂⟩ := hs
    have v := lowerArm_within h hk.1.1 h₁ hk.1.2 (Or.inl hmerge)
    rw [ih v.scope hk.2 ⟨hmerge.1, Nat.lt_of_lt_of_le hmerge.2 v.le⟩ (by rw [v.exits]; exact hx)
      h₂, lowerArm_reaches h hk.1.1 hao h₁ hk.1.2 hmerge.2 hx]
    simp [or_assoc]

/-- Arms whose blocks wait can be lowered one after the other. -/
theorem lowerArms_total (hd : Option Nat) (inLoop : Bool) (h : Scope st₀ st)
    (hk : ∀ a ∈ arms, a.2.body.Sound ∧ st₀.nextId ≤ a.1)
    (ht : ∀ a ∈ arms, a.2.body.Total inLoop) (w : ∀ a ∈ arms, st.Waiting a.1 hd)
    (hnodup : (arms.map Prod.fst).Nodup) (hc : st.current = none)
    (hmerge : Scope.Allowed st₀ st merge) (hloop : inLoop = true → st.loopExitStack ≠ []) :
    ∃ st', lowerArms merge arms st = .ok st' := by
  induction arms generalizing st with
  | nil => exact ⟨st, rfl⟩
  | cons a rest ih =>
    obtain ⟨block, arm⟩ := a
    rw [forall_mem_cons] at hk ht w
    rw [map_cons, nodup_cons] at hnodup
    obtain ⟨st₁, h₁⟩ := lowerArm_total arm.binding merge h hk.1.1 ht.1 w.1 hc hk.1.2 hloop
    have v := lowerArm_within h hk.1.1 h₁ hk.1.2 hmerge
    have w₁ : ∀ a ∈ rest, st₁.Waiting a.1 hd := by
      intro a ha
      refine lowerArm_waiting h hk.1.1 (w.2 a ha) ?_ h₁ hk.1.2
      intro he
      exact hnodup.1 (mem_map.mpr ⟨a, ha, he.symm⟩)
    obtain ⟨st₂, h₂⟩ := ih v.scope hk.2 ht.2 w₁ hnodup.2 (lowerArm_current h₁)
      (hmerge.mono v.le) (by rw [v.exits]; exact hloop)
    exact ⟨st₂, by simp only [lowerArms, bind_eq_ok]; exact ⟨st₁, h₁, h₂⟩⟩

end Arms

end Mx

import Mx.Cfg.Buildable
import Mx.Hir.Structured

/-!
# The graph follows the structured meaning

`Tracks` relates a point of a graph to a computation of the structured semantics: the
graph shows the same events, and it arrives at a point that depends on how the
computation ends. One lemma for each way of building computations, then one for each
construct of the builder.
-/

namespace Mx

open Mx.Core List

variable {σ V α β : Type}

/-! ## Computations followed by a graph -/

/-- From the configuration `c` the blocks `G` follow a computation with the result `r`.
A completed computation leads to a point in `K`, an `EXIT` to a point in `X`, and a
computation that runs out leads the graph through at least `n` steps. -/
def Tracks (I : Interp σ V) (G : List BasicBlock) (n : Nat) (c : Config σ)
    (K : α → Nat → Nat → Prop) (X : Nat → Nat → Prop) : List Event × Outcome σ V α → Prop
  | (es, .done a s) => ∃ m b i, K a b i ∧ (machine I G).Steps m c es ⟨b, i, s⟩
  | (es, .exit s) => ∃ m b i, X b i ∧ (machine I G).Steps m c es ⟨b, i, s⟩
  | (es, .returned v s) => (machine I G).Halts c es (.returned v s)
  | (es, .raised s) => (machine I G).Halts c es (.raised s)
  | (es, .timeout) => ∃ m c', n ≤ m ∧ (machine I G).Steps m c es c'
  | (_, .undefined) => False

section Tracks

variable {I : Interp σ V} {G : List BasicBlock} {m n : Nat} {c c' : Config σ}
  {K : α → Nat → Nat → Prop} {L : β → Nat → Nat → Prop} {X Y : Nat → Nat → Prop}
  {es : List Event}

theorem Tracks.pure {a : α} {b i : Nat} (h : K a b i) (s : σ) :
    Tracks I G n ⟨b, i, s⟩ K X ((Pure.pure a : Exec σ V α) s) :=
  ⟨0, b, i, h, Machine.steps_zero⟩

variable {r : List Event × Outcome σ V α}

/-- Steps taken before a computation count towards its bound. -/
theorem Tracks.after (hs : (machine I G).Steps m c es c')
    (h : Tracks I G n c' K X r) : Tracks I G (m + n) c K X (es ++ r.1, r.2) := by
  obtain ⟨es', o⟩ := r
  cases o with
  | done a s =>
    obtain ⟨k, b, i, hK, hk⟩ := h
    exact ⟨m + k, b, i, hK, hs.trans hk⟩
  | exit s =>
    obtain ⟨k, b, i, hX, hk⟩ := h
    exact ⟨m + k, b, i, hX, hs.trans hk⟩
  | returned v s => exact hs.halts h
  | raised s => exact hs.halts h
  | timeout =>
    obtain ⟨k, d, hle, hk⟩ := h
    exact ⟨m + k, d, by omega, hs.trans hk⟩
  | undefined => exact h

theorem Tracks.mono {K' : α → Nat → Nat → Prop}
    (h : Tracks I G n c K X r) (hle : m ≤ n) (hK : ∀ a b i, K a b i → K' a b i)
    (hX : ∀ b i, X b i → Y b i) : Tracks I G m c K' Y r := by
  obtain ⟨es, o⟩ := r
  cases o with
  | done a s =>
    obtain ⟨k, b, i, hk, hs⟩ := h
    exact ⟨k, b, i, hK a b i hk, hs⟩
  | exit s =>
    obtain ⟨k, b, i, hk, hs⟩ := h
    exact ⟨k, b, i, hX b i hk, hs⟩
  | returned v s | raised s | undefined => exact h
  | timeout =>
    obtain ⟨k, d, hk, hs⟩ := h
    exact ⟨k, d, by omega, hs⟩

theorem Tracks.le (h : Tracks I G n c K X r) (hle : m ≤ n) :
    Tracks I G m c K X r :=
  h.mono hle (fun _ _ _ hk => hk) fun _ _ hx => hx

/-- A silent first step. -/
theorem Tracks.silent
    (hs : (machine I G).step c = ([], .inl c')) (h : Tracks I G n c' K X r) :
    Tracks I G (n + 1) c K X r := by
  have h₁ := Tracks.after (Machine.steps_one hs) h
  rw [Nat.add_comm]
  exact h₁

theorem Tracks.bind {mm : Exec σ V α} {f : α → Exec σ V β} {s : σ} (h : Tracks I G n c K X (mm s))
    (hf : ∀ a b i s', K a b i → Tracks I G n ⟨b, i, s'⟩ L X (f a s')) :
    Tracks I G n c L X ((mm >>= f) s) := by
  change Tracks I G n c L X (Exec.bind mm f s)
  unfold Exec.bind
  rcases hm : mm s with ⟨es, o⟩
  rw [hm] at h
  cases o with
  | done a s' =>
    obtain ⟨k, b, i, hK, hk⟩ := h
    exact ((hf a b i s' hK).after hk).le (Nat.le_add_left n k)
  | exit s' | returned v s' | raised s' | timeout | undefined => exact h

/-- A completed computation goes on to a block by a silent step. -/
theorem Tracks.goto {K' : α → Nat → Nat → Prop} {t : Nat} (h : Tracks I G n c K X r)
    (hstep : ∀ a b i s, K a b i →
      (machine I G).step ⟨b, i, s⟩ = ([], .inl ⟨t, 0, s⟩) ∧ K' a t 0) :
    Tracks I G n c K' X r := by
  obtain ⟨es, o⟩ := r
  cases o with
  | done a s =>
    obtain ⟨k, b, i, hK, hk⟩ := h
    have hone := hk.trans (Machine.steps_one (hstep a b i s hK).1)
    rw [append_nil] at hone
    exact ⟨k + 1, t, 0, (hstep a b i s hK).2, hone⟩
  | exit s | returned v s | raised s | timeout | undefined => exact h

/-- An `EXIT` that ends a computation leads where completion leads. -/
theorem Tracks.catchExit {K : Unit → Nat → Nat → Prop} {mm : Exec σ V Unit} {s : σ}
    (h : Tracks I G n c K X (mm s)) (hX : ∀ b i, X b i → K () b i) :
    Tracks I G n c K Y (Exec.catchExit mm s) := by
  unfold Exec.catchExit
  rcases hm : mm s with ⟨es, o⟩
  rw [hm] at h
  cases o with
  | done a s' | returned v s' | raised s' | timeout | undefined => exact h
  | exit s' =>
    obtain ⟨k, b, i, hx, hk⟩ := h
    exact ⟨k, b, i, hX b i hx, hk⟩

end Tracks

/-! ## Points of a builder -/

/-- The points where the current block of a builder ends. -/
def AtEnd (st : CfgBuilder) : Unit → Nat → Nat → Prop :=
  fun _ b i => ∃ ss, st.At b ss none ∧ i = ss.length

/-- The start of a block that some sealed block leads to. -/
def Arrives (st : CfgBuilder) (t : Nat) : Unit → Nat → Nat → Prop :=
  fun _ b i => (b = t ∧ i = 0) ∧ st.Reaches t

/-- The start of the block that `EXIT` leads to, if `EXIT` is allowed. -/
def AtExit (exitOk : Bool) (st : CfgBuilder) : Nat → Nat → Prop :=
  fun b i => exitOk = true ∧ st.loopExitStack.head? = some b ∧ i = 0

theorem atExit_congr {exitOk : Bool} {st st' : CfgBuilder}
    (h : st'.loopExitStack = st.loopExitStack) : AtExit exitOk st' = AtExit exitOk st := by
  unfold AtExit
  rw [h]

variable {t : Nat}

theorem CfgBuilder.Reaches.mono {st st' : CfgBuilder} (h : st.Reaches t)
    (hg : Grows st.blocks st'.blocks) : st'.Reaches t := by
  obtain ⟨i, b, hb, ht⟩ := h
  have hsome : b.terminator.isSome := by
    by_contra hnone
    have hnone' : b.terminator = none := by simpa using hnone
    simp [BasicBlock.successors, hnone'] at ht
  exact ⟨i, b, hg.sealed hb hsome, ht⟩

/-- After a jump to the merge block of a construct, the builder continues there. -/
theorem Arrives.atEnd {st st' : CfgBuilder} {m b i : Nat} (h : Arrives st m () b i)
    (w : st.Waiting m none) (hs : st.startIfReached m = .ok st') : AtEnd st' () b i := by
  obtain ⟨⟨rfl, rfl⟩, hr⟩ := h
  rw [CfgBuilder.startIfReached, CfgBuilder.anyPathReaches_iff.mpr hr, if_pos rfl] at hs
  exact ⟨[], w.at_start hs, rfl⟩

section Steps

variable {I : Interp σ V} {st st' : CfgBuilder} {G : List BasicBlock} {c : Nat}
  {ss : List HirStmt} {n : Nat} {X : Nat → Nat → Prop}

/-- The end of a block that is sealed in the builder is a step of its terminator. -/
theorem step_sealed {h : Option Nat} {t : Terminator} (a : st.At c ss h)
    (hs : st.sealBlock t = .ok st') (hG : Grows st'.blocks G) (s : σ) :
    (machine I G).step ⟨c, ss.length, s⟩ = stepTerminator I h s t := by
  have hb := hG.sealed (a.sealed hs) rfl
  simp [machine, stepBlocks, hb]

theorem step_sealIfOpen {b i : Nat} (h : AtEnd st () b i)
    (hs : st.sealIfOpen (.goto t) = .ok st') (hG : Grows st'.blocks G) (s : σ) :
    (machine I G).step ⟨b, i, s⟩ = ([], .inl ⟨t, 0, s⟩) ∧ Arrives st' t () t 0 := by
  obtain ⟨ss, ha, rfl⟩ := h
  have hr := (CfgBuilder.reaches_sealIfOpen (m := t) hs).mpr (Or.inr ⟨ha.isOpen, rfl⟩)
  rw [CfgBuilder.sealIfOpen, ha.isOpen, if_pos rfl] at hs
  exact ⟨step_sealed ha hs hG s, ⟨rfl, rfl⟩, hr⟩

/-- Leaf statements that stand in a block are executed in order. -/
theorem execLeaves_tracks {b : BasicBlock} {before : List HirStmt} (leaves : List HirStmt)
    (hb : G[c]? = some b) (hh : b.handler = none) (hp : before ++ leaves <+: b.stmts) (s : σ) :
    Tracks I G n ⟨c, before.length, s⟩
      (fun _ d i => d = c ∧ i = (before ++ leaves).length) X (execLeaves I leaves s) := by
  induction leaves generalizing before s with
  | nil => exact Tracks.pure (by simp) s
  | cons stmt rest ih =>
    have hget : b.stmts[before.length]? = some stmt := by
      obtain ⟨tail, ht⟩ := hp
      simp [← ht]
    have hstep : (machine I G).step ⟨c, before.length, s⟩ =
        stepStmt I b ⟨c, before.length, s⟩ stmt := by
      simp [machine, stepBlocks, hb, hget]
    have hrest : before ++ [stmt] ++ rest <+: b.stmts := by simpa using hp
    have hih := ih hrest
    have hleaf : Tracks I G n ⟨c, before.length, s⟩
        (fun _ d i => d = c ∧ i = (before ++ [stmt]).length) X (execLeaf I stmt s) := by
      unfold execLeaf
      rw [stepStmt, hh] at hstep
      split at hstep
      · next s' he =>
        rw [he]
        exact ⟨1, c, _, ⟨rfl, rfl⟩, Machine.steps_one (by simpa using hstep)⟩
      · next s' he =>
        rw [he]
        exact Machine.halts_one hstep
    refine hleaf.bind ?_
    rintro _ d i s' ⟨rfl, rfl⟩
    simpa using hih s'

theorem pushStmts_tracks (a : st.At c ss none) (leaves : List HirStmt)
    (hG : Grows (st.pushStmts leaves).blocks G) (s : σ) :
    Tracks I G n ⟨c, ss.length, s⟩ (AtEnd (st.pushStmts leaves)) X (execLeaves I leaves s) := by
  have a' := a.pushStmts leaves
  obtain ⟨b, hb, hg⟩ := hG c _ a'.block
  refine (execLeaves_tracks leaves hb hg.handler hg.stmts s).mono (Nat.le_refl n) ?_
    fun _ _ hx => hx
  rintro _ d i ⟨rfl, rfl⟩
  exact ⟨_, a', rfl⟩

theorem execLeaves_singleton (stmt : HirStmt) : execLeaves I [stmt] = execLeaf I stmt := by
  funext s
  change Exec.bind (execLeaf I stmt) (fun _ => Exec.pure ()) s = _
  unfold Exec.bind
  rcases execLeaf I stmt s with ⟨es, o⟩
  cases o <;> simp [Exec.pure]

theorem bind_evalLeaf_ok {e : HirExpr} {s s' : σ} {v : V} (he : I.eval e s = .ok (v, s'))
    (f : V → Exec σ V β) :
    Exec.bind (evalLeaf I e) f s = ([Event.eval e] ++ (f v s').1, (f v s').2) := by
  simp only [Exec.bind, evalLeaf, he]

theorem bind_evalLeaf_error {e : HirExpr} {s s' : σ} (he : I.eval e s = .error s')
    (f : V → Exec σ V β) :
    Exec.bind (evalLeaf I e) f s = ([Event.eval e], .raised s') := by
  simp only [Exec.bind, evalLeaf, he]

/-- A leaf evaluation that ends a block and leads to another one. -/
theorem evalIn_tracks {K : β → Nat → Nat → Prop} {f : V → Exec σ V β} {e : HirExpr} {i : Nat}
    {s : σ} {k : V → σ → Config σ ⊕ Result σ V}
    (hstep : (machine I G).step ⟨c, i, s⟩ = evalIn I none e s k)
    (hk : ∀ v s', ∃ d, k v s' = .inl ⟨d, 0, s'⟩ ∧ Tracks I G n ⟨d, 0, s'⟩ K X (f v s')) :
    Tracks I G (n + 1) ⟨c, i, s⟩ K X ((evalLeaf I e >>= f) s) := by
  change Tracks I G (n + 1) ⟨c, i, s⟩ K X (Exec.bind (evalLeaf I e) f s)
  rw [evalIn] at hstep
  cases he : I.eval e s with
  | ok r =>
    obtain ⟨v, s'⟩ := r
    obtain ⟨d, hd, hK⟩ := hk v s'
    simp only [he, hd] at hstep
    rw [bind_evalLeaf_ok he, Nat.add_comm]
    exact hK.after (Machine.steps_one hstep)
  | error s' =>
    simp only [he] at hstep
    rw [bind_evalLeaf_error he]
    exact Machine.halts_one hstep

end Steps

/-! ## Conditions -/

theorem Exec.bind_assoc {γ : Type} (m : Exec σ V α) (f : α → Exec σ V β) (g : β → Exec σ V γ) :
    (m >>= f >>= g) = m >>= fun a => f a >>= g := by
  funext s
  change Exec.bind (Exec.bind m f) g s = Exec.bind m (fun a => Exec.bind (f a) g) s
  unfold Exec.bind
  rcases m s with ⟨es, o⟩
  cases o with
  | done a s' =>
    simp only
    rcases f a s' with ⟨es', o'⟩
    cases o' <;> simp
  | _ => simp

theorem Exec.pure_bind (a : α) (f : α → Exec σ V β) : (Pure.pure a >>= f) = f a := by
  funext s
  change Exec.bind (Exec.pure a) f s = f a s
  simp [Exec.bind, Exec.pure]

section Conditions

variable {I : Interp σ V} {k : Bool → Exec σ V β}

theorem evalCond_and_bind (left right : HirExpr) (ty : TypeId) (loc : SourceLoc) :
    (evalCond I ⟨.binaryOp .and left right, ty, loc⟩ >>= k) =
      evalCond I left >>= fun b => if b then evalCond I right >>= k else k false := by
  rw [evalCond, Exec.bind_assoc]
  congr 1
  funext b
  cases b <;> simp [Exec.pure_bind]

theorem evalCond_or_bind (left right : HirExpr) (ty : TypeId) (loc : SourceLoc) :
    (evalCond I ⟨.binaryOp .or left right, ty, loc⟩ >>= k) =
      evalCond I left >>= fun b => if b then k true else evalCond I right >>= k := by
  rw [evalCond, Exec.bind_assoc]
  congr 1
  funext b
  cases b <;> simp [Exec.pure_bind]

theorem evalCond_not_bind (inner : HirExpr) (ty : TypeId) (loc : SourceLoc) :
    (evalCond I ⟨.not inner, ty, loc⟩ >>= k) = evalCond I inner >>= fun b => k !b := by
  rw [evalCond, Exec.bind_assoc]
  rfl

theorem evalCond_leaf_bind {e : HirExpr}
    (hand : ∀ left right ty loc, e ≠ ⟨.binaryOp .and left right, ty, loc⟩)
    (hor : ∀ left right ty loc, e ≠ ⟨.binaryOp .or left right, ty, loc⟩)
    (hnot : ∀ inner ty loc, e ≠ ⟨.not inner, ty, loc⟩) :
    (evalCond I e >>= k) = evalLeaf I e >>= fun v => k (I.truth v) := by
  unfold evalCond
  split
  · next left right ty loc => exact absurd rfl (hand left right ty loc)
  · next left right ty loc => exact absurd rfl (hor left right ty loc)
  · next inner ty loc => exact absurd rfl (hnot inner ty loc)
  · rw [Exec.bind_assoc]
    rfl

theorem CfgBuilder.sealBlock_handlerStack {st st' : CfgBuilder} {t : Terminator}
    (hs : st.sealBlock t = .ok st') : st'.handlerStack = st.handlerStack := by
  obtain ⟨i, b, _, _, _, rfl⟩ := sealBlock_eq_ok.mp hs
  rfl

theorem CfgBuilder.startBlock_handlerStack {st st' : CfgBuilder} {id : Nat}
    (hs : st.startBlock id = .ok st') : st'.handlerStack = st.handlerStack := by
  obtain ⟨_, b, _, _, rfl⟩ := startBlock_eq_ok.mp hs
  rfl

theorem lowerExprAsBranch_handlerStack {e : HirExpr} {f : Nat} {st st' : CfgBuilder}
    (hs : lowerExprAsBranch e t f st = .ok st') : st'.handlerStack = st.handlerStack := by
  fun_induction lowerExprAsBranch e t f st generalizing st' with
  | case1 left right _ _ t f st ihl ihr | case2 left right _ _ t f st ihl ihr =>
    simp only [bind_eq_ok] at hs
    obtain ⟨st₁, h₁, st₂, h₂, h₃⟩ := hs
    rw [ihr st₂ h₃, CfgBuilder.startBlock_handlerStack h₂, ihl h₁]
    rfl
  | case3 inner _ _ t f st ih => exact ih hs
  | case4 e t f st _ _ _ => exact CfgBuilder.sealBlock_handlerStack hs

/-- The right operand of a condition is tested in a block that waits for it. -/
theorem rhs_at {e : HirExpr} {f c : Nat} {ss : List HirStmt} {st st₁ st₂ : CfgBuilder}
    (hh : st.handlerStack = []) (a : st.At c ss none)
    (h₁ : lowerExprAsBranch e t f st.newBlock = .ok st₁)
    (h₂ : st₁.startBlock st.nextId = .ok st₂) :
    st₂.At st.nextId [] none ∧ st₂.handlerStack = [] := by
  have w := a.waiting_alloc st.handlerStack.head?
  rw [hh] at w
  rw [CfgBuilder.newBlock_eq, hh] at h₁
  refine ⟨(lowerExprAsBranch_waiting w h₁).at_start h₂, ?_⟩
  rw [CfgBuilder.startBlock_handlerStack h₂, lowerExprAsBranch_handlerStack h₁]
  exact hh

/-- A lowered condition leads to its targets as its value says, in at least one step. -/
theorem lowerExprAsBranch_tracks {e : HirExpr} {f c n : Nat} {st st' : CfgBuilder}
    {ss : List HirStmt} {G : List BasicBlock} {K : β → Nat → Nat → Prop} {X : Nat → Nat → Prop}
    (hh : st.handlerStack = []) (a : st.At c ss none)
    (hs : lowerExprAsBranch e t f st = .ok st') (hG : Grows st'.blocks G)
    (ht : ∀ s, Tracks I G n ⟨t, 0, s⟩ K X (k true s))
    (hf : ∀ s, Tracks I G n ⟨f, 0, s⟩ K X (k false s)) (s : σ) :
    Tracks I G (n + 1) ⟨c, ss.length, s⟩ K X ((evalCond I e >>= k) s) := by
  fun_induction lowerExprAsBranch e t f st generalizing st' c ss s k with
  | case1 left right _ _ t f st ihl ihr =>
    simp only [bind_eq_ok] at hs
    obtain ⟨st₁, h₁, st₂, h₂, h₃⟩ := hs
    obtain ⟨a₂, hh₂⟩ := rhs_at hh a h₁ h₂
    have hG₁ : Grows st₁.blocks G := (CfgBuilder.startBlock_grows h₂).trans
      ((lowerExprAsBranch_grows h₃).trans hG)
    have hright := ihr st₂ hh₂ a₂ h₃ hG ht hf
    rw [evalCond_and_bind]
    exact ihl (k := fun b => if b then evalCond I right >>= k else k false) hh (a.alloc _) h₁ hG₁
      (fun s' => (hright s').le (Nat.le_succ n)) hf s
  | case2 left right _ _ t f st ihl ihr =>
    simp only [bind_eq_ok] at hs
    obtain ⟨st₁, h₁, st₂, h₂, h₃⟩ := hs
    obtain ⟨a₂, hh₂⟩ := rhs_at hh a h₁ h₂
    have hG₁ : Grows st₁.blocks G := (CfgBuilder.startBlock_grows h₂).trans
      ((lowerExprAsBranch_grows h₃).trans hG)
    have hright := ihr st₂ hh₂ a₂ h₃ hG ht hf
    rw [evalCond_or_bind]
    exact ihl (k := fun b => if b then k true else evalCond I right >>= k) hh (a.alloc _) h₁ hG₁
      ht (fun s' => (hright s').le (Nat.le_succ n)) s
  | case3 inner _ _ t f st ih =>
    rw [evalCond_not_bind]
    exact ih hh a hs hG hf ht s
  | case4 e t f st hand hor hnot =>
    rw [evalCond_leaf_bind hand hor hnot]
    refine evalIn_tracks (step_sealed a hs hG s) fun v s' => ⟨_, rfl, ?_⟩
    cases I.truth v with
    | true => exact ht s'
    | false => exact hf s'

end Conditions

/-! ## Constructs -/

/-- The lowering `k` produces code that follows the computation `d`. -/
def Simulates (I : Interp σ V) (n : Nat) (exitOk : Bool) (k : Lowering) (d : Exec σ V Unit) :
    Prop :=
  ∀ st st' G c ss, st.Inv → st.handlerStack = [] → st.At c ss none → k st = .ok st' →
    Grows st'.blocks G →
    ∀ s, Tracks I G n ⟨c, ss.length, s⟩ (AtEnd st') (AtExit exitOk st) (d s)

section Constructs

variable {I : Interp σ V} {n : Nat} {exitOk : Bool} {st₀ st st' : CfgBuilder}
  {G : List BasicBlock}

theorem simulates_push (stmt : HirStmt) :
    Simulates I n exitOk (fun st => .ok (st.pushStmt stmt)) (execLeaf I stmt) := by
  intro st st' G c ss _ _ a hs hG s
  cases hs
  have h := pushStmts_tracks (I := I) (n := n) (X := AtExit exitOk st) a [stmt] hG s
  rwa [execLeaves_singleton] at h

theorem simulates_ok : Simulates I n exitOk .ok (pure ()) := by
  intro st st' G c ss _ _ a hs _ s
  cases hs
  exact Tracks.pure ⟨ss, a, rfl⟩ s

/-- Statements in sequence; nothing is lowered after a statement that does not complete. -/
theorem simulates_seq {k₁ k₂ : Lowering} {d₁ d₂ : Exec σ V Unit} (hk₁ : k₁.Sound)
    (hk₂ : k₂.Sound) (h₁ : Simulates I n exitOk k₁ d₁) (h₂ : Simulates I n exitOk k₂ d₂) :
    Simulates I n exitOk (fun st => do k₂ (← k₁ st)) (do d₁; d₂) := by
  intro st st' G c ss hinv hh a hs hG s
  simp only [bind_eq_ok] at hs
  obtain ⟨st₁, hs₁, hs₂⟩ := hs
  have w₁ := hk₁ st st₁ hinv hs₁
  have w₂ := hk₂ st₁ st' w₁.scope.inv hs₂
  refine (h₁ st st₁ G c ss hinv hh a hs₁ (w₂.grows.trans hG) s).bind ?_
  rintro _ b i s' ⟨ss', a', rfl⟩
  have ht := h₂ st₁ st' G b ss' w₁.scope.inv (w₁.handlers.trans hh) a' hs₂ hG s'
  rwa [atExit_congr w₁.exits] at ht

theorem simulates_return (expr : Option HirExpr) :
    Simulates I n exitOk (fun st => st.sealBlock (.ret expr)) (execReturn I expr) := by
  intro st st' G c ss _ _ a hs hG s
  have hstep := step_sealed (I := I) a hs hG s
  cases expr with
  | none => exact Machine.halts_one hstep
  | some e =>
    let f : V → Exec σ V Unit := fun v s => ([], .returned (some v) s)
    change Tracks I G n _ _ _ (Exec.bind (evalLeaf I e) f s)
    simp only [stepTerminator, evalIn] at hstep
    cases he : I.eval e s with
    | ok r =>
      simp only [he] at hstep
      rw [bind_evalLeaf_ok he]
      exact Machine.halts_one hstep
    | error s' =>
      simp only [he] at hstep
      rw [bind_evalLeaf_error he]
      exact Machine.halts_one hstep

theorem simulates_exit : Simulates I n true lowerExit (fun s => ([], .exit s)) := by
  intro st st' G c ss _ _ a hs hG s
  unfold lowerExit at hs
  split at hs
  · cases hs
  · next x xs hx =>
    exact ⟨1, x, 0, ⟨rfl, by simp [hx], rfl⟩, Machine.steps_one (step_sealed a hs hG s)⟩

/-- An arm runs its opening statements and its body, and leads to the block after it. -/
theorem lowerArm_tracks {start next : Nat} {before : List HirStmt} {body : Lowering}
    {d : Exec σ V Unit} (h : Scope st₀ st) (hh : st.handlerStack = [])
    (w : st.Waiting start none) (hk : body.Sound) (hd : Simulates I n exitOk body d)
    (hs : lowerArm start before body next st = .ok st') (hstart : st₀.nextId ≤ start)
    (hG : Grows st'.blocks G) (s : σ) :
    Tracks I G n ⟨start, 0, s⟩ (Arrives st' next) (AtExit exitOk st)
      ((do execLeaves I before; d : Exec σ V Unit) s) := by
  simp only [lowerArm, bind_eq_ok] at hs
  obtain ⟨st₁, h₁, st₂, h₂, h₃⟩ := hs
  have w₁ := armEntry_within h h₁ hstart
  have w₂ := hk st₁ st₂ w₁.scope.inv h₂
  have hG₂ : Grows st₂.blocks G := (CfgBuilder.sealIfOpen_grows h₃).trans hG
  have hentry := h₁
  simp only [armEntry, bind_eq_ok, pure_eq_ok] at hentry
  obtain ⟨st₀', h₀, rfl⟩ := hentry
  refine (pushStmts_tracks (w.at_start h₀) before (w₂.grows.trans hG₂) s).bind ?_
  rintro _ b i s₁ ⟨ss, a, rfl⟩
  have hbody := hd _ st₂ G b ss w₁.scope.inv (w₁.handlers.trans hh) a h₂ hG₂ s₁
  rw [atExit_congr w₁.exits] at hbody
  exact hbody.goto fun _ b' i' s₂ hend => step_sealIfOpen hend h₃ hG s₂

theorem Tracks.arrives {c : Config σ} {X : Nat → Nat → Prop}
    {r : List Event × Outcome σ V Unit} (h : Tracks I G n c (Arrives st t) X r)
    (hg : Grows st.blocks st'.blocks) : Tracks I G n c (Arrives st' t) X r :=
  h.mono (Nat.le_refl n) (fun _ _ _ ha => ⟨ha.1, ha.2.mono hg⟩) fun _ _ hx => hx

theorem execLeaves_nil_bind (d : Exec σ V Unit) : (do execLeaves I []; d) = d :=
  Exec.pure_bind () fun _ => d

section If

variable {merge cur out : Nat} {hasElse : Bool} {elsifs : List (HirExpr × Lowering)}
  {ds : List (HirExpr × Exec σ V Unit)} {elseD : Exec σ V Unit}

/-- One test of an `IF`, its body, and what follows when it fails. -/
theorem lowerTest_tracks {cond : HirExpr} {body : Lowering} {d : Exec σ V Unit} {more : Bool}
    {c : Nat} {ss : List HirStmt} {st₁ st₂ : CfgBuilder} (h : Scope st₀ st)
    (hh : st.handlerStack = []) (a : st.At c ss none) (hk : body.Sound)
    (hd : Simulates I n exitOk body d) (h₁ : lowerTest cond merge more st = .ok st₁)
    (h₂ : lowerArm st.nextId [] body merge st₁ = .ok st₂) (hm : Scope.Allowed st₀ st merge)
    (hg : Grows st₂.blocks st'.blocks) (hG : Grows st'.blocks G)
    (hrest : ∀ s, Tracks I G n ⟨falseTarget merge more st, 0, s⟩ (Arrives st' merge)
      (AtExit exitOk st) (execIf I elseD ds s)) (s : σ) :
    Tracks I G n ⟨c, ss.length, s⟩ (Arrives st' merge) (AtExit exitOk st)
      (execIf I elseD ((cond, d) :: ds) s) := by
  have v₁ := lowerTest_within h h₁ hm
  have v₂ := lowerArm_within v₁.scope hk h₂ h.nextId_le (hm.mono v₁.le)
  have hbody : ∀ s', Tracks I G n ⟨st.nextId, 0, s'⟩ (Arrives st' merge) (AtExit exitOk st)
      (d s') := by
    intro s'
    have wthen := (lowerTest_waiting_new h.inv h₁).1
    rw [hh] at wthen
    have ht := lowerArm_tracks v₁.scope (v₁.handlers.trans hh) wthen hk hd h₂ h.nextId_le
      (hg.trans hG) s'
    rw [execLeaves_nil_bind, atExit_congr v₁.exits] at ht
    exact ht.arrives hg
  have htest := lowerExprAsBranch_tracks (k := fun b => if b then d else execIf I elseD ds)
    (by simpa using hh) (a.newBlocks _) h₁ (v₂.grows.trans (hg.trans hG)) hbody hrest s
  exact htest.le (Nat.le_succ n)

/-- The `ELSIF` chain tests its conditions in order. -/
theorem lowerElsifs_tracks (h : Scope st₀ st) (hh : st.handlerStack = [])
    (hk : ∀ e ∈ elsifs, Lowering.Sound e.2)
    (hd : List.Forall₂ (fun e d => e.1 = d.1 ∧ Simulates I n exitOk e.2 d.2) elsifs ds)
    (hs : lowerElsifs merge hasElse elsifs cur st = .ok (out, st'))
    (w : elsifs ≠ [] ∨ hasElse = true → st.Waiting cur none ∧ cur ≠ merge)
    (hmerge : st₀.nextId ≤ merge ∧ merge < st.nextId) (hcur : st₀.nextId ≤ cur)
    {st'' : CfgBuilder} (hg : Grows st'.blocks st''.blocks) (hG : Grows st''.blocks G)
    (helse : ∀ s, Tracks I G n ⟨out, 0, s⟩ (Arrives st'' merge) (AtExit exitOk st) (elseD s))
    (s : σ) :
    Tracks I G n ⟨cur, 0, s⟩ (Arrives st'' merge) (AtExit exitOk st) (execIf I elseD ds s) := by
  induction hd generalizing cur st s with
  | nil =>
    cases hs
    exact helse s
  | @cons e d rest ds hed _ ih =>
    obtain ⟨cond, body⟩ := e
    obtain ⟨cond', d⟩ := d
    obtain ⟨rfl, hd⟩ := hed
    rw [forall_mem_cons] at hk
    simp only [lowerElsifs, bind_eq_ok] at hs
    obtain ⟨st₁, h₁, st₂, h₂, st₃, h₃, h₄⟩ := hs
    obtain ⟨v₁, v₂, v₃, hmerge₃, hcur₃⟩ := elsif_within h hk.1 hmerge hcur h₁ h₂ h₃
    have g₄ := (lowerElsifs_within v₃.scope hk.2 h₄ hmerge₃ hcur₃).1.grows
    have hrest := ih v₃.scope (v₃.handlers.trans hh) hk.2 h₄ (fun hmore => by
      have hw := elsif_next_waiting h hk.1 h₁ h₂ h₃ hmerge hcur (by simpa using hmore)
      rwa [hh] at hw) hmerge₃ hcur₃ (by rwa [atExit_congr v₃.exits])
    rw [atExit_congr v₃.exits, ← atExit_congr v₁.exits] at hrest
    have htest := lowerTest_tracks v₁.scope (v₁.handlers.trans hh)
      ((w (Or.inl (by simp))).1.at_start h₁) hk.1 hd h₂ h₃
        (Or.inl ⟨hmerge.1, Nat.lt_of_lt_of_le hmerge.2 v₁.le⟩) (g₄.trans hg) hG
      hrest s
    rwa [atExit_congr v₁.exits] at htest

/-- Without an `ELSE`, the chain falls to the merge block. -/
theorem lowerElsifs_falls (h : Scope st₀ st) (hk : ∀ e ∈ elsifs, Lowering.Sound e.2)
    (hs : lowerElsifs merge false elsifs cur st = .ok (out, st'))
    (hmerge : st₀.nextId ≤ merge ∧ merge < st.nextId) (hcur : st₀.nextId ≤ cur)
    (hfalls : elsifs ≠ [] ∨ (cur = merge ∧ st.Reaches merge)) :
    out = merge ∧ st'.Reaches merge := by
  induction elsifs generalizing cur st with
  | nil =>
    cases hs
    simpa using hfalls
  | cons e rest ih =>
    obtain ⟨cond, body⟩ := e
    rw [forall_mem_cons] at hk
    simp only [lowerElsifs, bind_eq_ok] at hs
    obtain ⟨st₁, h₁, st₂, h₂, st₃, h₃, h₄⟩ := hs
    obtain ⟨v₁, v₂, v₃, hmerge₃, hcur₃⟩ := elsif_within h hk.1 hmerge hcur h₁ h₂ h₃
    refine ih v₃.scope hk.2 h₄ hmerge₃ hcur₃ ?_
    by_cases hrest : rest = []
    · subst hrest
      have hr := (lowerTest_reaches (Nat.lt_of_lt_of_le hmerge.2 v₁.le) h₂).mpr (Or.inr rfl)
      have w₃ := lowerArm_within v₂.scope hk.1 h₃ v₁.scope.nextId_le
        (Or.inl ⟨hmerge.1, Nat.lt_of_lt_of_le hmerge.2 v₂.le⟩)
      exact Or.inr ⟨rfl, hr.mono w₃.grows⟩
    · exact Or.inl hrest

theorem lowerIf_simulates {cond : HirExpr} {thenBody : Lowering} {d : Exec σ V Unit}
    {elseBody : Option Lowering} (hthen : thenBody.Sound)
    (helsifs : ∀ e ∈ elsifs, Lowering.Sound e.2) (helse : ∀ k ∈ elseBody, Lowering.Sound k)
    (hd : Simulates I n exitOk thenBody d)
    (hds : List.Forall₂ (fun e d => e.1 = d.1 ∧ Simulates I n exitOk e.2 d.2) elsifs ds)
    (hsome : ∀ k ∈ elseBody, Simulates I n exitOk k elseD)
    (hnone : elseBody = none → elseD = pure ()) :
    Simulates I n exitOk (lowerIf cond thenBody elsifs elseBody)
      (execIf I elseD ((cond, d) :: ds)) := by
  intro st st' G c ss hinv hh a hs hG s
  simp only [lowerIf, bind_eq_ok] at hs
  obtain ⟨st₂, h₂, st₃, h₃, ⟨cur, st₄⟩, h₄, st₅, h₅, h₆⟩ := hs
  obtain ⟨v₂, v₃, w₄, hlt₃, hm₄, hcur₀, hcur⟩ := if_within hinv hthen helsifs h₂ h₃ h₄
  have w₁ := Within.newBlock (Scope.refl hinv)
  have hm : Scope.Allowed st st.newBlock st.nextId := Or.inl ⟨le_rfl, by simp⟩
  have w₃ := lowerArm_within v₂.scope hthen h₃ (by simp) (hm.mono v₂.le)
  have v₄ := v₃.trans w₄
  have w₅ := lowerElse_within v₄.scope helse h₅ hm₄ hcur
  have hG₅ : Grows st₅.blocks G := (CfgBuilder.startIfReached_grows h₆).trans hG
  have hh₁ : st.newBlock.handlerStack = [] := hh
  have hx : ∀ {st' : CfgBuilder}, Within st st.newBlock st' →
      AtExit exitOk st' = AtExit exitOk st := fun w => atExit_congr w.exits
  have hnext : elsifs ≠ [] ∨ elseBody.isSome = true → st₃.Waiting
      (falseTarget st.nextId (!elsifs.isEmpty || elseBody.isSome) st.newBlock) none ∧
      falseTarget st.nextId (!elsifs.isEmpty || elseBody.isSome) st.newBlock ≠ st.nextId := by
    intro hmore
    have hw := if_next_waiting hinv hthen h₂ h₃ (by simpa using hmore)
    rwa [hh] at hw
  have wmerge := if_merge_waiting hinv hthen helsifs helse h₂ h₃ h₄ h₅
  rw [hh] at wmerge
  -- what the last test falls to
  have helseT : ∀ s', Tracks I G n ⟨cur, 0, s'⟩ (Arrives st₅ st.nextId) (AtExit exitOk st₃)
      (elseD s') := by
    intro s'
    rw [hx v₃]
    cases elseBody with
    | none =>
      rw [hnone rfl]
      have hfalls := lowerElsifs_falls v₃.scope helsifs h₄ ⟨le_rfl, hlt₃⟩ hcur₀ ?_
      · exact Tracks.pure ⟨⟨hfalls.1, rfl⟩, hfalls.2.mono w₅.grows⟩ s'
      · by_cases he : elsifs = []
        · subst he
          have hr := (lowerTest_reaches (by simp) h₂).mpr (Or.inr rfl)
          exact Or.inr ⟨rfl, hr.mono w₃.grows⟩
        · exact Or.inl he
    | some body =>
      have wout := (lowerElsifs_else_waiting v₃.scope helsifs hnext h₄ ⟨le_rfl, hlt₃⟩
        hcur₀ (by rw [v₃.handlers, hh₁]; rfl) rfl).1
      have ht := lowerArm_tracks v₄.scope (v₄.handlers.trans hh) wout (helse body rfl)
        (hsome body rfl) h₅ hcur hG₅ s'
      rwa [execLeaves_nil_bind, hx v₄] at ht
  have hchain := lowerElsifs_tracks v₃.scope (v₃.handlers.trans hh) helsifs hds h₄ hnext
    ⟨le_rfl, hlt₃⟩ hcur₀ w₅.grows hG₅ helseT
  rw [atExit_congr v₃.exits] at hchain
  have htest := lowerTest_tracks w₁.scope hh (a.alloc _) hthen hd h₂ h₃ hm
    (w₄.grows.trans w₅.grows) hG₅ hchain s
  exact htest.mono (Nat.le_refl n) (fun _ b i ha => ha.atEnd wmerge h₆) fun _ _ hx => hx

end If

section Loops

variable {body : Lowering} {d : Exec σ V Unit}

theorem leaveLoop_atEnd {x back : Nat} (w : st.Waiting x none)
    (hs : leaveLoop back x st = .ok st') : AtEnd st' () x 0 := by
  simp only [leaveLoop, bind_eq_ok] at hs
  obtain ⟨st₁, h₁, h₂⟩ := hs
  exact ⟨[], (w.sealIfOpen h₁).popLoopExit.at_start h₂, rfl⟩

/-- A loop body that completes jumps back. -/
theorem leaveLoop_step {x back b i : Nat} (h : AtEnd st () b i)
    (hs : leaveLoop back x st = .ok st') (hG : Grows st'.blocks G) (s : σ) :
    (machine I G).step ⟨b, i, s⟩ = ([], .inl ⟨back, 0, s⟩) := by
  simp only [leaveLoop, bind_eq_ok] at hs
  obtain ⟨st₁, h₁, h₂⟩ := hs
  have hstart := CfgBuilder.startBlock_grows h₂
  exact (step_sealIfOpen h h₁ (hstart.trans hG) s).1

/-- A body whose `EXIT`s all belong to loops inside it. -/
theorem Tracks.noExit {α : Type} {c : Config σ} {K : α → Nat → Nat → Prop}
    {Y : Nat → Nat → Prop} {r : List Event × Outcome σ V α}
    (h : Tracks I G n c K (AtExit false st) r) : Tracks I G n c K Y r :=
  h.mono (Nat.le_refl n) (fun _ _ _ hk => hk) fun _ _ hx => by simp [AtExit] at hx

/-- The rounds of a `WHILE`: the condition leads to the body or out of the loop, and the
end of the body leads back. -/
theorem execWhile_tracks {cond : Exec σ V Bool} {header bodyBlock x : Nat}
    {B K : Unit → Nat → Nat → Prop} {X : Nat → Nat → Prop}
    (hcond : ∀ j (k : Bool → Exec σ V Unit),
      (∀ s, Tracks I G j ⟨bodyBlock, 0, s⟩ K X (k true s)) →
      (∀ s, Tracks I G j ⟨x, 0, s⟩ K X (k false s)) →
      ∀ s, Tracks I G (j + 1) ⟨header, 0, s⟩ K X ((cond >>= k) s))
    (hbody : ∀ s, Tracks I G n ⟨bodyBlock, 0, s⟩ B X (d s))
    (hback : ∀ b i s, B () b i → (machine I G).step ⟨b, i, s⟩ = ([], .inl ⟨header, 0, s⟩))
    (hexit : K () x 0) {j : Nat} (hj : j ≤ n) (s : σ) :
    Tracks I G j ⟨header, 0, s⟩ K X (execWhile cond d j s) := by
  induction j generalizing s with
  | zero => exact ⟨0, _, Nat.le_refl 0, Machine.steps_zero⟩
  | succ j ih =>
    have hj' := Nat.le_of_succ_le hj
    refine hcond j (fun b => if b then (do d; execWhile cond d j) else pure ()) ?_ ?_ s
    · intro s'
      refine ((hbody s').le hj').bind fun _ b i s'' hend => ?_
      exact ((ih hj' s'').silent (hback b i s'' hend)).le (Nat.le_succ j)
    · exact fun s' => Tracks.pure hexit s'

theorem lowerWhile_simulates {cond : HirExpr} (hk : body.Sound) (hd : Simulates I n false body d) :
    Simulates I n exitOk (lowerWhile cond body) (execWhile (evalCond I cond) d n) := by
  intro st st' G c ss hinv hh a hs hG s
  simp only [lowerWhile, bind_eq_ok] at hs
  obtain ⟨st₁, h₁, st₂, h₂, h₃⟩ := hs
  obtain ⟨w₁, _⟩ := whileEntry_within hinv h₁
  have w₂ := hk st₁ st₂ w₁.scope.inv h₂
  have wx := (whileEntry_after hinv h₁).2
  rw [hh] at wx
  have hG₂ : Grows st₂.blocks G := (leaveLoop_grows h₃).trans hG
  simp only [whileEntry, bind_eq_ok] at h₁
  obtain ⟨sa, ha, sb, hb, sc, hc, hbody⟩ := h₁
  have hnew : ∀ i, i < 3 → (st.newBlocks 3).Waiting (st.nextId + i) none := by
    intro i hi
    have w := hinv.waiting_newBlocks (n := 3) (i := st.nextId + i) (by omega) (by omega)
    rwa [hh] at w
  have whdr := (hnew 0 (by omega)).sealBlock ha
  have wbody := lowerExprAsBranch_waiting
    (((hnew 1 (by omega)).sealBlock ha).startBlock hb (by omega)) hc
  have abody := (wbody.pushLoopExit (st.nextId + 2)).at_start hbody
  have hGc : Grows sc.blocks G := (CfgBuilder.startBlock_grows hbody).trans (w₂.grows.trans hG₂)
  have hGa : Grows sa.blocks G := (CfgBuilder.startBlock_grows hb).trans
    ((lowerExprAsBranch_grows hc).trans hGc)
  have hhb : sb.handlerStack = [] := by
    rw [CfgBuilder.startBlock_handlerStack hb, CfgBuilder.sealBlock_handlerStack ha]
    simpa using hh
  have hloop := execWhile_tracks (I := I) (d := d) (X := AtExit exitOk st)
    (fun j k ht hf s => lowerExprAsBranch_tracks (k := k) hhb (whdr.at_start hb) hc hGc ht hf s)
    (fun s' => (hd st₁ st₂ G _ _ w₁.scope.inv (w₁.handlers.trans hh) abody h₂ hG₂ s').noExit)
    (fun b i s' hend => leaveLoop_step hend h₃ hG s')
    (leaveLoop_atEnd (wx.of_scope w₂.scope) h₃) (Nat.le_refl n) s
  exact (hloop.silent (step_sealed (a.newBlocks 3) ha hGa s)).le (Nat.le_succ n)

/-- The entry of a `LOOP` or `REPEAT` leads to the start of its body. -/
theorem loopEntry_tracks {c : Nat} {ss : List HirStmt} (hinv : st.Inv)
    (hh : st.handlerStack = []) (a : st.At c ss none) (hs : loopEntry st = .ok st')
    (hG : Grows st'.blocks G) :
    st'.At st.nextId [] none ∧
      ∀ s, (machine I G).step ⟨c, ss.length, s⟩ = ([], .inl ⟨st.nextId, 0, s⟩) := by
  simp only [loopEntry, bind_eq_ok] at hs
  obtain ⟨st₁, h₁, h₂⟩ := hs
  have w := hinv.waiting_newBlocks (n := 2) (i := st.nextId) le_rfl (by omega)
  rw [hh] at w
  have hstart := CfgBuilder.startBlock_grows h₂
  exact ⟨((w.sealBlock h₁).pushLoopExit (st.nextId + 1)).at_start h₂,
    fun s => step_sealed (a.newBlocks 2) h₁ (hstart.trans hG) s⟩

theorem lowerLoop_simulates (hk : body.Sound) (hd : Simulates I n true body d) :
    Simulates I n exitOk (lowerLoop body) (Exec.catchExit (execForever d n)) := by
  intro st st' G c ss hinv hh a hs hG s
  simp only [lowerLoop, bind_eq_ok] at hs
  obtain ⟨st₁, h₁, st₂, h₂, h₃⟩ := hs
  obtain ⟨w₁, _⟩ := loopEntry_within hinv h₁
  have w₂ := hk st₁ st₂ w₁.scope.inv h₂
  have wx := (loopEntry_after hinv h₁).2
  rw [hh] at wx
  have hG₂ : Grows st₂.blocks G := (leaveLoop_grows h₃).trans hG
  obtain ⟨abody, hentry⟩ := loopEntry_tracks (I := I) hinv hh a h₁ (w₂.grows.trans hG₂)
  have hround := hd st₁ st₂ G _ _ w₁.scope.inv (w₁.handlers.trans hh) abody h₂ hG₂
  -- the invariant of the loop, by induction on the rounds that are left
  have hloop : ∀ j, j ≤ n → ∀ s, Tracks I G j ⟨st.nextId, 0, s⟩ (AtEnd st') (AtExit true st₁)
      (execForever d j s) := by
    intro j
    induction j with
    | zero => exact fun _ s => ⟨0, _, Nat.le_refl 0, Machine.steps_zero⟩
    | succ j ih =>
      intro hj s
      have hj' := Nat.le_of_succ_le hj
      refine ((hround s).le hj).bind fun _ b i s' hend => ?_
      exact (ih hj' s').silent (leaveLoop_step hend h₃ hG s')
  refine (((hloop n (Nat.le_refl n) s).silent (hentry s)).le (Nat.le_succ n)).catchExit ?_
  rintro b i ⟨_, hx, rfl⟩
  rw [w₁.exits] at hx
  cases hx
  exact leaveLoop_atEnd (wx.of_scope w₂.scope) h₃

theorem lowerRepeat_simulates {cond : HirExpr} (hk : body.Sound) (hd : Simulates I n false body d) :
    Simulates I n exitOk (lowerRepeat body cond) (execRepeat d (evalCond I cond) n) := by
  intro st st' G c ss hinv hh a hs hG s
  simp only [lowerRepeat, bind_eq_ok] at hs
  obtain ⟨st₁, h₁, st₂, h₂, st₃, h₃, h₄⟩ := hs
  obtain ⟨w₁, _⟩ := loopEntry_within hinv h₁
  have w₂ := hk st₁ st₂ w₁.scope.inv h₂
  have wx := (loopEntry_after hinv h₁).2
  rw [hh] at wx
  have wx₃ := lowerUntil_waiting (wx.of_scope w₂.scope) h₃
  have hexit : AtEnd st' () (st.nextId + 1) 0 := ⟨[], wx₃.popLoopExit.at_start h₄, rfl⟩
  have hstart := CfgBuilder.startBlock_grows h₄
  have hG₃ : Grows st₃.blocks G := hstart.trans hG
  have hG₂ : Grows st₂.blocks G := (lowerUntil_grows h₃).trans hG₃
  obtain ⟨abody, hentry⟩ := loopEntry_tracks (I := I) hinv hh a h₁ (w₂.grows.trans hG₂)
  have hround := hd st₁ st₂ G _ _ w₁.scope.inv (w₁.handlers.trans hh) abody h₂ hG₂
  -- the invariant of the loop, by induction on the rounds that are left
  have hloop : ∀ j, j ≤ n → ∀ s, Tracks I G j ⟨st.nextId, 0, s⟩ (AtEnd st') (AtExit exitOk st)
      (execRepeat d (evalCond I cond) j s) := by
    intro j
    induction j with
    | zero => exact fun _ s => ⟨0, _, Nat.le_refl 0, Machine.steps_zero⟩
    | succ j ih =>
      intro hj s
      have hj' := Nat.le_of_succ_le hj
      refine ((hround s).noExit.le hj).bind ?_
      rintro _ b i s' ⟨ss', a', rfl⟩
      rw [lowerUntil, a'.isOpen, if_pos rfl] at h₃
      exact lowerExprAsBranch_tracks
        (k := fun b => if b then pure () else execRepeat d (evalCond I cond) j)
        (w₂.handlers.trans (w₁.handlers.trans hh)) a' h₃ hG₃
        (fun s'' => Tracks.pure hexit s'') (ih hj') s'
  exact ((hloop n (Nat.le_refl n) s).silent (hentry s)).le (Nat.le_succ n)

section For

variable {var : String} {varTy : TypeId} {start stop : HirExpr} {step : Option HirExpr}
  {direction : ForDirection}

/-- The comparison of a `FOR` is a leaf. -/
theorem evalCond_forCmp_bind (k : Bool → Exec σ V β) :
    (evalCond I (makeBinop (forCmp direction) var varTy stop) >>= k) =
      evalLeaf I (makeBinop (forCmp direction) var varTy stop) >>= fun v => k (I.truth v) := by
  apply evalCond_leaf_bind <;> intros <;> cases direction <;> simp [makeBinop, forCmp]

/-- The latch of a `FOR` steps the variable and leads back to the condition. -/
theorem forLatch_tracks {latch condBlock : Nat} {X : Nat → Nat → Prop} (w : st.Waiting latch none)
    (hs : forLatch var varTy step direction latch condBlock st = .ok st')
    (hG : Grows st'.blocks G) :
    ∃ B : Unit → Nat → Nat → Prop,
      (∀ s, Tracks I G n ⟨latch, 0, s⟩ B X
        (execLeaf I (assignVar var varTy
          (makeBinop .add var varTy (forStep varTy step direction))) s)) ∧
      ∀ b i s, B () b i → (machine I G).step ⟨b, i, s⟩ = ([], .inl ⟨condBlock, 0, s⟩) := by
  simp only [forLatch, armEntry, bind_eq_ok, pure_eq_ok] at hs
  obtain ⟨st₂, ⟨st₁, h₁, hpush⟩, h₂⟩ := hs
  refine ⟨AtEnd st₂, fun s => ?_, ?_⟩
  · subst hpush
    have h := pushStmts_tracks (I := I) (n := n) (X := X) (w.at_start h₁) [assignVar var varTy
      (makeBinop .add var varTy (forStep varTy step direction))]
      ((CfgBuilder.sealBlock_grows h₂).trans hG) s
    rwa [execLeaves_singleton] at h
  · rintro b i s ⟨ss, a, rfl⟩
    exact step_sealed a h₂ hG s

theorem lowerFor_simulates (hk : body.Sound) (hd : Simulates I n false body d) :
    Simulates I n exitOk (lowerFor var varTy start stop step direction body)
      (execFor I var varTy start stop step direction d n) := by
  intro st st' G c ss hinv hh a hs hG s
  simp only [lowerFor, bind_eq_ok] at hs
  obtain ⟨st₁, h₁, st₂, h₂, st₃, h₃, st₄, h₄, h₅⟩ := hs
  obtain ⟨w₁, _⟩ := forEntry_within hinv h₁
  have w₂ := hk st₁ st₂ w₁.scope.inv h₂
  obtain ⟨_, wlatch, wx⟩ := forEntry_after hinv h₁
  rw [hh] at wlatch wx
  have hpop : ∀ {i : Nat}, st₁.Waiting i none → st₃.popLoopExit.Waiting i none :=
    fun w => ((w.of_scope w₂.scope).sealIfOpen h₃).popLoopExit
  have hexit : AtEnd st' () (st.nextId + 3) 0 :=
    ⟨[], (forLatch_waiting (hpop wx) (by omega) h₄).1.at_start h₅, rfl⟩
  have hG₄ : Grows st₄.blocks G := (CfgBuilder.startBlock_grows h₅).trans hG
  have hG₃ : Grows st₃.blocks G := (lowerFor_latch_grows hk hinv h₁ h₂ h₃ h₄).trans hG₄
  have hG₂ : Grows st₂.blocks G := (CfgBuilder.sealIfOpen_grows h₃).trans hG₃
  simp only [forEntry, bind_eq_ok] at h₁
  obtain ⟨sa, ha, sb, hb, sc, hc, hbody⟩ := h₁
  have hpush : (st.pushStmt (assignVar var varTy start)).Inv :=
    ((Scope.refl hinv).pushStmt _).inv
  have hnew : ∀ i, i < 4 → ((st.pushStmt (assignVar var varTy start)).newBlocks 4).Waiting
      (st.nextId + i) none := by
    intro i hi
    have w := hpush.waiting_newBlocks (n := 4) (i := st.nextId + i) (by simp) (by simp; omega)
    rwa [CfgBuilder.pushStmt_handlerStack, hh] at w
  have wcond := (hnew 0 (by omega)).sealBlock ha
  have wbody := (((hnew 1 (by omega)).sealBlock ha).startBlock hb (by omega)).sealBlock hc
  have abody := (wbody.pushLoopExit (st.nextId + 3)).at_start hbody
  have hGc : Grows sc.blocks G := (CfgBuilder.startBlock_grows hbody).trans (w₂.grows.trans hG₂)
  have hGa : Grows sa.blocks G := (CfgBuilder.startBlock_grows hb).trans
    ((CfgBuilder.sealBlock_grows hc).trans hGc)
  obtain ⟨B, hlatch, hback⟩ := forLatch_tracks (I := I) (n := n) (X := AtExit exitOk st)
    (hpop wlatch) h₄ hG₄
  -- the body and the latch, then back to the condition
  have hround : ∀ s', Tracks I G n ⟨st.nextId + 1, 0, s'⟩ B (AtExit exitOk st)
      ((do d; execLeaf I (assignVar var varTy
        (makeBinop .add var varTy (forStep varTy step direction))) : Exec σ V Unit) s') := by
    intro s'
    have hbody := (hd st₁ st₂ G _ _ w₁.scope.inv (w₁.handlers.trans hh) abody h₂ hG₂ s').noExit
      (Y := AtExit exitOk st)
    refine hbody.bind fun _ b i s'' hend => ?_
    exact ((hlatch s'').silent (step_sealIfOpen hend h₃ hG₃ s'').1).le (Nat.le_succ n)
  have hcond : ∀ j (k : Bool → Exec σ V Unit),
      (∀ s, Tracks I G j ⟨st.nextId + 1, 0, s⟩ (AtEnd st') (AtExit exitOk st) (k true s)) →
      (∀ s, Tracks I G j ⟨st.nextId + 3, 0, s⟩ (AtEnd st') (AtExit exitOk st) (k false s)) →
      ∀ s, Tracks I G (j + 1) ⟨st.nextId, 0, s⟩ (AtEnd st') (AtExit exitOk st)
        ((evalCond I (makeBinop (forCmp direction) var varTy stop) >>= k) s) := by
    intro j k ht hf s
    rw [evalCond_forCmp_bind]
    refine evalIn_tracks (step_sealed (wcond.at_start hb) hc hGc s) fun v s' => ⟨_, rfl, ?_⟩
    cases I.truth v with
    | true => exact ht s'
    | false => exact hf s'
  have hpushed : Simulates I n exitOk _ (execLeaf I (assignVar var varTy start)) :=
    simulates_push _
  have hinit := hpushed st _ G c ss hinv hh a rfl ?_ s
  · refine hinit.bind ?_
    rintro _ b i s' ⟨ss', a', rfl⟩
    have hloop := execWhile_tracks hcond hround hback hexit (Nat.le_refl n) s'
    exact (hloop.silent (step_sealed (a'.newBlocks 4) ha hGa s')).le (Nat.le_succ n)
  · exact (Within.newBlocks (Scope.refl hpush) 4).grows.trans
      ((CfgBuilder.sealBlock_grows ha).trans hGa)

end For

end Loops

section Switch

variable {merge : Nat} {arms : List (Nat × Arm)} {ds : List (ExecArm σ V)}
  {elseD : Exec σ V Unit} {K : Unit → Nat → Nat → Prop} {X : Nat → Nat → Prop}

/-- The lowered arm follows the arm of the semantics: it has the same labels, and after
its opening statements its body does what the other body does. -/
def ArmSimulates (I : Interp σ V) (n : Nat) (exitOk : Bool) (arm : Arm) (e : ExecArm σ V) : Prop :=
  arm.labels = e.labels ∧
    ∃ d, (∀ v, e.body v = (do execLeaves I arm.binding; d)) ∧ Simulates I n exitOk arm.body d

theorem lowerArms_tracks (h : Scope st₀ st) (hh : st.handlerStack = [])
    (hk : ∀ a ∈ arms, a.2.body.Sound ∧ st₀.nextId ≤ a.1)
    (hd : List.Forall₂ (fun a e => ArmSimulates I n exitOk a.2 e) arms ds)
    (w : ∀ a ∈ arms, st.Waiting a.1 none) (hnodup : (arms.map Prod.fst).Nodup)
    (hmerge : Scope.Allowed st₀ st merge) (hs : lowerArms merge arms st = .ok st')
    {st'' : CfgBuilder} (hg : Grows st'.blocks st''.blocks) (hG : Grows st''.blocks G) :
    List.Forall₂ (fun a e => a.2.labels = e.labels ∧
      ∀ v s, Tracks I G n ⟨a.1, 0, s⟩ (Arrives st'' merge) (AtExit exitOk st) (e.body v s))
      arms ds := by
  induction hd generalizing st with
  | nil => exact .nil
  | @cons a e rest ds hae _ ih =>
    obtain ⟨block, arm⟩ := a
    rw [forall_mem_cons] at hk w
    rw [map_cons, nodup_cons] at hnodup
    simp only [lowerArms, bind_eq_ok] at hs
    obtain ⟨st₁, h₁, h₂⟩ := hs
    have v₁ := lowerArm_within h hk.1.1 h₁ hk.1.2 hmerge
    have v₂ := lowerArms_within v₁.scope hk.2 h₂ (hmerge.mono v₁.le)
    have w₁ : ∀ a ∈ rest, st₁.Waiting a.1 none := by
      intro a ha
      refine lowerArm_waiting h hk.1.1 (w.2 a ha) ?_ h₁ hk.1.2
      intro he
      exact hnodup.1 (mem_map.mpr ⟨a, ha, he.symm⟩)
    have hrest := ih v₁.scope (v₁.handlers.trans hh) hk.2 w₁ hnodup.2 (hmerge.mono v₁.le) h₂
    rw [atExit_congr v₁.exits] at hrest
    obtain ⟨hlabels, d, hbody, hd⟩ := hae
    refine .cons ⟨hlabels, fun v s => ?_⟩ hrest
    rw [hbody]
    exact (lowerArm_tracks h hh w.1 hk.1.1 hd h₁ hk.1.2 (v₂.grows.trans (hg.trans hG)) s).arrives
      (v₂.grows.trans hg)

/-- A switch and its semantics select the same arm. -/
theorem execArms_tracks {default : Nat} {v : V} {s : σ}
    (hd : List.Forall₂ (fun a e => a.2.labels = e.labels ∧
      ∀ v s, Tracks I G n ⟨a.1, 0, s⟩ K X (e.body v s)) arms ds)
    (helse : ∀ s, Tracks I G n ⟨default, 0, s⟩ K X (elseD s)) :
    Tracks I G n ⟨switchTarget I (arms.map fun a => ⟨a.2.labels, a.1⟩) default v s, 0, s⟩ K X
      (execArms I elseD ds v s) := by
  induction hd with
  | nil => exact helse s
  | @cons a e rest ds hae _ ih =>
    unfold execArms
    simp only [switchTarget, map_cons, find?_cons, hae.1]
    cases hm : e.labels.any fun l => I.matchLabel l v s with
    | true => exact hae.2 v s
    | false => exact ih

theorem lowerSwitch_simulates {expr : HirExpr} {arms : List Arm} {elseBody : Option Lowering}
    (harms : ∀ a ∈ arms, a.body.Sound) (helse : ∀ k ∈ elseBody, Lowering.Sound k)
    (hd : List.Forall₂ (ArmSimulates I n exitOk) arms ds)
    (hsome : ∀ k ∈ elseBody, Simulates I n exitOk k elseD)
    (hnone : elseBody = none → elseD = pure ()) :
    Simulates I n exitOk (lowerSwitch expr arms elseBody) (execSwitch I expr ds elseD) := by
  intro st st' G c ss hinv hh a hs hG s
  simp only [lowerSwitch, bind_eq_ok] at hs
  obtain ⟨st₁, h₁, st₂, h₂, st₃, h₃, h₄⟩ := hs
  obtain ⟨w₁, hlen⟩ := switchEntry_within hinv h₁
  have hsound := switchArms_sound st harms (n := st.nextId + 2) (by omega)
  have hm : Scope.Allowed st st₁ st.nextId := Or.inl ⟨le_rfl, by omega⟩
  have v₂ := lowerArms_within w₁.scope hsound h₂ hm
  have v₃ := lowerArm_within v₂.scope (sound_getD helse) h₃ (by omega) (hm.mono v₂.le)
  have hG₃ : Grows st₃.blocks G := (CfgBuilder.startIfReached_grows h₄).trans hG
  have hdefault := switch_waiting hinv harms h₁ h₂ (i := 1) (by omega)
  have hmergeW := lowerArm_waiting v₂.scope (sound_getD helse)
    (switch_waiting hinv harms h₁ h₂ (i := 0) (by omega)) (by omega) h₃ (by omega)
  rw [hh] at hdefault hmergeW
  have hsim : Simulates I n exitOk (elseBody.getD .ok) elseD := by
    cases elseBody with
    | none =>
      rw [hnone rfl]
      exact simulates_ok
    | some k => exact hsome k rfl
  have helseT : ∀ s', Tracks I G n ⟨st.nextId + 1, 0, s'⟩ (Arrives st₃ st.nextId)
      (AtExit exitOk st) (elseD s') := by
    intro s'
    have ht := lowerArm_tracks v₂.scope (v₂.handlers.trans (w₁.handlers.trans hh)) hdefault
      (sound_getD helse) hsim h₃ (by omega) hG₃ s'
    rwa [execLeaves_nil_bind, atExit_congr (v₂.exits.trans w₁.exits)] at ht
  have harmsT := lowerArms_tracks w₁.scope (w₁.handlers.trans hh) hsound
    (forall₂_zip_range' hd (st.nextId + 2)) (fun a ha => by
      have hz := mem_range'_zip ha
      have hw := (switchEntry_after hinv h₁).2 a.1 (by omega) (by omega)
      rwa [hh] at hw)
    (by rw [map_fst_zip (by simp)]; exact nodup_range') hm h₂ v₃.grows hG₃
  rw [atExit_congr w₁.exits] at harmsT
  have hstep := step_sealed (I := I) (a.newBlocks (2 + arms.length)) h₁
    (v₂.grows.trans (v₃.grows.trans hG₃)) s
  rw [← map_uncurry_zip_eq_zipWith] at hstep
  have ht := evalIn_tracks (n := n) (f := execArms I elseD ds) hstep fun v s' =>
    ⟨_, rfl, execArms_tracks harmsT helseT⟩
  exact ht.mono (Nat.le_succ n) (fun _ b i ha => ha.atEnd hmergeW h₄) fun _ _ hx => hx

end Switch

end Constructs

end Mx

import Mx.Cfg.Simulation

/-!
# CFG construction preserves meaning

A structured body is built, and its graph shows the same events, ends in the same
way and diverges exactly when the body does, whatever the leaf statements and
expressions mean, as long as every selector whose matched value is bound gives the same
when it is evaluated twice: the graph evaluates it once more to bind it.
-/

namespace Mx

open Mx.Core

/-! ## Structured bodies are built -/

variable {x : Bool}

theorem structuredElsifs_iff {es : List (HirExpr × List HirStmt)} :
    structuredElsifs x es = true ↔ ∀ e ∈ es, structured x e.2 = true := by
  induction es with
  | nil => simp [structuredElsifs]
  | cons e es ih => simp [structuredElsifs, ih]

theorem structuredOpt_iff {o : Option (List HirStmt)} :
    structuredOpt x o = true ↔ ∀ b ∈ o, structured x b = true := by
  cases o <;> simp [structuredOpt]

theorem structuredBranches_iff {bs : List HirCaseBranch} :
    structuredBranches x bs = true ↔ ∀ b ∈ bs, b.labels ≠ [] ∧ structured x b.body = true := by
  induction bs with
  | nil => simp [structuredBranches]
  | cons b bs ih =>
    obtain ⟨labels, body⟩ := b
    simp [structuredBranches, ih]

theorem structuredTypeBranches_iff {bs : List HirTypeCaseBranch} :
    structuredTypeBranches x bs = true ↔
      ∀ b ∈ bs, b.types ≠ [] ∧ structured x b.body = true := by
  induction bs with
  | nil => simp [structuredTypeBranches]
  | cons b bs ih =>
    obtain ⟨types, var, body⟩ := b
    simp [structuredTypeBranches, ih]

/-- A structured body has its exits in loops and a shape that is accepted. -/
theorem structured_cases :
    HirStmt.Cases
      (fun ss => ∀ x l, structured x ss = true → (x = true → l = true) →
        exitsInLoops l ss = true ∧ buildable ss = true)
      (fun s => ∀ x l, structuredKind x s.kind = true → (x = true → l = true) →
        kindExitsInLoops l s.kind = true ∧ kindBuildable s.kind = true) where
  nil _ _ _ _ := ⟨rfl, rfl⟩
  cons s ss hs hss x l h hl := by
    obtain ⟨kind, loc⟩ := s
    simp only [structured, structuredStmt, Bool.and_eq_true] at h
    obtain ⟨hx, hb⟩ := hs x l h.1 hl
    obtain ⟨hxs, hbs⟩ := hss x l h.2 hl
    simp [exitsInLoops, buildable, hx, hb, hxs, hbs]
  empty _ _ _ _ _ := ⟨rfl, rfl⟩
  assign _ _ _ _ _ _ _ := ⟨rfl, rfl⟩
  procCall _ _ _ _ _ _ _ := ⟨rfl, rfl⟩
  ifStmt cond thenBody elsifs elseBody loc hthen helsifs helse x l h hl := by
    simp only [structuredKind, Bool.and_eq_true, structuredElsifs_iff, structuredOpt_iff] at h
    have ht := hthen x l h.1.1 hl
    simp only [kindExitsInLoops, kindBuildable, Bool.and_eq_true, elsifsExitsInLoops_iff,
      optExitsInLoops_iff, elsifsBuildable_iff, elseBuildable_iff]
    exact ⟨⟨⟨ht.1, fun e he => (helsifs e he x l (h.1.2 e he) hl).1⟩,
        fun b hb => (helse b hb x l (h.2 b hb) hl).1⟩,
      ⟨ht.2, fun e he => (helsifs e he x l (h.1.2 e he) hl).2⟩,
      fun b hb => (helse b hb x l (h.2 b hb) hl).2⟩
  caseStmt expr branches elseBody loc hbs helse x l h hl := by
    simp only [structuredKind, Bool.and_eq_true, structuredBranches_iff, structuredOpt_iff] at h
    simp only [kindExitsInLoops, kindBuildable, Bool.and_eq_true, branchesExitsInLoops_iff,
      optExitsInLoops_iff, branchesBuildable_iff, elseBuildable_iff]
    exact ⟨⟨fun b hb => (hbs b hb x l (h.1.2 b hb).2 hl).1,
        fun b hb => (helse b hb x l (h.2 b hb) hl).1⟩,
      ⟨h.1.1, fun b hb => ⟨(h.1.2 b hb).1, (hbs b hb x l (h.1.2 b hb).2 hl).2⟩⟩,
      fun b hb => (helse b hb x l (h.2 b hb) hl).2⟩
  whileStmt _ body _ hb x l h _ := hb false true h (by simp)
  repeatStmt body _ _ hb x l h _ := hb false true h (by simp)
  forStmt _ _ _ _ _ _ body _ hb x l h _ := hb false true h (by simp)
  loop body _ hb x l h _ := hb true true h (by simp)
  ret _ _ _ _ _ _ := ⟨rfl, rfl⟩
  exit _ x l h hl := ⟨hl h, rfl⟩
  raise _ _ _ _ h _ := by cases h
  retry _ _ _ h _ := by cases h
  tryStmt _ _ _ _ _ _ _ _ _ h _ := by cases h
  lock _ _ _ _ _ _ h _ := by cases h
  typeCase expr branches elseBody loc hbs helse x l h hl := by
    simp only [structuredKind, Bool.and_eq_true, structuredTypeBranches_iff, structuredOpt_iff] at h
    simp only [kindExitsInLoops, kindBuildable, Bool.and_eq_true, typeBranchesExitsInLoops_iff,
      optExitsInLoops_iff, typeBranchesBuildable_iff, elseBuildable_iff]
    exact ⟨⟨fun b hb => (hbs b hb x l (h.1.2 b hb).2 hl).1,
        fun b hb => (helse b hb x l (h.2 b hb) hl).1⟩,
      ⟨h.1.1, fun b hb => ⟨(h.1.2 b hb).1, (hbs b hb x l (h.1.2 b hb).2 hl).2⟩⟩,
      fun b hb => (helse b hb x l (h.2 b hb) hl).2⟩

/-! ## Statements simulate -/

section Statements

variable {σ V : Type} {I : Interp σ V} {n : Nat}

theorem simulates_elsifs {es : List (HirExpr × List HirStmt)}
    (h : ∀ e ∈ es, Simulates I n x (lowerStmts e.2) (execStmts I (bindAgain I) n e.2)) :
    List.Forall₂ (fun e d => e.1 = d.1 ∧ Simulates I n x e.2 d.2) (elsifLowerings es)
      (execElsifs I (bindAgain I) n es) := by
  induction es with
  | nil => exact .nil
  | cons e es ih =>
    obtain ⟨cond, body⟩ := e
    rw [List.forall_mem_cons] at h
    exact .cons ⟨rfl, h.1⟩ (ih h.2)

theorem simulates_opt {o : Option (List HirStmt)}
    (h : ∀ b ∈ o, Simulates I n x (lowerStmts b) (execStmts I (bindAgain I) n b)) :
    (∀ k ∈ optLowering o, Simulates I n x k (execOpt I (bindAgain I) n o)) ∧
      (optLowering o = none → execOpt I (bindAgain I) n o = pure ()) := by
  cases o with
  | none => simp [optLowering, execOpt]
  | some b =>
    have hb := h b rfl
    simpa [optLowering, execOpt] using hb

theorem simulates_caseArms {bs : List HirCaseBranch}
    (h : ∀ b ∈ bs, Simulates I n x (lowerStmts b.body) (execStmts I (bindAgain I) n b.body)) :
    List.Forall₂ (ArmSimulates I n x) (caseArms bs) (execBranches I (bindAgain I) n bs) := by
  induction bs with
  | nil => exact .nil
  | cons b bs ih =>
    obtain ⟨labels, body⟩ := b
    rw [List.forall_mem_cons] at h
    exact .cons ⟨rfl, _, fun _ => (execLeaves_nil_bind _).symm, h.1⟩ (ih h.2)

theorem simulates_typeArms {expr : HirExpr} {bs : List HirTypeCaseBranch}
    (h : ∀ b ∈ bs, Simulates I n x (lowerStmts b.body) (execStmts I (bindAgain I) n b.body)) :
    List.Forall₂ (ArmSimulates I n x) (typeArms expr bs)
      (execTypeBranches I (bindAgain I) n expr bs) := by
  induction bs with
  | nil => exact .nil
  | cons b bs ih =>
    obtain ⟨types, var, body⟩ := b
    rw [List.forall_mem_cons] at h
    exact .cons ⟨rfl, _, fun _ => rfl, h.1⟩ (ih h.2)

/-- A statement is lowered by its form when the builder is open. -/
theorem simulates_of_kind {s : HirStmt} {d : Exec σ V Unit}
    (h : Simulates I n x (lowerKind s.kind s.loc) d) : Simulates I n x (lowerStmt s) d := by
  obtain ⟨kind, loc⟩ := s
  intro st st' G c ss hinv hh a hs hG s
  rw [lowerStmt, a.isOpen, if_pos rfl] at hs
  exact h st st' G c ss hinv hh a hs hG s

/-- The code of a structured body follows its meaning. -/
theorem simulates_cases :
    HirStmt.Cases
      (fun ss => ∀ x, structured x ss = true →
        Simulates I n x (lowerStmts ss) (execStmts I (bindAgain I) n ss))
      (fun s => ∀ x, structuredKind x s.kind = true →
        Simulates I n x (lowerKind s.kind s.loc) (execKind I (bindAgain I) n s.kind s.loc)) where
  nil _ _ := simulates_ok
  cons s ss hs hss x h := by
    obtain ⟨kind, loc⟩ := s
    simp only [structured, structuredStmt, Bool.and_eq_true] at h
    exact simulates_seq (lowerStmt_sound _) (lowerStmts_sound ss)
      (simulates_of_kind (hs x h.1)) (hss x h.2)
  empty _ _ _ := simulates_ok
  assign _ _ _ _ _ := simulates_push _
  procCall _ _ _ _ _ := simulates_push _
  ifStmt cond thenBody elsifs elseBody loc hthen helsifs helse x h := by
    simp only [structuredKind, Bool.and_eq_true, structuredElsifs_iff, structuredOpt_iff] at h
    obtain ⟨hsome, hnone⟩ := simulates_opt fun b hb => helse b hb x (h.2 b hb)
    exact lowerIf_simulates (lowerStmts_sound thenBody) (sound_elsifs elsifs) (sound_opt elseBody)
      (hthen x h.1.1) (simulates_elsifs fun e he => helsifs e he x (h.1.2 e he)) hsome hnone
  caseStmt expr branches elseBody loc hbs helse x h := by
    simp only [structuredKind, Bool.and_eq_true, structuredBranches_iff, structuredOpt_iff] at h
    obtain ⟨hsome, hnone⟩ := simulates_opt fun b hb => helse b hb x (h.2 b hb)
    change Simulates I n x (lowerCase expr (branchLowerings branches) (optLowering elseBody)) _
    rw [lowerCase_eq]
    exact lowerSwitch_simulates (sound_caseArms branches) (sound_opt elseBody)
      (simulates_caseArms fun b hb => hbs b hb x (h.1.2 b hb).2) hsome hnone
  whileStmt _ body _ hb x h := lowerWhile_simulates (lowerStmts_sound body) (hb false h)
  repeatStmt body _ _ hb x h := lowerRepeat_simulates (lowerStmts_sound body) (hb false h)
  forStmt _ _ _ _ _ _ body _ hb x h := lowerFor_simulates (lowerStmts_sound body) (hb false h)
  loop body _ hb x h := lowerLoop_simulates (lowerStmts_sound body) (hb true h)
  ret _ _ _ _ := simulates_return _
  exit _ x h := by
    obtain rfl : x = true := h
    exact simulates_exit
  raise _ _ _ h := by cases h
  retry _ _ h := by cases h
  tryStmt _ _ _ _ _ _ _ _ h := by cases h
  lock _ _ _ _ _ h := by cases h
  typeCase expr branches elseBody loc hbs helse x h := by
    simp only [structuredKind, Bool.and_eq_true, structuredTypeBranches_iff, structuredOpt_iff] at h
    obtain ⟨hsome, hnone⟩ := simulates_opt fun b hb => helse b hb x (h.2 b hb)
    change Simulates I n x
      (lowerTypecase expr (typeBranchLowerings branches) (optLowering elseBody)) _
    rw [lowerTypecase_eq]
    exact lowerSwitch_simulates (sound_typeArms expr branches) (sound_opt elseBody)
      (simulates_typeArms fun b hb => hbs b hb x (h.1.2 b hb).2) hsome hnone

end Statements

/-! ## Computations that agree -/

/-- The second computation does what the first one does wherever that is defined. -/
def Exec.Agrees {σ V α : Type} (m m' : Exec σ V α) : Prop :=
  ∀ s, (m s).2 ≠ .undefined → m' s = m s

namespace Exec

variable {σ V α β : Type} {m m' : Exec σ V α}

/-- A computation agrees with itself. -/
theorem Agrees.refl (m : Exec σ V α) : m.Agrees m := fun _ _ => rfl

/-- Computations that agree can be continued by computations that agree. -/
theorem Agrees.bind {f f' : α → Exec σ V β} (h : m.Agrees m') (hf : ∀ a, (f a).Agrees (f' a)) :
    Agrees (m >>= f) (m' >>= f') := by
  intro s hs
  change (Exec.bind m f s).2 ≠ .undefined at hs
  change Exec.bind m' f' s = Exec.bind m f s
  have hm : (m s).2 ≠ .undefined := by
    intro hu
    apply hs
    unfold Exec.bind
    rcases hr : m s with ⟨es, o⟩
    rw [hr] at hu
    cases hu
    rfl
  unfold Exec.bind at hs ⊢
  rw [h s hm]
  rcases hr : m s with ⟨es, o⟩
  rw [hr] at hs
  cases o with
  | done a s' =>
    simp only at hs ⊢
    rw [hf a s' hs]
  | exit s' | returned v s' | raised s' | timeout | undefined => rfl

/-- Catching an `EXIT` keeps agreement. -/
theorem Agrees.catchExit {m m' : Exec σ V Unit} (h : m.Agrees m') :
    m.catchExit.Agrees m'.catchExit := by
  intro s hs
  have hm : (m s).2 ≠ .undefined := by
    intro hu
    apply hs
    unfold Exec.catchExit
    rcases hr : m s with ⟨es, o⟩
    rw [hr] at hu
    cases hu
    rfl
  unfold Exec.catchExit
  rw [h s hm]

end Exec

section Agrees

open Exec

variable {σ V : Type} {I : Interp σ V} {n : Nat}

theorem agrees_execIf {d d' : Exec σ V Unit} {bs bs' : List (HirExpr × Exec σ V Unit)}
    (hd : d.Agrees d') (hbs : List.Forall₂ (fun b b' => b.1 = b'.1 ∧ b.2.Agrees b'.2) bs bs') :
    (execIf I d bs).Agrees (execIf I d' bs') := by
  induction hbs with
  | nil => exact hd
  | @cons b b' bs bs' hb _ ih =>
    obtain ⟨cond, body⟩ := b
    obtain ⟨cond', body'⟩ := b'
    obtain ⟨rfl, hbody⟩ := hb
    refine (Agrees.refl _).bind fun c => ?_
    cases c with
    | true => exact hbody
    | false => exact ih

theorem agrees_execWhile {cond : Exec σ V Bool} {d d' : Exec σ V Unit} (hd : d.Agrees d') :
    (execWhile cond d n).Agrees (execWhile cond d' n) := by
  induction n with
  | zero => exact .refl _
  | succ n ih =>
    refine (Agrees.refl _).bind fun c => ?_
    cases c with
    | true => exact hd.bind fun _ => ih
    | false => exact .refl _

theorem agrees_execForever {d d' : Exec σ V Unit} (hd : d.Agrees d') :
    (execForever d n).Agrees (execForever d' n) := by
  induction n with
  | zero => exact .refl _
  | succ n ih => exact hd.bind fun _ => ih

theorem agrees_execRepeat {cond : Exec σ V Bool} {d d' : Exec σ V Unit} (hd : d.Agrees d') :
    (execRepeat d cond n).Agrees (execRepeat d' cond n) := by
  induction n with
  | zero => exact .refl _
  | succ n ih =>
    refine hd.bind fun _ => (Agrees.refl _).bind fun c => ?_
    cases c with
    | true => exact .refl _
    | false => exact ih

/-- A switch agrees with one that has the same labels and arms that agree. -/
theorem agrees_execSwitch {expr : HirExpr} {d d' : Exec σ V Unit} {as as' : List (ExecArm σ V)}
    (hd : d.Agrees d') (has : List.Forall₂
      (fun a a' => a.labels = a'.labels ∧ ∀ v, (a.body v).Agrees (a'.body v)) as as') :
    (execSwitch I expr as d).Agrees (execSwitch I expr as' d') := by
  refine (Agrees.refl _).bind fun v => ?_
  induction has with
  | nil => exact hd
  | @cons a a' as as' ha _ ih =>
    intro s hs
    unfold execArms at hs ⊢
    rw [← ha.1]
    cases hm : a.labels.any fun l => I.matchLabel l v s with
    | true =>
      simp only [hm, if_true] at hs ⊢
      exact ha.2 v s hs
    | false =>
      simp only [hm, Bool.false_eq_true, if_false] at hs ⊢
      exact ih s hs

variable {B B' : Binder σ V} (hB : ∀ expr var v, (B expr var v).Agrees (B' expr var v))

include hB

theorem agrees_elsifs {es : List (HirExpr × List HirStmt)}
    (h : ∀ e ∈ es, (execStmts I B n e.2).Agrees (execStmts I B' n e.2)) :
    List.Forall₂ (fun b b' => b.1 = b'.1 ∧ b.2.Agrees b'.2) (execElsifs I B n es)
      (execElsifs I B' n es) := by
  induction es with
  | nil => exact .nil
  | cons e es ih =>
    rw [List.forall_mem_cons] at h
    exact .cons ⟨rfl, h.1⟩ (ih h.2)

theorem agrees_opt {o : Option (List HirStmt)}
    (h : ∀ b ∈ o, (execStmts I B n b).Agrees (execStmts I B' n b)) :
    (execOpt I B n o).Agrees (execOpt I B' n o) := by
  cases o with
  | none => exact .refl _
  | some b => exact h b rfl

theorem agrees_branches {bs : List HirCaseBranch}
    (h : ∀ b ∈ bs, (execStmts I B n b.body).Agrees (execStmts I B' n b.body)) :
    List.Forall₂ (fun a a' => a.labels = a'.labels ∧ ∀ v, (a.body v).Agrees (a'.body v))
      (execBranches I B n bs) (execBranches I B' n bs) := by
  induction bs with
  | nil => exact .nil
  | cons b bs ih =>
    obtain ⟨labels, body⟩ := b
    rw [List.forall_mem_cons] at h
    exact .cons ⟨rfl, fun _ => h.1⟩ (ih h.2)

theorem agrees_typeBranches {expr : HirExpr} {bs : List HirTypeCaseBranch}
    (h : ∀ b ∈ bs, (execStmts I B n b.body).Agrees (execStmts I B' n b.body)) :
    List.Forall₂ (fun a a' => a.labels = a'.labels ∧ ∀ v, (a.body v).Agrees (a'.body v))
      (execTypeBranches I B n expr bs) (execTypeBranches I B' n expr bs) := by
  induction bs with
  | nil => exact .nil
  | cons b bs ih =>
    obtain ⟨types, var, body⟩ := b
    rw [List.forall_mem_cons] at h
    exact .cons ⟨rfl, fun v => (hB _ _ v).bind fun _ => h.1⟩ (ih h.2)

/-- Binders that agree give statements that agree. -/
theorem agrees_cases :
    HirStmt.Cases (fun ss => (execStmts I B n ss).Agrees (execStmts I B' n ss))
      (fun s => (execKind I B n s.kind s.loc).Agrees (execKind I B' n s.kind s.loc)) where
  nil := .refl _
  cons s ss hs hss := by
    obtain ⟨kind, loc⟩ := s
    exact Agrees.bind hs fun _ => hss
  empty _ := .refl _
  assign _ _ _ := .refl _
  procCall _ _ _ := .refl _
  ifStmt _ _ _ _ _ hthen helsifs helse :=
    agrees_execIf (agrees_opt hB helse) (.cons ⟨rfl, hthen⟩ (agrees_elsifs hB helsifs))
  caseStmt _ _ _ _ hbs helse := agrees_execSwitch (agrees_opt hB helse) (agrees_branches hB hbs)
  whileStmt _ _ _ hb := agrees_execWhile hb
  repeatStmt _ _ _ hb := agrees_execRepeat hb
  forStmt _ _ _ _ _ _ _ _ hb :=
    (Agrees.refl _).bind fun _ => agrees_execWhile (hb.bind fun _ => .refl _)
  loop _ _ hb := (agrees_execForever hb).catchExit
  ret _ _ := .refl _
  exit _ := .refl _
  raise _ _ := .refl _
  retry _ := .refl _
  tryStmt _ _ _ _ _ _ _ := .refl _
  lock _ _ _ _ := .refl _
  typeCase _ _ _ _ hbs helse :=
    agrees_execSwitch (agrees_opt hB helse) (agrees_typeBranches hB hbs)

end Agrees

/-- In every binding of the run, the selector gives the matched value when it is evaluated
once more, and leaves the store that binding this value leaves. -/
def BindsAlike {σ V : Type} (I : Interp σ V) (bind : String → V → σ → σ) (body : List HirStmt)
    (s : σ) : Prop :=
  ∀ n, (execStmts I (bindAlike I bind) n body s).2 ≠ .undefined

/-- Binding the matched value and evaluating the selector again are then the same. -/
theorem BindsAlike.execBody_eq {σ V : Type} {I : Interp σ V} {bind : String → V → σ → σ}
    {body : List HirStmt} {s : σ} (h : BindsAlike I bind body s) :
    execBody I (bindMatched bind) body s = execBody I (bindAgain I) body s := by
  have hmatched : ∀ expr var v,
      (bindAlike I bind expr var v).Agrees (bindMatched bind expr var v) := by
    intro expr var v s hs
    unfold bindAlike at hs ⊢
    split_ifs at hs ⊢ with heq
    · rfl
    · exact absurd rfl hs
  have hagain : ∀ expr var v, (bindAlike I bind expr var v).Agrees (bindAgain I expr var v) := by
    intro expr var v s hs
    unfold bindAlike at hs ⊢
    split_ifs at hs ⊢ with heq
    · exact heq
    · exact absurd rfl hs
  funext n
  unfold execBody
  rw [(agrees_cases hmatched).stmts body s (h n), (agrees_cases hagain).stmts body s (h n)]

/-! ## Whole bodies -/

section Body

variable {σ V : Type}

/-- A body that completes leaves a block open, and the graph returns there. -/
theorem atEnd_returns {I : Interp σ V} {st : CfgBuilder} {b i : Nat} (h : AtEnd st () b i) (s : σ) :
    (machine I (st.blocks.map BasicBlock.close)).step ⟨b, i, s⟩ =
      ([], .inr (.returned none s)) := by
  obtain ⟨ss, a, rfl⟩ := h
  simp [machine, stepBlocks, a.block, BasicBlock.close, stepTerminator]

/-- The graph of a structured body follows the bounded interpreter of the body. -/
theorem execBody_follows {body : List HirStmt} {st : CfgBuilder} (I : Interp σ V)
    (hb : structured false body = true) (hst : lowerStmts body CfgBuilder.new = .ok st) (s : σ) :
    (machine I (st.blocks.map BasicBlock.close)).Follows ⟨0, 0, s⟩
        (execBody I (bindAgain I) body s) := by
  have hnew : CfgBuilder.new.At 0 [] none := ⟨rfl, rfl⟩
  have htracks := fun n => (simulates_cases (I := I) (n := n)).stmts body false hb
    CfgBuilder.new st (st.blocks.map BasicBlock.close) 0 [] CfgBuilder.inv_new rfl hnew hst
    (grows_close st.blocks) s
  constructor
  · intro n es r hr
    have ht := htracks n
    unfold execBody at hr
    rcases hm : execStmts I (bindAgain I) n body s with ⟨es', o⟩
    rw [hm] at ht hr
    cases o with
    | done a s' =>
      obtain ⟨rfl, rfl⟩ : es' = es ∧ Result.returned none s' = r := by simpa using hr
      obtain ⟨m, b, i, hend, hs⟩ := ht
      have hh := hs.halts (Machine.halts_one (atEnd_returns hend s'))
      rwa [List.append_nil] at hh
    | exit s' =>
      obtain ⟨_, _, _, hx, _⟩ := ht
      simp [AtExit] at hx
    | returned v s' =>
      obtain ⟨rfl, rfl⟩ : es' = es ∧ Result.returned v s' = r := by simpa using hr
      exact ht
    | raised s' =>
      obtain ⟨rfl, rfl⟩ : es' = es ∧ Result.raised s' = r := by simpa using hr
      exact ht
    | timeout => simp at hr
    | undefined => exact ht.elim
  · intro n es hr
    have ht := htracks n
    unfold execBody at hr
    rcases hm : execStmts I (bindAgain I) n body s with ⟨es', o⟩
    rw [hm] at ht hr
    cases o with
    | timeout =>
      obtain rfl : es' = es := by simpa using hr
      obtain ⟨m, c', hle, hs⟩ := ht
      exact ⟨m, c', hle, hs⟩
    | _ => simp at hr

/-- The graph of a structured body does what the body does when every binding evaluates the
selector again. -/
theorem buildCfg_follows (body : List HirStmt) (hb : structured false body = true) :
    ∃ cfg, buildCfg body = .ok cfg ∧ ∀ (σ V : Type) (I : Interp σ V) (s : σ),
      (machine I cfg.blocks).Follows ⟨0, 0, s⟩ (execBody I (bindAgain I) body s) := by
  obtain ⟨hexits, hbuild⟩ := structured_cases.stmts body false false hb (by simp)
  obtain ⟨cfg, hcfg⟩ := buildCfg_total hexits hbuild
  obtain ⟨st, hst, _, hblocks, _⟩ := buildCfg_eq_ok hcfg
  refine ⟨cfg, hcfg, fun σ V I s => ?_⟩
  rw [hblocks]
  exact execBody_follows I hb hst s

/-- `build_cfg` preserves meaning: for every interpretation of leaf statements and
expressions and every store from which the selectors that are bound evaluate alike twice,
the graph executed from block 0 shows the same events and ends with the same result as the
structured semantics of the body, one diverges exactly when the other does, and what can be
observed of the two on the way is the same. -/
theorem buildCfg_preserves_meaning (body : List HirStmt) (hb : structured false body = true) :
    ∃ cfg, buildCfg body = .ok cfg ∧
      ∀ (σ V : Type) (I : Interp σ V) (bind : String → V → σ → σ) (s : σ),
        BindsAlike I bind body s →
        (∀ es r, (∃ n, execBody I (bindMatched bind) body s n = (es, some r)) ↔
          (machine I cfg.blocks).Halts ⟨0, 0, s⟩ es r) ∧
        ((∀ n, (execBody I (bindMatched bind) body s n).2 = none) ↔
          (machine I cfg.blocks).Diverges ⟨0, 0, s⟩) ∧
        ∀ es, (∃ n, es <+: (execBody I (bindMatched bind) body s n).1) ↔
          ∃ n, es <+: ((machine I cfg.blocks).run n ⟨0, 0, s⟩).1 := by
  obtain ⟨cfg, hcfg, hfollows⟩ := buildCfg_follows body hb
  refine ⟨cfg, hcfg, fun σ V I bind s halike => ?_⟩
  have h := hfollows σ V I s
  rw [← halike.execBody_eq] at h
  exact ⟨fun es r => h.halts_iff, h.diverges_iff, fun es => h.events_iff⟩

/-- `TYPECASE 0 OF T(v): END`. -/
def typecaseBinding : List HirStmt :=
  [⟨.typeCase (intExpr 0) [⟨[localSym "T" 0], some "v", []⟩] none, .cfg⟩]

/-- A number that every evaluation takes the next of, if so, and a variable. -/
def counting (next : Nat) : Interp (Nat × Nat) Nat where
  exec _ s := .ok (s.1 + next, s.1)
  eval _ s := .ok (s.1, (s.1 + next, s.2))
  raise _ s := s
  truth _ := true
  matchLabel _ _ _ := true

/-- Assign to the variable of `counting`. -/
def bindCounting (_ : String) (v : Nat) (s : Nat × Nat) : Nat × Nat := (s.1, v)

/-- A selector that gives the same again is bound alike. -/
theorem buildCfg_preserves_meaning_typecaseBinding :
    structured false typecaseBinding = true ∧
      BindsAlike (counting 0) bindCounting typecaseBinding (5, 0) ∧
      ∃ cfg, buildCfg typecaseBinding = .ok cfg ∧
        (machine (counting 0) cfg.blocks).Halts ⟨0, 0, (5, 0)⟩
          [.eval (intExpr 0), .stmt (assignVar "v" tyAddress (intExpr 0))]
          (.returned none (5, 5)) := by
  have halike : BindsAlike (counting 0) bindCounting typecaseBinding (5, 0) := by
    intro n hn
    have hbind : bindAlike (counting 0) bindCounting (intExpr 0) (some "v") 5 (5, 0) =
        bindMatched bindCounting (intExpr 0) (some "v") 5 (5, 0) := if_pos rfl
    -- the run binds once, in the store it starts from
    have honce : ∀ B : Binder (Nat × Nat) Nat, execStmts (counting 0) B n typecaseBinding (5, 0) =
        execStmts (counting 0) (fun _ _ _ _ => B (intExpr 0) (some "v") 5 (5, 0)) n
          typecaseBinding (5, 0) := fun B => rfl
    have hrun : execStmts (counting 0) (bindAlike (counting 0) bindCounting) n typecaseBinding
        (5, 0) = execStmts (counting 0) (bindMatched bindCounting) n typecaseBinding (5, 0) := by
      rw [honce, hbind, ← honce]
    rw [hrun] at hn
    cases hn
  obtain ⟨cfg, hcfg, h⟩ := buildCfg_preserves_meaning typecaseBinding rfl
  exact ⟨rfl, halike, cfg, hcfg, ((h _ _ _ _ _ halike).1 _ _).mp ⟨0, rfl⟩⟩

/-- A selector that gives another value the second time is bound to that value. -/
theorem not_buildCfg_preserves_meaning :
    ¬ ∀ body, structured false body = true → ∃ cfg, buildCfg body = .ok cfg ∧
      ∀ (σ V : Type) (I : Interp σ V) (bind : String → V → σ → σ) (s : σ) es r,
        (∃ n, execBody I (bindMatched bind) body s n = (es, some r)) ↔
          (machine I cfg.blocks).Halts ⟨0, 0, s⟩ es r := by
  intro h
  obtain ⟨cfg, hcfg, hiff⟩ := h typecaseBinding rfl
  obtain ⟨cfg', hcfg', hfollows⟩ := buildCfg_follows typecaseBinding rfl
  obtain rfl := Except.ok.inj (hcfg.symm.trans hcfg')
  have hhalts := (hiff _ _ (counting 1) bindCounting (5, 0) _ _).mp ⟨0, rfl⟩
  obtain ⟨n, hn⟩ := (hfollows _ _ (counting 1) (5, 0)).halts_iff.mpr hhalts
  cases hn

end Body

end Mx

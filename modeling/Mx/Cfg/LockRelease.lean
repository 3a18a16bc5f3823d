import Mx.Cfg.Region

/-!
# When a `LOCK` releases its mutex

The release is appended after the body, if the body leaves the builder open. So control
that leaves the statement has released the mutex exactly if it fell through the end of
the statement: a `RETURN`, an `EXIT` or an exception skips the release.
-/

namespace Mx

open Mx.Core

/-- The point of the release of a `LOCK` that ends in `st'`, if there is one. -/
def unlockPoint (st' : CfgBuilder) : Option Point :=
  st'.current.map fun b => ⟨b, st'.fill b - 1⟩

/-- How often the statement at the point is executed. -/
def executions (p : Option Point) (ms : List (Point × Move)) : Nat :=
  ms.countP fun x => decide (some x.1 = p) && match x.2 with | .stmt _ => true | _ => false

section Lock

variable {body lockBody ss : List HirStmt} {cfg : Cfg} {mutex : HirExpr} {loc : SourceLoc}
  {c : List Nat} {st st' : CfgBuilder} {G : List BasicBlock} {b : Nat}

/-- The calls a lowered `LOCK` leaves in the graph: the acquisition where it starts, and the
release at the point before its end. -/
theorem lock_calls (r : Site.Runs ⟨⟨.lock mutex lockBody, loc⟩ :: ss, c, st⟩ G)
    (hs : lowerStmt ⟨.lock mutex lockBody, loc⟩ st = .ok st') (hb : st.current = some b) :
    (∃ block, G[b]? = some block ∧ block.stmts[st.fill b]? = some (lockCall mutex loc)) ∧
      ∀ p, unlockPoint st' = some p → p.pos + 1 = st'.fill p.block ∧
        ∃ block, G[p.block]? = some block ∧
          block.stmts[p.pos]? = some (unlockCall mutex loc) := by
  have hinv := r.runs.inv
  obtain ⟨⟨_, _, st₂, hrun, hG⟩, _, _⟩ := r
  simp only [lowerStmts, bind_eq_ok] at hrun
  obtain ⟨st₁, h₁, h₂⟩ := hrun
  obtain rfl := Except.ok.inj (hs.symm.trans h₁)
  have hG' : Grows st'.blocks G :=
    (lowerStmts_sound ss st' st₂ (lowerStmt_sound _ st st' hinv hs).scope.inv h₂).grows.trans hG
  rw [lowerStmt, if_pos (by rw [CfgBuilder.isOpen, hb]; rfl)] at hs
  simp only [lowerKind, lowerLock, bind_eq_ok, pure_eq_ok] at hs
  obtain ⟨st₃, h₃, hst'⟩ := hs
  have hsc := (Scope.refl hinv).pushStmt (lockCall mutex loc)
  have w := lowerStmts_sound lockBody _ _ hsc.inv h₃
  have hG₃ : Grows st₃.blocks G := by
    refine Grows.trans ?_ hG'
    rw [← hst']
    split
    · exact ((Scope.refl w.scope.inv).pushStmt _).grows
    · exact Grows.refl _
  refine ⟨CfgBuilder.pushStmt_stays hinv hb (w.grows.trans hG₃), fun p hp => ?_⟩
  cases hopen : st₃.isOpen with
  | false =>
    obtain rfl : st₃ = st' := by simpa [hopen] using hst'
    have hnone : st₃.current = none := by simpa [CfgBuilder.isOpen] using hopen
    simp [unlockPoint, hnone] at hp
  | true =>
    obtain rfl : st₃.pushStmt (unlockCall mutex loc) = st' := by simpa [hopen] using hst'
    obtain ⟨b', hb'⟩ := Option.isSome_iff_exists.mp hopen
    have hfill := CfgBuilder.fill_pushStmt w.scope.inv hb' (unlockCall mutex loc)
    simp only [unlockPoint, CfgBuilder.pushStmt_current, hb', Option.map_some, Option.some.injEq]
      at hp
    subst hp
    rw [hfill, Nat.add_sub_cancel]
    exact ⟨rfl, CfgBuilder.pushStmt_stays w.scope.inv hb' hG'⟩

/-- The release is the last statement of a `LOCK`: executing it leaves the statement. -/
theorem unlock_leaves {p : Point} (hp : unlockPoint st' = some p)
    (hpos : p.pos + 1 = st'.fill p.block) : ¬ Inside st st' ⟨p.block, p.pos + 1⟩ := by
  rintro ⟨-, hout⟩
  obtain ⟨b', hb', rfl⟩ := Option.map_eq_some_iff.mp hp
  have hlt : st'.fill b' - 1 + 1 < st'.fill b' := hout hb'
  have hlast : st'.fill b' - 1 + 1 = st'.fill b' := hpos
  omega

theorem executions_inside {p : Point} {ms : List (Point × Move)} {q : Point} {m : Move}
    (hl : Leaves G (Inside st st') p ms q m)
    (hunlock : ∀ u, unlockPoint st' = some u → u.pos + 1 = st'.fill u.block) :
    executions (unlockPoint st') ms = 0 := by
  rw [executions, List.countP_eq_zero]
  rintro ⟨x, mx⟩ hx hcount
  obtain ⟨r, hr, hin⟩ := hl.target_inside _ hx
  rw [Bool.and_eq_true, decide_eq_true_eq] at hcount
  obtain ⟨hpoint, hstmt⟩ := hcount
  cases mx with
  | stmt s =>
    cases hr.stmt_target
    exact unlock_leaves hpoint.symm (hunlock x hpoint.symm) hin
  | _ => simp at hstmt

/-- On every path from the acquisition to a move that leaves the `LOCK` statement, the
release is executed exactly once if and only if that move completes a statement, that is,
if control falls through the end of the `LOCK`. -/
theorem lock_released_iff (hcfg : buildCfg body = .ok cfg)
    (hsite : Lowered body ⟨⟨.lock mutex lockBody, loc⟩ :: ss, c, st⟩)
    (hs : lowerStmt ⟨.lock mutex lockBody, loc⟩ st = .ok st') (hb : st.current = some b) :
    (∃ block, cfg.blocks[b]? = some block ∧
      block.stmts[st.fill b]? = some (lockCall mutex loc)) ∧
    (∀ p, unlockPoint st' = some p → ∃ block, cfg.blocks[p.block]? = some block ∧
      block.stmts[p.pos]? = some (unlockCall mutex loc)) ∧
    ∀ ms q m, Leaves cfg.blocks (Inside st st') ⟨b, st.fill b + 1⟩ ms q m →
      (executions (unlockPoint st') (ms ++ [(q, m)]) = 1 ↔ ∃ s, m = .stmt s) := by
  obtain ⟨hlock, hunlock⟩ := lock_calls (hsite.runs hcfg) hs hb
  refine ⟨hlock, fun p hp => (hunlock p hp).2, fun ms q m hl => ?_⟩
  have hzero := executions_inside hl fun u hu => (hunlock u hu).1
  have hsplit : executions (unlockPoint st') (ms ++ [(q, m)]) =
      executions (unlockPoint st') [(q, m)] := by
    rw [executions, List.countP_append]
    rw [executions] at hzero
    rw [hzero, Nat.zero_add, executions]
  rw [hsplit]
  constructor
  · intro hone
    cases m with
    | stmt s => exact ⟨s, rfl⟩
    | _ => simp [executions] at hone
  · rintro ⟨s, rfl⟩
    obtain ⟨r, hm, hout⟩ := hl.leaves
    have hnext := hout _ hm.stmt_target
    obtain ⟨hcur, hfill⟩ := hl.last.last_of_stmt hnext
    have hpoint : unlockPoint st' = some q := by
      rw [unlockPoint, hcur, Option.map_some, ← hfill, Nat.add_sub_cancel]
    simp [executions, hpoint]

end Lock

/-- The mutex `m`. -/
def mutexM : HirExpr := ⟨.place (localPlace "m" 0), 0, .cfg⟩

/-- `LOCK m DO x := 1 END`. -/
def lockAssign : HirStmt := ⟨.lock mutexM [assignVar "x" 0 (intExpr 1)], .cfg⟩

/-- The builder after `lockAssign`. -/
def lockAssignEnd : CfgBuilder where
  blocks := [⟨0, [lockCall mutexM .cfg, assignVar "x" 0 (intExpr 1), unlockCall mutexM .cfg],
    none, none⟩]
  current := some 0
  loopExitStack := []
  handlerStack := []

/-- The graph of `lockAssign`. -/
def lockAssignCfg : Cfg where
  blocks := [⟨0, [lockCall mutexM .cfg, assignVar "x" 0 (intExpr 1), unlockCall mutexM .cfg],
    some (.ret none), none⟩]
  entry := 0
  preds := [[]]
  predsValid := true

theorem inside_lockAssign {k : Nat} :
    Inside CfgBuilder.new lockAssignEnd ⟨0, k⟩ ↔ k < 3 := by
  constructor
  · rintro ⟨-, hout⟩
    exact hout rfl
  · intro hk
    exact ⟨Or.inl ⟨rfl, Nat.zero_le k⟩, fun _ => hk⟩

/-- The path through the body of `lockAssign` and its release. -/
theorem leaves_lockAssign :
    Leaves lockAssignCfg.blocks (Inside CfgBuilder.new lockAssignEnd) ⟨0, 1⟩
      [(⟨0, 1⟩, .stmt (assignVar "x" 0 (intExpr 1)))] ⟨0, 2⟩ (.stmt (unlockCall mutexM .cfg)) := by
  refine ⟨.tail .refl (.stmt rfl rfl), ?_, inside_lockAssign.mpr (by decide), _, .stmt rfl rfl, ?_⟩
  · intro x hx
    obtain rfl := List.mem_singleton.mp hx
    exact inside_lockAssign.mpr (by decide)
  · rintro r' ⟨⟩ hin
    exact absurd (inside_lockAssign.mp hin) (by decide)

theorem released_lockAssign :
    executions (unlockPoint lockAssignEnd)
      ([(⟨0, 1⟩, .stmt (assignVar "x" 0 (intExpr 1)))] ++
        [(⟨0, 2⟩, .stmt (unlockCall mutexM .cfg))]) = 1 := by
  have hbuild : buildCfg [lockAssign] = .ok lockAssignCfg := rfl
  have hs : lowerStmt lockAssign CfgBuilder.new = .ok lockAssignEnd := rfl
  have h := (lock_released_iff hbuild .refl hs rfl).2.2
  exact (h _ _ _ leaves_lockAssign).mpr ⟨_, rfl⟩

/-- `LOCK m DO RETURN END`. -/
def lockReturn : HirStmt := ⟨.lock mutexM [⟨.ret none, .cfg⟩], .cfg⟩

/-- The builder after `lockReturn`. -/
def lockReturnEnd : CfgBuilder where
  blocks := [⟨0, [lockCall mutexM .cfg], some (.ret none), none⟩]
  current := none
  loopExitStack := []
  handlerStack := []

/-- The graph of `lockReturn`. -/
def lockReturnCfg : Cfg where
  blocks := [⟨0, [lockCall mutexM .cfg], some (.ret none), none⟩]
  entry := 0
  preds := [[]]
  predsValid := true

/-- A `RETURN` in a `LOCK` leaves it without the release. -/
theorem not_released_lockReturn :
    buildCfg [lockReturn] = .ok lockReturnCfg ∧
      lowerStmt lockReturn CfgBuilder.new = .ok lockReturnEnd ∧
      ∃ ms q m, Leaves lockReturnCfg.blocks (Inside CfgBuilder.new lockReturnEnd) ⟨0, 1⟩ ms q m ∧
        executions (unlockPoint lockReturnEnd) (ms ++ [(q, m)]) ≠ 1 := by
  have hin : Inside CfgBuilder.new lockReturnEnd ⟨0, 1⟩ :=
    ⟨Or.inl ⟨rfl, Nat.zero_le 1⟩, fun h => by cases h⟩
  refine ⟨rfl, rfl, [], ⟨0, 1⟩, .ret none, ⟨.refl, by simp, hin, none, .ret rfl rfl rfl, ?_⟩, ?_⟩
  · rintro r' ⟨⟩
  · decide

end Mx

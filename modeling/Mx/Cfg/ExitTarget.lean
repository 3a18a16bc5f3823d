import Mx.Cfg.Region

/-!
# Where an `EXIT` leads

An `EXIT` is meant to leave the innermost `LOOP` around it. Every loop statement puts its
exit block on the same stack, so a lowered `EXIT` leads behind the innermost loop of any
kind. `Enclosed` records the loop statements around a site; their exit blocks are the
builder's stack, and a block further down the stack is an older one. The statements of a
`FINALLY` part are copied without being lowered, and an `EXIT` in one of them is no jump.
-/

namespace Mx

open Mx.Core List

/-- Lowering enters the body of the loop statement the site starts with. -/
inductive EntersLoop : Site → Site → Prop where
  | whileBody {cond body loc ss c st st'} (h : whileEntry cond st = .ok st') :
    EntersLoop ⟨⟨.whileStmt cond body, loc⟩ :: ss, c, st⟩ ⟨body, c, st'⟩
  | repeatBody {body cond loc ss c st st'} (h : loopEntry st = .ok st') :
    EntersLoop ⟨⟨.repeatStmt body cond, loc⟩ :: ss, c, st⟩ ⟨body, c, st'⟩
  | loopBody {body loc ss c st st'} (h : loopEntry st = .ok st') :
    EntersLoop ⟨⟨.loop body, loc⟩ :: ss, c, st⟩ ⟨body, c, st'⟩
  | forBody {var varTy start stop step direction body loc ss c st st'}
    (h : forEntry var varTy start stop direction st = .ok st') :
    EntersLoop ⟨⟨.forStmt var varTy start stop step direction body, loc⟩ :: ss, c, st⟩
      ⟨body, c, st'⟩

/-- A lowered site with the sites of the loop statements around it, innermost first. -/
inductive Enclosed (body : List HirStmt) : List Site → Site → Prop where
  | start : Enclosed body [] ⟨body, [], CfgBuilder.new⟩
  | loop {loops a b} (h : Enclosed body loops a) (e : EntersLoop a b) :
    Enclosed body (a :: loops) b
  | within {loops a b} (h : Enclosed body loops a) (e : Enters a b) (hn : ¬ EntersLoop a b) :
    Enclosed body loops b

/-- The statement lists directly in a statement, but for the body of a `LOOP`. -/
def HirStmtKind.bodies : HirStmtKind → List (List HirStmt)
  | .ifStmt _ thenBody elsifs elseBody => thenBody :: elsifs.map Prod.snd ++ elseBody.toList
  | .caseStmt _ branches elseBody => branches.map HirCaseBranch.body ++ elseBody.toList
  | .whileStmt _ body | .repeatStmt body _ | .forStmt _ _ _ _ _ _ body | .lock _ body => [body]
  | .tryStmt body excepts finallyBody =>
    body :: excepts.map HirExceptClause.body ++ finallyBody.toList
  | .typeCase _ branches elseBody => branches.map HirTypeCaseBranch.body ++ elseBody.toList
  | .empty | .assign _ _ | .procCall _ _ | .loop _ | .ret _ | .exit | .raise _ | .retry => []

/-- The statement has an `EXIT` that leaves a `LOOP` around the statement. -/
inductive HasExit : HirStmt → Prop where
  | exit (loc : SourceLoc) : HasExit ⟨.exit, loc⟩
  | inside {s t body} (hb : body ∈ s.kind.bodies) (ht : t ∈ body) (h : HasExit t) : HasExit s

/-- Where the graph executes an `EXIT`, with the sites of the loop statements around it: a
lowered one at the end of what its block holds, one in a `FINALLY` part (`copied`) in the
statement that was copied. -/
inductive ExitAt (body : List HirStmt) (blocks : List BasicBlock) :
    List Site → Point → Bool → Prop where
  | lowered {loops loc ss c st b} (h : Enclosed body loops ⟨⟨.exit, loc⟩ :: ss, c, st⟩)
    (hb : st.current = some b) : ExitAt body blocks loops ⟨b, st.fill b⟩ false
  | copied {loops tryBody excepts fin loc ss c st s b block k}
    (h : Enclosed body loops ⟨⟨.tryStmt tryBody excepts (some fin), loc⟩ :: ss, c, st⟩)
    (hs : s ∈ fin) (hexit : HasExit s) (hb : blocks[b]? = some block)
    (hk : block.stmts[k]? = some s) : ExitAt body blocks loops ⟨b, k⟩ true

/-- The site starts with a `LOOP` statement. -/
def Site.isLoop (a : Site) : Bool :=
  match a.stmts with
  | ⟨.loop _, _⟩ :: _ => true
  | _ => false

/-- The point where the code following the first statement of the site starts. -/
def Site.after (a : Site) : Option Point :=
  match a.stmts with
  | [] => none
  | s :: _ =>
    match lowerStmt s a.st with
    | .ok st' => st'.current.map fun b => ⟨b, st'.fill b⟩
    | .error _ => none

/-- Control moves on from the point, and it moves to `q` only. -/
structure Continues (blocks : List BasicBlock) (p : Point) (q : Option Point) : Prop where
  moves : ∃ m, Moves blocks p m q
  only : ∀ m r, Moves blocks p m r → r = q

theorem EntersLoop.enters {a b : Site} (h : EntersLoop a b) : Enters a b := by
  cases h with
  | whileBody h => exact .whileBody h
  | repeatBody h => exact .repeatBody h
  | loopBody h => exact .loopBody h
  | forBody h => exact .forBody h

theorem Enclosed.lowered {body : List HirStmt} {loops : List Site} {site : Site}
    (h : Enclosed body loops site) : Lowered body site := by
  induction h with
  | start => exact .refl
  | loop _ e ih => exact ih.tail e.enters
  | within _ e _ ih => exact ih.tail e

/-! ## The stack of exit blocks -/

section Exits

variable {a b : Site} {G : List BasicBlock}

/-- Only the body of a loop is lowered with another stack of exit blocks. -/
theorem Enters.exits (h : Enters a b) (hn : ¬ EntersLoop a b) (hinv : a.st.Inv) :
    b.st.loopExitStack = a.st.loopExitStack := by
  cases h with
  | next h _ => exact (lowerStmt_sound _ _ _ hinv h).exits
  | thenBody h => exact (thenEntry_within hinv h).exits
  | @elsif _ _ elsifs _ _ _ _ _ _ i _ _ hi h =>
    exact (elsifEntry_within hinv (lowerStmts_sound _)
      (fun e he => sound_elsifs elsifs e (mem_of_mem_take he)) h).exits
  | elseBody h => exact (elseEntry_within hinv (lowerStmts_sound _) (sound_elsifs _) h).exits
  | whileBody h => exact absurd (.whileBody h) hn
  | repeatBody h => exact absurd (.repeatBody h) hn
  | loopBody h => exact absurd (.loopBody h) hn
  | forBody h => exact absurd (.forBody h) hn
  | caseBranch hi h => exact (switchArmEntry_within hinv (sound_caseArms _) h).exits
  | caseElse h => exact (switchElseEntry_within hinv (sound_caseArms _) h).exits
  | typeBranch hi h => exact (switchArmEntry_within hinv (sound_typeArms _ _) h).exits
  | typeElse h => exact (switchElseEntry_within hinv (sound_typeArms _ _) h).exits
  | tryBody h => exact (tryEntry_within hinv h).1.exits
  | clause hi h => exact (clauseEntry_within hinv (lowerStmts_sound _) (sound_clauses _) h).exits
  | lockBody => simp

/-- A loop puts a new block on the stack of exit blocks. -/
theorem EntersLoop.exits (h : EntersLoop a b) (hinv : a.st.Inv) :
    ∃ x, b.st.loopExitStack = x :: a.st.loopExitStack ∧ a.st.nextId ≤ x := by
  cases h with
  | whileBody h => exact ⟨_, (whileEntry_within hinv h).1.exits, by omega⟩
  | repeatBody h | loopBody h => exact ⟨_, (loopEntry_within hinv h).1.exits, by omega⟩
  | forBody h => exact ⟨_, (forEntry_within hinv h).1.exits, by omega⟩

/-- The code after a `LOOP` starts in the block its body has on the top of the stack. -/
theorem EntersLoop.after_loop (h : EntersLoop a b) (r : a.Runs G) (hloop : a.isLoop = true) :
    a.after = b.st.loopExitStack.head?.map fun x => ⟨x, 0⟩ := by
  have hinv := r.runs.inv
  cases h with
  | whileBody h | repeatBody h | forBody h => cases hloop
  | @loopBody body loc ss c st st' h =>
    obtain ⟨_, hopen, st₂, hs, _⟩ := r.head
    have hstmt : lowerStmt ⟨.loop body, loc⟩ st = .ok st₂ := by
      rw [lowerStmt, if_pos hopen]
      exact hs
    simp only [lowerKind, lowerLoop, leaveLoop, bind_eq_ok] at hs
    obtain ⟨st₁, h₁, st₃, h₃, st₄, h₄, h₅⟩ := hs
    obtain rfl := Except.ok.inj (h.symm.trans h₁)
    -- the exit block stays empty until it is started
    obtain ⟨w₁, _⟩ := loopEntry_within hinv h
    have hwait := (loopEntry_after hinv h).2
    have hbody := lowerStmts_sound body st' st₃ w₁.scope.inv h₃
    have hwait₄ := (hwait.of_scope hbody.scope).sealIfOpen h₄
    obtain ⟨_, _, _, _, rfl⟩ := CfgBuilder.startBlock_eq_ok.mp h₅
    have hfill : (st₄.fill (st.nextId + 1)) = 0 := CfgBuilder.fill_eq hwait₄.block
    rw [w₁.exits]
    simp only [Site.after, hstmt]
    exact congrArg (fun n => some (⟨st.nextId + 1, n⟩ : Point)) hfill

/-- The exit blocks of the enclosing loops: each is where the code after its `LOOP` starts,
and inner loops have newer ones. -/
structure ExitsMatch (loops : List Site) (exits : List Nat) : Prop where
  after : List.Forall₂ (fun l x => l.isLoop = true → l.after = some ⟨x, 0⟩) loops exits
  newer : exits.Pairwise fun x y => y < x

theorem Enclosed.exits {body : List HirStmt} {cfg : Cfg} {loops : List Site} {site : Site}
    (hcfg : buildCfg body = .ok cfg) (h : Enclosed body loops site) :
    ExitsMatch loops site.st.loopExitStack := by
  induction h with
  | start => exact ⟨.nil, .nil⟩
  | @loop loops a b h e ih =>
    have r := h.lowered.runs hcfg
    obtain ⟨x, hx, hnew⟩ := e.exits r.runs.inv
    refine ⟨?_, ?_⟩
    · rw [hx]
      refine .cons (fun hloop => ?_) ih.after
      rw [e.after_loop r hloop, hx]
      rfl
    · rw [hx]
      refine .cons (fun y hy => ?_) ih.newer
      exact Nat.lt_of_lt_of_le (r.runs.inv.exits y hy).2 hnew
  | @within loops a b h e hn ih =>
    rw [e.exits hn (h.lowered.runs hcfg).runs.inv]
    exact ih

/-- The innermost `LOOP` continues in one of the exit blocks. -/
theorem ExitsMatch.find {loops : List Site} {exits : List Nat} {outer : Site}
    (h : ExitsMatch loops exits) (houter : loops.find? Site.isLoop = some outer) :
    ∃ x ∈ exits, outer.after = some ⟨x, 0⟩ := by
  obtain ⟨hafter, -⟩ := h
  induction hafter with
  | nil => simp at houter
  | @cons l x loops exits hl _ ih =>
    by_cases hloop : l.isLoop = true
    · rw [find?_cons_of_pos hloop] at houter
      obtain rfl := Option.some.inj houter
      exact ⟨x, mem_cons_self, hl hloop⟩
    · rw [find?_cons_of_neg hloop] at houter
      obtain ⟨y, hy, hafter⟩ := ih houter
      exact ⟨y, mem_cons_of_mem _ hy, hafter⟩

end Exits

/-! ## The jump of an `EXIT` -/

/-- A lowered `EXIT` ends its block with a jump to the top of the stack. -/
theorem exit_continues {ss : List HirStmt} {loc : SourceLoc} {c : List Nat} {st : CfgBuilder}
    {G : List BasicBlock} {b : Nat} (r : Site.Runs ⟨⟨.exit, loc⟩ :: ss, c, st⟩ G)
    (hb : st.current = some b) :
    ∃ x, st.loopExitStack.head? = some x ∧ Continues G ⟨b, st.fill b⟩ (some ⟨x, 0⟩) := by
  obtain ⟨_, _, st', hs, hG⟩ := r.head
  change lowerExit st = .ok st' at hs
  unfold lowerExit at hs
  split at hs
  · cases hs
  · rename_i x xs hx
    refine ⟨x, by rw [hx]; rfl, ?_⟩
    obtain ⟨i, block, hi, hblock, hopen, rfl⟩ := CfgBuilder.sealBlock_eq_ok.mp hs
    obtain rfl := Option.some.inj (hb.symm.trans hi)
    have hlt := (List.getElem?_eq_some_iff.mp hblock).1
    have hget : G[b]? = some { block with terminator := some (.goto x) } := by
      refine hG.sealed ?_ rfl
      exact getElem?_set_self hlt
    rw [CfgBuilder.fill_eq hblock]
    constructor
    · exact ⟨_, .jump hget rfl rfl (mem_singleton_self x)⟩
    · intro m r hm
      cases hm with
      | stmt hb' hs' =>
        obtain rfl := Option.some.inj (hget.symm.trans hb')
        simp at hs'
      | jump hb' _ ht' hs' =>
        obtain rfl := Option.some.inj (hget.symm.trans hb')
        obtain rfl := Option.some.inj ht'
        obtain rfl := mem_singleton.mp hs'
        rfl
      | ret hb' _ ht' =>
        obtain rfl := Option.some.inj (hget.symm.trans hb')
        cases ht'
      | raise hb' hraise =>
        obtain rfl := Option.some.inj (hget.symm.trans hb')
        simp [BasicBlock.mayRaise, Terminator.mayRaise] at hraise

/-- An `EXIT` in a copied statement goes on behind the statement, not at a block's start. -/
theorem copied_not_continues {G : List BasicBlock} {b k x : Nat} {block : BasicBlock}
    {s : HirStmt} (hb : G[b]? = some block) (hk : block.stmts[k]? = some s) :
    ¬ Continues G ⟨b, k⟩ (some ⟨x, 0⟩) := by
  intro h
  cases h.only _ _ (.stmt hb hk)

/-- A lowered `EXIT` with a `LOOP` around it continues at the code that follows the innermost
of these if and only if the innermost loop statement around it is a `LOOP`. -/
theorem lowered_leaves_loop_iff {body ss : List HirStmt} {cfg : Cfg} {loc : SourceLoc}
    {c : List Nat} {st : CfgBuilder} {loops : List Site} {outer : Site} {b : Nat}
    (hcfg : buildCfg body = .ok cfg) (hsite : Enclosed body loops ⟨⟨.exit, loc⟩ :: ss, c, st⟩)
    (hb : st.current = some b) (houter : loops.find? Site.isLoop = some outer) :
    Continues cfg.blocks ⟨b, st.fill b⟩ outer.after ↔
      ∃ inner, loops.head? = some inner ∧ inner.isLoop = true := by
  have hexits := hsite.exits hcfg
  obtain ⟨x, hx, hgoes⟩ := exit_continues (hsite.lowered.runs hcfg) hb
  obtain ⟨inner, rest, rfl⟩ : ∃ inner rest, loops = inner :: rest := by
    cases loops with
    | nil => simp at houter
    | cons inner rest => exact ⟨inner, rest, rfl⟩
  obtain ⟨hafter, hnewer⟩ := hexits
  cases hstack : st.loopExitStack with
  | nil => simp [hstack] at hx
  | cons y exits =>
    obtain rfl : y = x := by simpa [hstack] using hx
    rw [hstack] at hafter hnewer
    cases hafter with
    | cons hinner hrest =>
      constructor
      · intro hcont
        refine ⟨inner, rfl, ?_⟩
        by_contra hloop
        rw [find?_cons_of_neg hloop] at houter
        obtain ⟨z, hz, hz'⟩ := ExitsMatch.find ⟨hrest, (pairwise_cons.mp hnewer).2⟩ houter
        -- an older block is not the one on the top
        obtain ⟨m, hm⟩ := hgoes.moves
        have hsame := hcont.only m _ hm
        rw [hz'] at hsame
        cases hsame
        exact Nat.lt_irrefl _ ((pairwise_cons.mp hnewer).1 _ hz)
      · rintro ⟨inner', hhead, hloop⟩
        obtain rfl := Option.some.inj hhead
        rw [find?_cons_of_pos hloop] at houter
        obtain rfl := Option.some.inj houter
        rw [hinner hloop]
        exact hgoes

/-- An `EXIT` with a `LOOP` around it continues at the code that follows the innermost of these
if and only if it is not in a `FINALLY` part and the innermost loop statement around it is a
`LOOP`. -/
theorem exit_leaves_loop_iff {body : List HirStmt} {cfg : Cfg} {loops : List Site} {outer : Site}
    {p : Point} {copied : Bool} (hcfg : buildCfg body = .ok cfg)
    (hexit : ExitAt body cfg.blocks loops p copied)
    (houter : loops.find? Site.isLoop = some outer) :
    Continues cfg.blocks p outer.after ↔
      copied = false ∧ ∃ inner, loops.head? = some inner ∧ inner.isLoop = true := by
  cases hexit with
  | lowered h hb =>
    rw [lowered_leaves_loop_iff hcfg h hb houter]
    exact (and_iff_right rfl).symm
  | copied h _ _ hb hk =>
    obtain ⟨x, -, hafter⟩ := (h.exits hcfg).find houter
    rw [hafter]
    exact iff_of_false (copied_not_continues hb hk) fun hc => Bool.noConfusion hc.1

/-- `LOOP IF TRUE THEN EXIT END END`. -/
def loopIfExit : List HirStmt :=
  [⟨.loop [⟨.ifStmt (boolCond true) [⟨.exit, .cfg⟩] [] none, .cfg⟩], .cfg⟩]

/-- The body of `loopIfExit` before it is lowered. -/
def loopIfExitStart : Site := ⟨loopIfExit, [], CfgBuilder.new⟩

theorem exit_leaves_loop_loopIfExit :
    ∃ cfg, buildCfg loopIfExit = .ok cfg ∧
      Continues cfg.blocks ⟨4, 0⟩ loopIfExitStart.after := by
  refine ⟨_, rfl, ?_⟩
  have hloop : Enclosed loopIfExit [loopIfExitStart] _ := .loop .start (.loopBody rfl)
  have hexit : Enclosed loopIfExit [loopIfExitStart] _ :=
    .within hloop (.thenBody rfl) (by rintro ⟨⟩)
  exact (exit_leaves_loop_iff rfl (.lowered hexit rfl) rfl).mpr ⟨rfl, _, rfl, rfl⟩

/-- `LOOP WHILE TRUE DO EXIT END END`. -/
def loopWhileExit : List HirStmt :=
  [⟨.loop [⟨.whileStmt (boolCond true) [⟨.exit, .cfg⟩], .cfg⟩], .cfg⟩]

/-- The body of `loopWhileExit` before it is lowered. -/
def loopWhileExitStart : Site := ⟨loopWhileExit, [], CfgBuilder.new⟩

/-- An `EXIT` in a `WHILE` leaves the `WHILE` and not the `LOOP` around it. -/
theorem not_exit_leaves_loop_loopWhileExit :
    ∃ cfg loops p, buildCfg loopWhileExit = .ok cfg ∧
      ExitAt loopWhileExit cfg.blocks loops p false ∧
      loops.find? Site.isLoop = some loopWhileExitStart ∧
      ¬ Continues cfg.blocks p loopWhileExitStart.after := by
  have hloop : Enclosed loopWhileExit [loopWhileExitStart] _ := .loop .start (.loopBody rfl)
  have hexit : Enclosed loopWhileExit _ ⟨[⟨.exit, .cfg⟩], [], _⟩ := .loop hloop (.whileBody rfl)
  refine ⟨_, _, _, rfl, .lowered hexit rfl, rfl, fun h => ?_⟩
  have hjump := h.only (.jump (.goto 5)) (some ⟨5, 0⟩)
    (.jump rfl rfl rfl (mem_singleton_self 5))
  cases hjump

end Mx

import Mx.Cfg.Accesses
import Mx.Cfg.Buildable
import Mx.Cfg.Fixpoint
import Mx.Cfg.Region

/-!
# What an empty report means

A variable that the lint does not report is assigned before it is read on every path that,
while the variable is unassigned, takes no handler edge and passes it by reference in no right
operand of `AND` or `OR`, and on which every read of the unassigned variable is one that the scan
collects, in a block that does not itself assign the variable later. The conditions are what the
lint misses: the solver follows only successor edges, the walkers take an operand for evaluated
that may not be, they skip some expressions, and a block that assigns the variable may keep a
stale input.
-/

namespace Mx

open Mx.Core List

/-! ## Facts that spread along successor edges -/

namespace ForwardAnalysis

variable {S : Type}

/-- A property of states that a join inherits from either side, and a transfer function
keeps except at the blocks that stop it and never creates. -/
structure Spreads (A : ForwardAnalysis S) (cfg : Cfg) (low : S → Prop) (stops : Nat → Prop) :
    Prop where
  entry : low A.entryState
  bottom : ¬ low A.bottom
  join : ∀ x y, low x ∨ low y → low (A.join x y)
  transfer : ∀ b x, ¬ stops b → low x → low (A.transfer cfg b x)
  reflect : ∀ b x, low (A.transfer cfg b x) → low x

variable {A : ForwardAnalysis S} {cfg : Cfg} {low : S → Prop} {stops : Nat → Prop}

theorem Spreads.foldl (h : A.Spreads cfg low stops) {out : List S} {ps : List Nat} {x : S}
    (hlow : low x ∨ ∃ p ∈ ps, low (out.getD p A.bottom)) :
    low (ps.foldl (fun joined q => A.join joined (out.getD q A.bottom)) x) := by
  induction ps generalizing x with
  | nil => simpa using hlow
  | cons p ps ih =>
    rw [foldl_cons]
    apply ih
    rcases hlow with hx | ⟨q, hq, hlow⟩
    · exact Or.inl (h.join _ _ (Or.inl hx))
    · rcases mem_cons.mp hq with rfl | hq
      · exact Or.inl (h.join _ _ (Or.inr hlow))
      · exact Or.inr ⟨q, hq, hlow⟩

theorem Spreads.joinPreds (h : A.Spreads cfg low stops) {out : List S} {p b : Nat}
    (hp : p ∈ cfg.preds.getD b []) (hlow : low (out.getD p A.bottom)) :
    low (A.joinPreds cfg out b) := by
  unfold ForwardAnalysis.joinPreds
  split
  · next hnil =>
    rw [hnil] at hp
    simp at hp
  · next q ps hps =>
    apply h.foldl
    rcases mem_cons.mp (hps ▸ hp) with rfl | hq
    · exact Or.inl hlow
    · exact Or.inr ⟨p, hq, hlow⟩

/-- What the worklist loop keeps of a spreading property. -/
structure Spread (A : ForwardAnalysis S) (cfg : Cfg) (low : S → Prop) (stops : Nat → Prop)
    (w : Solver S) : Prop extends Shaped A cfg w where
  laws : A.Spreads cfg low stops
  inputs : ∀ b, low (w.blockOut.getD b A.bottom) → low (w.blockIn.getD b A.bottom)
  edges : ∀ p b, b ∈ cfg.successors p → low (w.blockOut.getD p A.bottom) → b ∉ w.worklist →
    ¬ stops b → low (w.blockOut.getD b A.bottom)

theorem spread_start (h : A.Spreads cfg low stops) (hg : cfg.PredsExact) :
    A.Spread cfg low stops (A.start cfg) := by
  have hout : ∀ b, low ((A.start cfg).blockOut.getD b A.bottom) → b = cfg.entry := by
    intro b hlow
    by_contra hb
    rw [start_out hg hb] at hlow
    exact h.bottom hlow
  refine ⟨shaped_start hg, h, fun b hlow => ?_, fun p b hb hlow hq => ?_⟩
  · rw [hout b hlow, (shaped_start hg).entryIn]
    exact h.entry
  · obtain rfl := hout p hlow
    exact absurd (mem_start.mpr hb) hq

variable [DecidableEq S]

theorem Spread.visit {w : Solver S} (hw : A.Spread cfg low stops w) (hg : cfg.PredsExact) :
    A.Spread cfg low stops (A.visit cfg w) := by
  have h := hw.laws
  cases hlist : w.worklist with
  | nil =>
    rw [A.visit_done cfg hlist]
    exact hw
  | cons b rest =>
    obtain ⟨-, hbn⟩ := hw.of_queued hg (hlist ▸ mem_cons_self ..)
    rcases A.visit_cases cfg hlist with ⟨hc, he⟩ | ⟨hc, he⟩
    · rw [he]
      refine ⟨hw.toShaped.skip hlist, h, hw.inputs, fun p x hx hlow hq hs => ?_⟩
      by_cases hxb : x = b
      · -- the visited block agrees with its predecessors
        subst hxb
        rw [← hc]
        exact h.transfer _ _ hs (h.joinPreds (hg.mem_preds.mpr hx) hlow)
      · exact hw.edges p x hx hlow (by rw [hlist]; simp [hxb, hq]) hs
    · rw [he]
      refine ⟨hw.toShaped.changed hg hlist, h, fun x => ?_, fun p x hx hlow hq hs => ?_⟩
      · simp only [hw.changed_in hbn, hw.changed_out hbn]
        split
        · exact h.reflect b _
        · exact hw.inputs x
      · obtain ⟨hnq, hpx⟩ := hw.unseen hg hlist hq
        rw [hpx p (hg.mem_preds.mpr hx)] at hlow
        rw [hw.changed_out hbn]
        by_cases hxb : x = b
        · subst hxb
          rw [if_pos rfl]
          exact h.transfer _ _ hs (h.joinPreds (hg.mem_preds.mpr hx) hlow)
        · rw [if_neg hxb]
          exact hw.edges p x hx hlow (hnq hxb) hs

theorem spread_trace (h : A.Spreads cfg low stops) (hg : cfg.PredsExact) (k : Nat) :
    A.Spread cfg low stops (A.trace cfg k) := by
  induction k with
  | zero => exact spread_start h hg
  | succ k ih =>
    rw [trace_succ]
    exact ih.visit hg

/-- In the result, a spreading property reaches every successor that does not stop it. -/
theorem spread_solve (h : A.Spreads cfg low stops) (hg : cfg.PredsExact) {fuel : Nat}
    {r : DataflowResult S} (hr : A.solve cfg fuel (A.start cfg) = .ok r) :
    A.Spread cfg low stops ⟨r.blockIn, r.blockOut, []⟩ := by
  obtain ⟨k, hk, rfl⟩ := solve_eq_ok hr
  have hw := spread_trace h hg k
  unfold trace at hw
  rw [← hk]
  exact hw

end ForwardAnalysis

/-! ## Bits -/

section Bits

variable {vars : VarMap} {v : String} {i : Nat} {s t : AssignedSet} {names : List String}

theorem VarMap.indexOf_inj {n : String} (hv : vars.indexOf v = some i)
    (hn : vars.indexOf n = some i) : n = v := by
  obtain ⟨hi, hv, -⟩ := findIdx?_eq_some_iff_getElem.mp hv
  obtain ⟨_, hn, -⟩ := findIdx?_eq_some_iff_getElem.mp hn
  exact (beq_iff_eq.mp hn).symm.trans (beq_iff_eq.mp hv)

theorem VarMap.indexOf_lt (hv : vars.indexOf v = some i) : i < vars.length :=
  (findIdx?_eq_some_iff_getElem.mp hv).1

theorem VarMap.exists_indexOf {loc : SourceLoc} (h : (v, loc) ∈ vars) :
    ∃ i, vars.indexOf v = some i := by
  apply Option.isSome_iff_exists.mp
  rw [VarMap.indexOf, findIdx?_isSome, any_eq_true]
  exact ⟨_, h, beq_self_eq_true v⟩

theorem AssignedSet.get_intersect :
    (s.intersect t).get i = false ↔ s.get i = false ∨ t.get i = false := by
  unfold intersect get
  rw [getD_eq_getElem?_getD, getD_eq_getElem?_getD, getD_eq_getElem?_getD, getElem?_zipWith]
  rcases s[i]? with _ | a <;> rcases t[i]? with _ | b <;> simp [← Bool.not_eq_true, imp_iff_not_or]

theorem AssignedSet.get_define_of_ne {n : String} (hv : vars.indexOf v = some i) (hn : n ≠ v) :
    (s.define vars n).get i = s.get i := by
  unfold define get
  split
  · next j hj =>
    have hij : j ≠ i := by
      rintro rfl
      exact hn (VarMap.indexOf_inj hv hj)
    rw [getD_eq_getElem?_getD, getD_eq_getElem?_getD, getElem?_set_ne hij]
  · rfl

theorem AssignedSet.get_of_define {n : String} (h : (s.define vars n).get i = false) :
    s.get i = false := by
  unfold define at h
  split at h
  · next j hj =>
    unfold get at h ⊢
    rw [getD_eq_getElem?_getD, getElem?_set] at h
    rw [getD_eq_getElem?_getD]
    split at h
    · next hij =>
      split at h
      · simp at h
      · next hlt =>
        rw [getElem?_eq_none (by omega)]
        rfl
    · exact h
  · exact h

theorem AssignedSet.get_defineAll (hv : vars.indexOf v = some i) (hn : v ∉ names) :
    (s.defineAll vars names).get i = s.get i := by
  induction names generalizing s with
  | nil => rfl
  | cons n names ih =>
    rw [mem_cons, not_or] at hn
    change ((s.define vars n).defineAll vars names).get i = _
    rw [ih hn.2, get_define_of_ne hv (Ne.symm hn.1)]

theorem AssignedSet.get_of_defineAll (h : (s.defineAll vars names).get i = false) :
    s.get i = false := by
  induction names generalizing s with
  | nil => exact h
  | cons n names ih => exact get_of_define (ih h)

theorem AssignedSet.get_afterStmt {stmt : HirStmt} (hv : vars.indexOf v = some i)
    (ht : v ∉ transferStmtDefs stmt) (hc : v ∉ (collectStmtUses stmt).defs) :
    (s.afterStmt vars stmt).get i = s.get i := by
  rw [afterStmt, get_defineAll hv hc, get_defineAll hv ht]

/-- An unassigned variable spreads to the blocks that do not assign it. -/
theorem spreads_unassigned (cfg : Cfg) (hv : vars.indexOf v = some i) :
    (definitelyAssigned vars).Spreads cfg (fun s => AssignedSet.get s i = false)
      (fun b => ∃ block, cfg.blocks[b]? = some block ∧ v ∈ block.transferDefs) := by
  have hlt := VarMap.indexOf_lt hv
  refine ⟨?_, ?_, fun x y => AssignedSet.get_intersect.mpr, ?_, ?_⟩
  · simp [definitelyAssigned, AssignedSet.get, hlt]
  · simp [definitelyAssigned, AssignedSet.get, hlt]
  · intro b x hstop hx
    simp only [definitelyAssigned]
    split
    · next block hb =>
      rw [AssignedSet.get_defineAll hv fun hm => hstop ⟨block, hb, hm⟩]
      exact hx
    · exact hx
  · intro b x hx
    simp only [definitelyAssigned] at hx
    split at hx
    · exact AssignedSet.get_of_defineAll hx
    · exact hx

end Bits

/-! ## Reports -/

namespace Report

/-- There is a warning about the variable. -/
def Reports (r : Report) (v : String) : Prop := ∃ w ∈ r.warnings, w.message = usedUnassigned v

/-- A later report: the variables that count as warned about are, and no warning is lost. -/
structure Extends (r r' : Report) : Prop where
  warned : (∀ n ∈ r.warned, r.Reports n) → ∀ n ∈ r'.warned, r'.Reports n
  reports : ∀ n, r.Reports n → r'.Reports n

theorem Extends.refl (r : Report) : r.Extends r := ⟨id, fun _ => id⟩

theorem Extends.trans {r r' r'' : Report} (h : r.Extends r') (h' : r'.Extends r'') :
    r.Extends r'' :=
  ⟨fun hw => h'.warned (h.warned hw), fun n hn => h'.reports n (h.reports n hn)⟩

variable {vars : VarMap} {state : AssignedSet} {r : Report} {v : String} {i : Nat}

theorem checkUse_extends (use : String × SourceLoc) :
    r.Extends (r.checkUse vars state use) := by
  unfold checkUse
  split
  · split
    · refine ⟨fun hw n hn => ?_, fun n ⟨w, hw, he⟩ => ⟨w, mem_append_left _ hw, he⟩⟩
      rcases mem_cons.mp hn with rfl | hn
      · exact ⟨_, mem_append_right _ (mem_singleton_self _), rfl⟩
      · obtain ⟨w, hw, he⟩ := hw n hn
        exact ⟨w, mem_append_left _ hw, he⟩
    · exact Extends.refl r
  · exact Extends.refl r

theorem checkUse_reports {loc : SourceLoc} (hr : ∀ n ∈ r.warned, r.Reports n)
    (hv : vars.indexOf v = some i) (hs : state.get i = false) :
    (r.checkUse vars state (v, loc)).Reports v := by
  unfold checkUse
  simp only [hv, hs, Bool.not_false, Bool.true_and]
  split
  · exact ⟨_, mem_append_right _ (mem_singleton_self _), rfl⟩
  · next hw =>
    apply hr
    simpa using hw

theorem checkUses_extends (uses : List (String × SourceLoc)) :
    r.Extends (r.checkUses vars state uses) := by
  unfold checkUses
  induction uses generalizing r with
  | nil => exact Extends.refl r
  | cons use uses ih => exact (checkUse_extends use).trans ih

theorem checkUses_reports {uses : List (String × SourceLoc)} (hr : ∀ n ∈ r.warned, r.Reports n)
    (hv : vars.indexOf v = some i) (hs : state.get i = false) (hu : v ∈ uses.map Prod.fst) :
    (r.checkUses vars state uses).Reports v := by
  unfold checkUses
  induction uses generalizing r with
  | nil => simp at hu
  | cons use uses ih =>
    rw [foldl_cons]
    rw [map_cons, mem_cons] at hu
    rcases hu with rfl | hu
    · exact (checkUses_extends uses).reports _ (checkUse_reports hr hv hs)
    · exact ih ((checkUse_extends use).warned hr) hu

theorem checkBlock_extends (t : Option Terminator) (ss : List HirStmt) :
    r.Extends (r.checkBlock vars t ss state) := by
  induction ss generalizing r state with
  | nil =>
    unfold checkBlock
    split
    · exact checkUses_extends _
    · exact Extends.refl r
  | cons s ss ih => exact (checkUses_extends _).trans ih

end Report

/-! ## Reads on paths -/

/-- What the block reads next after `k` of its statements: the next statement's variables,
or the terminator's. -/
def BasicBlock.readsAt (block : BasicBlock) (k : Nat) : List String :=
  match block.stmts[k]? with
  | some s => s.reads
  | none => block.terminator.elim [] Terminator.reads

/-- The uses that the scan collects at the same position. -/
def BasicBlock.usesAt (block : BasicBlock) (k : Nat) : List String :=
  match block.stmts[k]? with
  | some s => (collectStmtUses s).uses.map Prod.fst
  | none => block.terminator.elim [] fun t => (collectTerminatorUses t).uses.map Prod.fst

/-- The variables a move writes. -/
def Move.writes : Move → List String
  | .stmt s => s.writes
  | .jump t => t.writes
  | .ret _ => []
  | .raise => []

/-- The variables a move may write, in operands that may not be evaluated. -/
def Move.mayWrites : Move → List String
  | .stmt s => s.mayWrites
  | .jump t => t.mayWrites
  | .ret _ => []
  | .raise => []

/-- Some move of the path writes the variable. -/
def Assigned (v : String) (ms : List (Point × Move)) : Prop := ∃ m ∈ ms, v ∈ m.2.writes

/-- Evaluation at the point reads the variable. -/
def Reads (cfg : Cfg) (v : String) (p : Point) : Prop :=
  ∃ block, cfg.blocks[p.block]? = some block ∧ v ∈ block.readsAt p.pos

/-- A read at the point is one the lint can see: the scan collects it, and the block is the
entry or its transfer function does not assign the variable. -/
def Visible (cfg : Cfg) (v : String) (p : Point) : Prop :=
  ∀ block, cfg.blocks[p.block]? = some block → v ∈ block.readsAt p.pos →
    v ∈ block.usesAt p.pos ∧ (p.block = cfg.entry ∨ v ∉ block.transferDefs)

/-- As long as the variable is unassigned, the path takes no handler edge, has no operand that
may write the variable or not be evaluated, and reads the variable only where the lint can see
it. -/
structure Covered (cfg : Cfg) (v : String) (ms : List (Point × Move)) (p : Point) : Prop where
  moves : ∀ before q m after, ms = before ++ (q, m) :: after → ¬ Assigned v before →
    m ≠ .raise ∧ v ∉ m.mayWrites ∧ Visible cfg v q
  last : ¬ Assigned v ms → Visible cfg v p

theorem Report.checkBlock_reports {vars : VarMap} {v : String} {i : Nat} {block : BasicBlock}
    {state : AssignedSet} {r : Report} {k : Nat} (hr : ∀ n ∈ r.warned, r.Reports n)
    (hv : vars.indexOf v = some i) (hs : state.get i = false)
    (hdefs : ∀ j s, j < k → block.stmts[j]? = some s →
      v ∉ transferStmtDefs s ∧ v ∉ (collectStmtUses s).defs)
    (hk : k ≤ block.stmts.length) (hu : v ∈ block.usesAt k) :
    (r.checkBlock vars block.terminator block.stmts state).Reports v := by
  obtain ⟨id, ss, t, handler⟩ := block
  unfold BasicBlock.usesAt at hu
  simp only at hdefs hk hu ⊢
  induction ss generalizing r state k with
  | nil =>
    cases t with
    | none => simp at hu
    | some t => exact checkUses_reports hr hv hs (by simpa using hu)
  | cons s ss ih =>
    cases k with
    | zero =>
      refine (checkBlock_extends t ss).reports v (checkUses_reports hr hv hs ?_)
      simpa using hu
    | succ k =>
      obtain ⟨ht, hc⟩ := hdefs 0 s (Nat.succ_pos k) rfl
      refine ih ((checkUses_extends _).warned hr) ?_ ?_ (Nat.le_of_succ_le_succ hk) ?_
      · rw [AssignedSet.get_afterStmt hv ht hc]
        exact hs
      · intro j s' hj hs'
        exact hdefs (j + 1) s' (Nat.succ_lt_succ hj) hs'
      · simpa using hu

theorem Report.checkBlocks_reports {vars : VarMap} {v : String}
    {blocks : List (BasicBlock × AssignedSet)} {r : Report} {b : BasicBlock × AssignedSet}
    (hr : ∀ n ∈ r.warned, r.Reports n) (hb : b ∈ blocks)
    (h : ∀ r : Report, (∀ n ∈ r.warned, r.Reports n) →
      (r.checkBlock vars b.1.terminator b.1.stmts b.2).Reports v) :
    (r.checkBlocks vars blocks).Reports v := by
  unfold checkBlocks
  have hext : ∀ (blocks : List (BasicBlock × AssignedSet)) (r : Report), r.Extends
      (blocks.foldl (fun r b => r.checkBlock vars b.1.terminator b.1.stmts b.2) r) := by
    intro blocks
    induction blocks with
    | nil => exact Extends.refl
    | cons c blocks ih => exact fun r => (checkBlock_extends _ _).trans (ih _)
  induction blocks generalizing r with
  | nil => simp at hb
  | cons c blocks ih =>
    rw [foldl_cons]
    rcases mem_cons.mp hb with rfl | hb
    · exact (hext blocks _).reports v (h r hr)
    · exact ih ((checkBlock_extends _ _).warned hr) hb

section Paths

variable {cfg : Cfg} {v : String} {vars : VarMap} {i : Nat} {r : DataflowResult AssignedSet}

/-- In the result, a clear bit spreads along successor edges to blocks that do not set it. -/
abbrev SpreadsTo (cfg : Cfg) (v : String) (vars : VarMap) (i : Nat)
    (r : DataflowResult AssignedSet) : Prop :=
  (definitelyAssigned vars).Spread cfg (fun s => AssignedSet.get s i = false)
    (fun b => ∃ block, cfg.blocks[b]? = some block ∧ v ∈ block.transferDefs)
    ⟨r.blockIn, r.blockOut, []⟩

/-- A point that is reached with the variable unassigned, as the solver knows it: the block
is the entry or follows a block at whose end the variable is unassigned, and the statements
before the point define nothing. -/
structure Unassigned (cfg : Cfg) (v : String) (vars : VarMap) (i : Nat)
    (r : DataflowResult AssignedSet) (p : Point) (block : BasicBlock) : Prop where
  lookup : cfg.blocks[p.block]? = some block
  pos : p.pos ≤ block.stmts.length
  enters : p.block = cfg.entry ∨ ∃ q, p.block ∈ cfg.successors q ∧
    AssignedSet.get (r.blockOut.getD q (definitelyAssigned vars).bottom) i = false
  defs : ∀ j s, j < p.pos → block.stmts[j]? = some s →
    v ∉ transferStmtDefs s ∧ v ∉ (collectStmtUses s).defs

variable {p : Point} {block : BasicBlock}

/-- The solver sees the variable unassigned at the end of a block that does not assign it. -/
theorem Unassigned.out (h : Unassigned cfg v vars i r p block) (hr : SpreadsTo cfg v vars i r)
    (hd : v ∉ block.transferDefs) :
    AssignedSet.get (r.blockOut.getD p.block (definitelyAssigned vars).bottom) i = false := by
  have hstop : ¬ ∃ b, cfg.blocks[p.block]? = some b ∧ v ∈ b.transferDefs := by
    rintro ⟨b, hb, hm⟩
    rw [h.lookup] at hb
    cases hb
    exact hd hm
  rcases h.enters with he | ⟨q, hq, hlow⟩
  · rw [he] at hstop ⊢
    rw [hr.entryOut]
    exact hr.laws.transfer _ _ hstop hr.laws.entry
  · exact hr.edges q p.block hq hlow (not_mem_nil) hstop

/-- A visible read of the unassigned variable is reported. -/
theorem Unassigned.not_mem_readsAt (h : Unassigned cfg v vars i r p block)
    (hr : SpreadsTo cfg v vars i r) (hv : vars.indexOf v = some i)
    (hno : ¬ (Report.checkBlocks vars ⟨[], []⟩ (cfg.blocks.zip r.blockIn)).Reports v)
    (hvis : Visible cfg v p) : v ∉ block.readsAt p.pos := by
  intro hread
  obtain ⟨huse, hblock⟩ := hvis block h.lookup hread
  have hin : AssignedSet.get (r.blockIn.getD p.block (definitelyAssigned vars).bottom) i =
      false := by
    rcases hblock with he | hd
    · rw [he, hr.entryIn]
      exact hr.laws.entry
    · exact hr.inputs p.block (h.out hr hd)
  obtain ⟨hlt, hget⟩ := List.getElem?_eq_some_iff.mp h.lookup
  have hlt' : p.block < r.blockIn.length := by
    rw [hr.lengthIn]
    exact hlt
  have hzip : (block, r.blockIn.getD p.block (definitelyAssigned vars).bottom) ∈
      cfg.blocks.zip r.blockIn := by
    rw [getD_eq_getElem?_getD, getElem?_eq_getElem hlt', Option.getD_some, ← hget]
    exact mem_iff_getElem.mpr ⟨p.block, by simp [hlt, hlt'], by simp⟩
  apply hno
  refine Report.checkBlocks_reports (by simp) hzip fun r' hr' => ?_
  exact Report.checkBlock_reports hr' hv hin h.defs h.pos huse

/-- A move that neither reads nor writes the variable leaves it unassigned. -/
theorem Unassigned.move (h : Unassigned cfg v vars i r p block) (hr : SpreadsTo cfg v vars i r)
    (hg : cfg.PredsExact) {m : Move} {q : Point} (hm : Moves cfg.blocks p m (some q))
    (hraise : m ≠ .raise) (hread : v ∉ block.readsAt p.pos) (hwrite : v ∉ m.writes)
    (hmay : v ∉ m.mayWrites) :
    ∃ block', Unassigned cfg v vars i r q block' := by
  generalize hq : some q = q' at hm
  cases hm with
  | stmt hb hs =>
    cases hq
    next b k block' s =>
    obtain rfl : block' = block := Option.some.inj (hb.symm.trans h.lookup)
    have hlt : k < block'.stmts.length := (List.getElem?_eq_some_iff.mp hs).1
    refine ⟨block', hb, hlt, h.enters, fun j s' hj hs' => ?_⟩
    rcases Nat.lt_succ_iff_lt_or_eq.mp hj with hj | rfl
    · exact h.defs j s' hj hs'
    · rw [hs] at hs'
      cases hs'
      simp only [BasicBlock.readsAt, hs] at hread
      constructor
      · intro hd
        exact (accessed_of_stmt (Or.inl hd)).elim hread fun h => h.elim hwrite hmay
      · intro hd
        exact (accessed_of_stmt (Or.inr hd)).elim hread fun h => h.elim hwrite hmay
  | jump hb hk ht hs =>
    cases hq
    next b k block' t target =>
    subst hk
    obtain rfl : block' = block := Option.some.inj (hb.symm.trans h.lookup)
    simp only [BasicBlock.readsAt, getElem?_length, ht, Option.elim_some] at hread
    have hd : v ∉ block'.transferDefs := by
      unfold BasicBlock.transferDefs
      rw [mem_append, not_or, ht]
      constructor
      · intro hmem
        obtain ⟨s, hs, hmem⟩ := mem_flatMap.mp hmem
        obtain ⟨j, hj, rfl⟩ := mem_iff_getElem.mp hs
        exact (h.defs j _ hj (getElem?_eq_getElem hj)).1 hmem
      · intro hmem
        split at hmem
        · next e he =>
          exact (accessed_of_terminator he hmem).elim hread fun h => h.elim hwrite hmay
        · simp at hmem
    have hsucc : target ∈ cfg.successors b := by
      rw [Cfg.successors, h.lookup]
      simp only [BasicBlock.successors, ht]
      exact hs
    obtain ⟨block'', hb''⟩ : ∃ block'', cfg.blocks[target]? = some block'' :=
      ⟨_, getElem?_eq_getElem (hg.successor_lt hsucc)⟩
    exact ⟨block'', hb'', Nat.zero_le _, Or.inr ⟨b, hsucc, h.out hr hd⟩,
      fun j s hj => absurd hj (Nat.not_lt_zero j)⟩
  | ret => cases hq
  | raise => exact absurd rfl hraise

theorem Covered.init {ms : List (Point × Move)} {m : Move} {q : Point}
    (h : Covered cfg v (ms ++ [(p, m)]) q) : Covered cfg v ms p := by
  refine ⟨fun before q' m' after he hno => ?_, fun hno => (h.moves ms p m [] rfl hno).2.2⟩
  exact h.moves before q' m' (after ++ [(p, m)]) (by rw [he]; simp) hno

/-- On a covered path the solver knows the variable to be unassigned until it is. -/
theorem unassigned_of_path (hr : SpreadsTo cfg v vars i r) (hg : cfg.PredsExact)
    (hv : vars.indexOf v = some i)
    (hno : ¬ (Report.checkBlocks vars ⟨[], []⟩ (cfg.blocks.zip r.blockIn)).Reports v)
    {ms : List (Point × Move)} (hpath : Path cfg.blocks ⟨cfg.entry, 0⟩ ms p)
    (hcov : Covered cfg v ms p) (hun : ¬ Assigned v ms) :
    ∃ block, Unassigned cfg v vars i r p block ∧ v ∉ block.readsAt p.pos := by
  induction hpath with
  | refl =>
    obtain ⟨block, hb⟩ : ∃ block, cfg.blocks[cfg.entry]? = some block :=
      ⟨_, getElem?_eq_getElem hg.entry_lt⟩
    have h : Unassigned cfg v vars i r ⟨cfg.entry, 0⟩ block :=
      ⟨hb, Nat.zero_le _, Or.inl rfl, fun j s hj => absurd hj (Nat.not_lt_zero j)⟩
    exact ⟨block, h, h.not_mem_readsAt hr hv hno (hcov.last hun)⟩
  | @tail ms q m p hpath hm ih =>
    have hbefore : ¬ Assigned v ms := fun ⟨m', hm', hw⟩ => hun ⟨m', mem_append_left _ hm', hw⟩
    have hwrite : v ∉ m.writes := fun hw =>
      hun ⟨(q, m), mem_append_right _ (mem_singleton_self _), hw⟩
    obtain ⟨block, h, hread⟩ := ih hcov.init hbefore
    obtain ⟨hraise, hmay, -⟩ := hcov.moves ms q m [] rfl hbefore
    obtain ⟨block', h'⟩ := h.move hr hg hm hraise hread hwrite hmay
    exact ⟨block', h', h'.not_mem_readsAt hr hv hno (hcov.last hun)⟩

end Paths

/-- A lint that returns has solved the dataflow problem and scanned the blocks. -/
theorem lint_eq_ok {proc : HirProcDecl} {types : List Ty} {fuel : Nat} {ws : List CompileError}
    {cfg : Cfg} {vars : VarMap} (h : lintUninitializedVars proc types fuel = .ok ws)
    (hcfg : proc.cfg = some cfg) (hvalid : cfg.predsValid = true)
    (hvars : VarMap.fromLocals types proc.loc proc.locals = .ok vars) (hne : vars ≠ []) :
    ∃ r, (definitelyAssigned vars).solve cfg fuel ((definitelyAssigned vars).start cfg) = .ok r ∧
      ws = (Report.checkBlocks vars ⟨[], []⟩ (cfg.blocks.zip r.blockIn)).warnings := by
  have hempty : vars.isEmpty = false := by simpa using hne
  unfold lintUninitializedVars at h
  simp only [hcfg, hvars, orPanic, bind_eq_ok, Except.ok.injEq] at h
  obtain ⟨_, rfl, h⟩ := h
  simp only [hempty, hvalid, if_true, Bool.false_eq_true, if_false,
    ForwardAnalysis.solveForward, pure_bind, bind_eq_ok, pure_eq_ok] at h
  obtain ⟨r, hr, he⟩ := h
  exact ⟨r, hr, he.symm⟩

/-- A variable without a warning is assigned before every read on every covered path. -/
theorem assigned_of_unreported {body : List HirStmt} {cfg : Cfg} {proc : HirProcDecl}
    {types : List Ty} {vars : VarMap} {fuel : Nat} {ws : List CompileError} {v : String}
    {loc : SourceLoc} (hbuild : buildCfg body = .ok cfg) (hproc : proc.cfg = some cfg)
    (hvars : VarMap.fromLocals types proc.loc proc.locals = .ok vars) (hv : (v, loc) ∈ vars)
    (hlint : lintUninitializedVars proc types fuel = .ok ws)
    (hno : ∀ w ∈ ws, w.message ≠ usedUnassigned v) :
    ∀ ms p, Path cfg.blocks ⟨cfg.entry, 0⟩ ms p → Covered cfg v ms p → Reads cfg v p →
      Assigned v ms := by
  intro ms p hpath hcov hread
  obtain ⟨_, _, _, _, _, hvalid, hexact, _⟩ := buildCfg_eq_ok hbuild
  obtain ⟨i, hi⟩ := VarMap.exists_indexOf hv
  obtain ⟨r, hr, rfl⟩ := lint_eq_ok hlint hproc hvalid hvars (ne_nil_of_mem hv)
  by_contra hun
  obtain ⟨block, h, hclear⟩ := unassigned_of_path
    (ForwardAnalysis.spread_solve (spreads_unassigned cfg hi) hexact hr) hexact hi
    (fun ⟨w, hw, he⟩ => hno w hw he) hpath hcov hun
  obtain ⟨block', hb, hmem⟩ := hread
  rw [h.lookup] at hb
  cases hb
  exact hclear hmem

/-- The value of the variable `x`. -/
def varX : HirExpr := ⟨.place (localPlace "x" 0), 0, .cfg⟩

/-- `g := x` for a global `g`. -/
def storeX : HirStmt :=
  ⟨.assign { base := .globalVar (localSym "g" 0), projections := [], ty := 0, loc := .cfg } varX,
    .cfg⟩

/-- A procedure with the local variable `x` and this graph. -/
def procWithX (cfg : Cfg) : HirProcDecl := ⟨[.var "x" 0], .cfg, some cfg⟩

/-- `x := 1; IF TRUE THEN g := x END`. -/
def assignThenUse : List HirStmt :=
  [assignVar "x" 0 (intExpr 1), ⟨.ifStmt (boolCond true) [storeX] [] none, .cfg⟩]

/-- The graph of `assignThenUse`. -/
def assignThenUseCfg : Cfg where
  blocks :=
    [⟨0, [assignVar "x" 0 (intExpr 1)], some (.branch (boolCond true) 2 1), none⟩,
     ⟨1, [], some (.ret none), none⟩, ⟨2, [storeX], some (.goto 1), none⟩]
  entry := 0
  preds := [[], [0, 2], [0]]
  predsValid := true

/-- The path of `assignThenUse` into its `THEN` part. -/
def assignThenUsePath : List (Point × Move) :=
  [(⟨0, 0⟩, .stmt (assignVar "x" 0 (intExpr 1))), (⟨0, 1⟩, .jump (.branch (boolCond true) 2 1))]

theorem path_assignThenUse :
    Path assignThenUseCfg.blocks ⟨0, 0⟩ assignThenUsePath ⟨2, 0⟩ := by
  have hstmt : Moves assignThenUseCfg.blocks ⟨0, 0⟩ (.stmt (assignVar "x" 0 (intExpr 1)))
      (some ⟨0, 1⟩) := .stmt rfl rfl
  have hjump : Moves assignThenUseCfg.blocks ⟨0, 1⟩ (.jump (.branch (boolCond true) 2 1))
      (some ⟨2, 0⟩) := .jump rfl rfl rfl (mem_cons_self ..)
  exact Path.tail (Path.tail Path.refl hstmt) hjump

theorem covered_assignThenUse :
    Covered assignThenUseCfg "x" assignThenUsePath ⟨2, 0⟩ := by
  have hfirst : Assigned "x" [(⟨0, 0⟩, .stmt (assignVar "x" 0 (intExpr 1)))] :=
    ⟨_, mem_singleton_self _, by decide⟩
  refine ⟨fun before q m after he hun => ?_, fun hun => absurd ?_ hun⟩
  · cases before with
    | nil =>
      cases he
      refine ⟨by simp, by decide, fun block hb hread => ?_⟩
      cases hb
      exact absurd hread (by decide)
    | cons first before =>
      obtain ⟨rfl, -⟩ := List.cons.inj he
      obtain ⟨m', hm', hw⟩ := hfirst
      exact absurd ⟨m', mem_cons.mpr (Or.inl (mem_singleton.mp hm')), hw⟩ hun
  · exact ⟨_, mem_cons_self .., by decide⟩

theorem assigned_assignThenUse :
    lintUninitializedVars (procWithX assignThenUseCfg) [.other] 3 = .ok [] ∧
      Reads assignThenUseCfg "x" ⟨2, 0⟩ ∧ Assigned "x" assignThenUsePath := by
  have hread : Reads assignThenUseCfg "x" ⟨2, 0⟩ := ⟨_, rfl, by decide⟩
  have hbuild : buildCfg assignThenUse = .ok assignThenUseCfg := rfl
  have hvars : VarMap.fromLocals [.other] .cfg [.var "x" 0] = .ok [("x", .cfg)] := rfl
  have hlint : lintUninitializedVars (procWithX assignThenUseCfg) [.other] 3 = .ok [] := rfl
  refine ⟨hlint, hread, ?_⟩
  exact assigned_of_unreported hbuild rfl hvars (mem_singleton_self _) hlint (by simp) _ _
    path_assignThenUse covered_assignThenUse hread

/-- `IF TRUE THEN g := x; x := 1 END`. -/
def useThenAssign : List HirStmt :=
  [⟨.ifStmt (boolCond true) [storeX, assignVar "x" 0 (intExpr 1)] [] none, .cfg⟩]

/-- The graph of `useThenAssign`. -/
def useThenAssignCfg : Cfg where
  blocks :=
    [⟨0, [], some (.branch (boolCond true) 2 1), none⟩, ⟨1, [], some (.ret none), none⟩,
     ⟨2, [storeX, assignVar "x" 0 (intExpr 1)], some (.goto 1), none⟩]
  entry := 0
  preds := [[], [0, 2], [0]]
  predsValid := true

/-- The `THEN` part reads `x` before it assigns it, and there is no warning. -/
theorem not_assigned_useThenAssign :
    buildCfg useThenAssign = .ok useThenAssignCfg ∧
      lintUninitializedVars (procWithX useThenAssignCfg) [.other] 3 = .ok [] ∧
      ∃ ms p, Path useThenAssignCfg.blocks ⟨0, 0⟩ ms p ∧ Reads useThenAssignCfg "x" p ∧
        ¬ Assigned "x" ms := by
  have hjump : Moves useThenAssignCfg.blocks ⟨0, 0⟩ (.jump (.branch (boolCond true) 2 1))
      (some ⟨2, 0⟩) := .jump rfl rfl rfl (mem_cons_self ..)
  refine ⟨rfl, rfl, _, ⟨2, 0⟩, Path.tail Path.refl hjump, ⟨_, rfl, by decide⟩, ?_⟩
  rintro ⟨m, hm, hw⟩
  rw [nil_append, mem_singleton] at hm
  subst hm
  exact absurd hw (by decide)

end Mx

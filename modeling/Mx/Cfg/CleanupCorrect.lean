import Mx.Cfg.Buildable
import Mx.Cfg.Renumber

/-!
# When cleanup is correct

A block that `collapse_trivial_gotos` collapses stays collapsible, so every later pass
reports a change and the loop never ends. Where no reachable block is collapsible the
loop does nothing, and cleanup is the removal of unreachable blocks.
-/

namespace Mx

open Mx.Core List

namespace Cfg

/-! ## Collapsing -/

section Collapse

variable {entry : Nat} {preds : List (List Nat)} {targets : List Nat} {blocks : List BasicBlock}
  {i t : Nat}

theorem trivialGoto_eq_some : trivialGoto entry preds targets blocks i = some t ↔
    i ≠ entry ∧ i ∉ targets ∧ (preds.getD i []).length ≤ 1 ∧
      (∃ id, blocks[i]? = some ⟨id, [], some (.goto t), none⟩) ∧ t ≠ i := by
  unfold trivialGoto
  split
  · simp_all
  split
  · simp_all
  split
  · constructor
    · intro h
      cases h
    · rintro ⟨_, _, h, _⟩
      omega
  · next h₁ h₂ h₃ =>
    split
    · next id t' hb =>
      rw [hb]
      by_cases ht : t' = i
      · rw [if_pos ht]
        constructor
        · intro h
          cases h
        · rintro ⟨_, _, _, ⟨id', he⟩, hne⟩
          cases he
          exact absurd ht hne
      · rw [if_neg ht]
        constructor
        · intro h
          cases h
          exact ⟨h₁, h₂, by omega, ⟨id, rfl⟩, ht⟩
        · rintro ⟨_, _, _, ⟨id', he⟩, _⟩
          cases he
          rfl
    · next hno =>
      constructor
      · intro h
        cases h
      · rintro ⟨_, _, _, ⟨id, hb⟩, _⟩
        exact absurd hb (hno id t)

/-- A collapsed block is collapsible as before. -/
theorem trivialGoto_redirect (h : trivialGoto entry preds targets blocks i = some t) :
    trivialGoto entry preds targets (blocks.map (redirect i t)) i = some t := by
  rw [trivialGoto_eq_some] at h ⊢
  obtain ⟨he, hh, hp, ⟨id, hb⟩, hne⟩ := h
  refine ⟨he, hh, hp, ⟨id, ?_⟩, hne⟩
  rw [getElem?_map, hb]
  simp [redirect, Terminator.replaceTarget, Terminator.mapTargets, hne]

/-- Some block of the list is collapsible. -/
def Collapsible (entry : Nat) (preds : List (List Nat)) (targets : List Nat)
    (blocks : List BasicBlock) : Prop :=
  ∃ i t, trivialGoto entry preds targets blocks i = some t

theorem collapsible_lt (h : trivialGoto entry preds targets blocks i = some t) :
    i < blocks.length := by
  obtain ⟨_, _, _, ⟨id, hb⟩, _⟩ := trivialGoto_eq_some.mp h
  exact (List.getElem?_eq_some_iff.mp hb).1

/-- Once a pass has changed something, it reports a change and leaves a collapsible block. -/
theorem foldl_collapse_changed {is : List Nat} (h : Collapsible entry preds targets blocks) :
    ∃ blocks', is.foldl (collapseBlock entry preds targets) (blocks, true) = (blocks', true) ∧
      Collapsible entry preds targets blocks' := by
  induction is generalizing blocks with
  | nil => exact ⟨blocks, rfl, h⟩
  | cons j is ih =>
    rw [foldl_cons, collapseBlock]
    cases hj : trivialGoto entry preds targets blocks j with
    | none => exact ih h
    | some t => exact ih ⟨j, t, trivialGoto_redirect hj⟩

theorem foldl_collapse {is : List Nat} (hi : i ∈ is)
    (h : trivialGoto entry preds targets blocks i = some t) :
    ∃ blocks', is.foldl (collapseBlock entry preds targets) (blocks, false) = (blocks', true) ∧
      Collapsible entry preds targets blocks' := by
  induction is with
  | nil => simp at hi
  | cons j is ih =>
    rw [foldl_cons, collapseBlock]
    cases hj : trivialGoto entry preds targets blocks j with
    | none =>
      rcases mem_cons.mp hi with rfl | hi
      · rw [hj] at h
        cases h
      · exact ih hi
    | some t => exact foldl_collapse_changed ⟨j, t, trivialGoto_redirect hj⟩

/-- The passes never end while a block is collapsible. -/
theorem collapseLoop_diverges (h : Collapsible entry preds targets blocks) (fuel : Nat) :
    collapseLoop entry preds targets fuel blocks = .error .outOfFuel := by
  induction fuel generalizing blocks with
  | zero => rfl
  | succ fuel ih =>
    obtain ⟨i, t, hi⟩ := h
    obtain ⟨blocks', hpass, hc⟩ := foldl_collapse (mem_range.mpr (collapsible_lt hi)) hi
    rw [collapseLoop, collapsePass, hpass]
    exact ih hc

/-- Without a collapsible block the first pass is the last. -/
theorem collapseLoop_eq_ok (h : ¬ Collapsible entry preds targets blocks) (fuel : Nat) :
    collapseLoop entry preds targets (fuel + 1) blocks = .ok blocks := by
  have hfold : ∀ is : List Nat,
      is.foldl (collapseBlock entry preds targets) (blocks, false) = (blocks, false) := by
    intro is
    induction is with
    | nil => rfl
    | cons j is ih =>
      rw [foldl_cons, collapseBlock]
      cases hj : trivialGoto entry preds targets blocks j with
      | none => exact ih
      | some t => exact absurd ⟨j, t, hj⟩ h
  rw [collapseLoop, collapsePass, hfold]

end Collapse

/-! ## Predecessor lists without duplicates -/

theorem addPred_nodup {p s : Nat} {preds preds' : List (List Nat)}
    (h : ∀ ps ∈ preds, ps.Nodup) (hs : addPred p preds s = .ok preds') :
    ∀ ps ∈ preds', ps.Nodup := by
  unfold addPred at hs
  split at hs
  · cases hs
  · next ps hps =>
    obtain rfl := Except.ok.inj hs
    split
    · exact h
    · next hp =>
      intro qs hqs
      rcases mem_or_eq_of_mem_set hqs with hq | rfl
      · exact h qs hq
      · have hn := h ps (mem_of_getElem? hps)
        rw [nodup_append]
        exact ⟨hn, nodup_singleton p, fun a ha b hb => by
          rintro rfl
          exact hp (by simpa using mem_singleton.mp hb ▸ ha)⟩

theorem computePreds_nodup {cfg cfg' : Cfg} (h : cfg.computePreds = .ok cfg') :
    ∀ ps ∈ cfg'.preds, ps.Nodup := by
  simp only [computePreds, bind_eq_ok, pure_eq_ok] at h
  obtain ⟨preds, hfold, rfl⟩ := h
  refine foldlM_ok_induct (fun preds => ∀ ps ∈ preds, ps.Nodup) hfold ?_ ?_
  · intro ps hps
    rw [eq_of_mem_replicate hps]
    exact nodup_nil
  · intro b _ c c' hc hstep
    exact foldlM_ok_induct (fun preds => ∀ ps ∈ preds, ps.Nodup) hstep hc
      fun s _ d d' hd hs => addPred_nodup hd hs

/-! ## Which blocks are collapsed -/

/-- Block `i` is a trivial goto: it is reachable, holds nothing but a jump to another
block, has no handler, is neither the entry nor the handler of a reachable block, and at
most one reachable block leads to it. -/
structure TrivialGoto (G : List BasicBlock) (i : Nat) : Prop where
  reachable : Reachable G i
  notEntry : i ≠ 0
  block : ∃ id t, G[i]? = some ⟨id, [], some (.goto t), none⟩ ∧ t ≠ i
  notHandler : ∀ j b, Reachable G j → G[j]? = some b → b.handler ≠ some i
  notMerge : ∀ j k bj bk, Reachable G j → Reachable G k → G[j]? = some bj → G[k]? = some bk →
    i ∈ bj.successors → i ∈ bk.successors → j = k

theorem length_le_one_iff {α : Type} {l : List α} (h : l.Nodup) :
    l.length ≤ 1 ↔ ∀ a ∈ l, ∀ b ∈ l, a = b := by
  match l with
  | [] => simp
  | [a] => simp
  | a :: b :: l =>
    have hne : a ≠ b := by
      rintro rfl
      simp at h
    constructor
    · intro hl
      simp at hl
    · intro hall
      exact absurd (hall a (by simp) b (by simp)) hne

section Renumbered

variable {G : List BasicBlock} {cfg : Cfg} {ρ : Nat → Nat}

/-- The predecessors of a renumbered block are its renumbered reachable predecessors. -/
theorem mem_preds_iff (h : Renumbers G cfg.blocks ρ) (hexact : cfg.PredsExact) {i : Nat}
    (hi : Reachable G i) (p : Nat) : p ∈ cfg.preds.getD (ρ i) [] ↔
      ∃ j b, Reachable G j ∧ G[j]? = some b ∧ i ∈ b.successors ∧ ρ j = p := by
  have hlist : p ∈ cfg.preds.getD (ρ i) [] ↔ ∃ ps, cfg.preds[ρ i]? = some ps ∧ p ∈ ps := by
    rw [getD_eq_getElem?_getD]
    cases cfg.preds[ρ i]? <;> simp
  rw [hlist, hexact.mem_iff]
  constructor
  · rintro ⟨b', hb', hs⟩
    obtain ⟨j, b, hj, hb, hjp, rfl⟩ := h.source hb'
    rw [BasicBlock.successors_rename] at hs
    obtain ⟨t, ht, hti⟩ := mem_map.mp hs
    have htr := hj.tail ⟨b, hb, mem_append_left _ ht⟩
    obtain rfl := h.inj t i htr hi hti
    exact ⟨j, b, hj, hb, ht, hjp⟩
  · rintro ⟨j, b, hj, hb, hs, rfl⟩
    refine ⟨_, h.image j b hj hb, ?_⟩
    rw [BasicBlock.successors_rename]
    exact mem_map_of_mem hs

theorem mem_handlers_iff (h : Renumbers G cfg.blocks ρ) {i : Nat} (hi : Reachable G i) :
    ρ i ∈ cfg.blocks.filterMap BasicBlock.handler ↔
      ∃ j b, Reachable G j ∧ G[j]? = some b ∧ b.handler = some i := by
  rw [mem_filterMap]
  constructor
  · rintro ⟨b', hb', hh⟩
    obtain ⟨k, hk⟩ := getElem?_of_mem hb'
    obtain ⟨j, b, hj, hb, _, rfl⟩ := h.source hk
    obtain ⟨x, hx, hxi⟩ := Option.map_eq_some_iff.mp hh
    have hxr : Reachable G x := hj.tail ⟨b, hb, by simp [BasicBlock.outEdges, hx]⟩
    obtain rfl := h.inj x i hxr hi hxi
    exact ⟨j, b, hj, hb, hx⟩
  · rintro ⟨j, b, hj, hb, hh⟩
    refine ⟨_, mem_of_getElem? (h.image j b hj hb), ?_⟩
    simp [BasicBlock.rename, hh]

/-- The blocks collapsed in the renumbered graph are the trivial gotos of the old one. -/
theorem collapsible_iff (cfg : Cfg) (h : Renumbers G cfg.blocks ρ) (hexact : cfg.PredsExact)
    (hentry : cfg.entry = 0) (hnodup : ∀ ps ∈ cfg.preds, ps.Nodup) :
    Collapsible cfg.entry cfg.preds (cfg.blocks.filterMap BasicBlock.handler) cfg.blocks ↔
      ∃ i, TrivialGoto G i := by
  have hone : ∀ i, Reachable G i → ((cfg.preds.getD (ρ i) []).length ≤ 1 ↔
      ∀ p ∈ cfg.preds.getD (ρ i) [], ∀ q ∈ cfg.preds.getD (ρ i) [], p = q) := by
    intro i _
    refine length_le_one_iff ?_
    rw [getD_eq_getElem?_getD]
    cases hps : cfg.preds[ρ i]? with
    | none => simp
    | some ps => exact hnodup ps (mem_of_getElem? hps)
  constructor
  · rintro ⟨j', t', ht⟩
    obtain ⟨he, hh, hp, ⟨id, hb'⟩, hne⟩ := trivialGoto_eq_some.mp ht
    obtain ⟨i, b, hi, hb, rfl, hren⟩ := h.source hb'
    obtain ⟨bid, ss, term, handler⟩ := b
    simp only [BasicBlock.rename, BasicBlock.mk.injEq] at hren
    obtain ⟨rfl, rfl, hterm, hhd⟩ := hren
    obtain ⟨t, rfl, htt⟩ := Option.map_eq_some_iff.mp hterm.symm
    obtain rfl := Option.map_eq_none_iff.mp hhd.symm
    cases t with
    | goto t =>
      obtain rfl : ρ t = t' := by simpa [Terminator.mapTargets] using htt
      refine ⟨i, hi, ?_, ⟨bid, t, hb, fun hti => hne (by rw [hti])⟩, ?_, ?_⟩
      · rintro rfl
        exact he (by rw [h.zero, hentry])
      · intro j b hj hbj hhandler
        exact hh ((mem_handlers_iff h hi).mpr ⟨j, b, hj, hbj, hhandler⟩)
      · intro j k bj bk hj hk hbj hbk hsj hsk
        have hpj := (mem_preds_iff h hexact hi (ρ j)).mpr ⟨j, bj, hj, hbj, hsj, rfl⟩
        have hpk := (mem_preds_iff h hexact hi (ρ k)).mpr ⟨k, bk, hk, hbk, hsk, rfl⟩
        exact h.inj j k hj hk ((hone i hi).mp hp _ hpj _ hpk)
    | _ => simp [Terminator.mapTargets] at htt
  · rintro ⟨i, hi, hne, ⟨id, t, hb, hti⟩, hhandler, hmerge⟩
    have htr : Reachable G t := hi.tail ⟨_, hb, by
      simp [BasicBlock.outEdges, BasicBlock.successors, Terminator.successors]⟩
    refine ⟨ρ i, ρ t, trivialGoto_eq_some.mpr ⟨?_, ?_, ?_, ⟨ρ i, ?_⟩, ?_⟩⟩
    · rw [hentry]
      intro h0
      exact hne (h.inj i 0 hi Relation.ReflTransGen.refl (h0.trans h.zero.symm))
    · intro hmem
      obtain ⟨j, b, hj, hbj, hh⟩ := (mem_handlers_iff h hi).mp hmem
      exact hhandler j b hj hbj hh
    · refine (hone i hi).mpr fun p hp q hq => ?_
      obtain ⟨j, bj, hj, hbj, hsj, rfl⟩ := (mem_preds_iff h hexact hi p).mp hp
      obtain ⟨k, bk, hk, hbk, hsk, rfl⟩ := (mem_preds_iff h hexact hi q).mp hq
      rw [hmerge j k bj bk hj hk hbj hbk hsj hsk]
    · rw [h.image i _ hi hb]
      rfl
    · intro he
      exact hti (h.inj t i htr hi he)

end Renumbered

/-! ## Cleanup -/

theorem markReachable_mono {blocks : List BasicBlock} {fuel fuel' : Nat} {reachable r : List Bool}
    {queue : List Nat} (h : markReachable blocks fuel reachable queue = .ok r)
    (hle : fuel ≤ fuel') : markReachable blocks fuel' reachable queue = .ok r := by
  induction fuel generalizing fuel' reachable queue with
  | zero =>
    cases queue with
    | nil =>
      unfold markReachable at h ⊢
      exact h
    | cons b queue => cases h
  | succ fuel ih =>
    cases queue with
    | nil =>
      unfold markReachable at h ⊢
      exact h
    | cons b queue =>
      obtain ⟨f, rfl⟩ : ∃ f, fuel' = f + 1 := ⟨fuel' - 1, by omega⟩
      rw [markReachable] at h ⊢
      split at h
      · exact ih h (by omega)
      · next block _ _ =>
        cases ht : block.terminator with
        | none => simp [ht] at h
        | some t =>
          simp only [ht] at h ⊢
          exact ih h (by omega)
      · cases h

theorem removeUnreachable_mono {cfg cfg' : Cfg} {fuel fuel' : Nat}
    (h : removeUnreachable fuel cfg = .ok cfg') (hle : fuel ≤ fuel') :
    removeUnreachable fuel' cfg = .ok cfg' := by
  simp only [removeUnreachable, bind_eq_ok] at h ⊢
  obtain ⟨r, hr, hrest⟩ := h
  exact ⟨r, markReachable_mono hr hle, hrest⟩

/-- Cleanup does what it is for: it terminates, its result passes the verifier and has only
reachable blocks, and for every interpretation of statements and expressions, raising ones
included, it runs like the original graph. -/
def CleanupCorrect (cfg : Cfg) : Prop :=
  ∃ fuel cfg', cleanup fuel cfg = .ok cfg' ∧ cfg'.verify = .ok () ∧
    (∀ i, i < cfg'.blocks.length → Reachable cfg'.blocks i) ∧
    ∀ (σ V : Type) (I : Interp σ V) (s : σ),
      (∀ es r, (machine I cfg'.blocks).Halts ⟨0, 0, s⟩ es r ↔
        (machine I cfg.blocks).Halts ⟨0, 0, s⟩ es r) ∧
      ((machine I cfg'.blocks).Diverges ⟨0, 0, s⟩ ↔ (machine I cfg.blocks).Diverges ⟨0, 0, s⟩) ∧
      ∀ n, ((machine I cfg'.blocks).run n ⟨0, 0, s⟩).1 =
        ((machine I cfg.blocks).run n ⟨0, 0, s⟩).1

/-- After the unreachable blocks are gone, predecessors can be computed and are exact. -/
theorem removeUnreachable_preds {cfg cfg₁ : Cfg} {ρ : Nat → Nat} (wf : cfg.WellFormed)
    (hexact : cfg.PredsExact) (hren : Renumbers cfg.blocks cfg₁.blocks ρ)
    (hentry : cfg₁.entry = 0) :
    ∃ preds, cfg₁.computePreds = .ok { cfg₁ with preds := preds, predsValid := true } ∧
      Cfg.PredsExact { cfg₁ with preds := preds, predsValid := true } := by
  have wf₁ : Cfg.WellFormed { cfg₁ with predsValid := false } :=
    Renumbers.wellFormed _ hren wf hentry fun h => by cases h
  refine computePreds_total cfg₁ wf₁.ids wf₁.targets (by rw [hentry]; exact wf₁.nonempty) ?_
  intro b' hb' hs
  obtain ⟨k, hk⟩ := getElem?_of_mem hb'
  obtain ⟨j, b, hj, hb, _, rfl⟩ := hren.source hk
  rw [BasicBlock.successors_rename, hentry] at hs
  obtain ⟨t, ht, ht0⟩ := mem_map.mp hs
  have htr := hj.tail ⟨b, hb, mem_append_left _ ht⟩
  obtain rfl := hren.inj t 0 htr Relation.ReflTransGen.refl (ht0.trans hren.zero.symm)
  -- nothing jumps to the entry of the original graph
  obtain ⟨ps, hps, hmem⟩ := (hexact.mem_iff j 0).mpr ⟨b, hb, ht⟩
  have hnil := hexact.entry
  rw [wf.entry, hps] at hnil
  cases hnil
  simp at hmem

/-- Cleanup does not terminate on a graph with a trivial goto. -/
theorem not_cleanupCorrect {cfg : Cfg} (wf : cfg.WellFormed) (hexact : cfg.PredsExact) {i : Nat}
    (htrivial : TrivialGoto cfg.blocks i) (fuel : Nat) (cfg' : Cfg) :
    cleanup fuel cfg ≠ .ok cfg' := by
  obtain ⟨fuel₀, cfg₁, ρ, hren, hentry, hrun⟩ := removeUnreachable_spec wf
  obtain ⟨preds, hpreds, hexact₁⟩ := removeUnreachable_preds wf hexact hren hentry
  have hiff := collapsible_iff { cfg₁ with preds := preds, predsValid := true } hren hexact₁ hentry
    (computePreds_nodup hpreds)
  intro hclean
  simp only [cleanup, bind_eq_ok] at hclean
  obtain ⟨cfg₁', h₁, cfg₂', h₂, cfg₃', h₃, _⟩ := hclean
  -- the search ends in the same way at every bound where it ends
  have hsame := removeUnreachable_mono h₁ (Nat.le_max_left fuel fuel₀)
  rw [hrun _ (Nat.le_max_right fuel fuel₀)] at hsame
  cases hsame
  rw [hpreds] at h₂
  cases h₂
  simp only [collapseTrivialGotos, bind_eq_ok] at h₃
  obtain ⟨blocks, hloop, _⟩ := h₃
  rw [collapseLoop_diverges (hiff.mpr ⟨i, htrivial⟩)] at hloop
  cases hloop

/-- Without a trivial goto, cleanup removes the unreachable blocks. -/
theorem cleanup_spec {cfg : Cfg} (wf : cfg.WellFormed) (hexact : cfg.PredsExact)
    (hno : ¬ ∃ i, TrivialGoto cfg.blocks i) :
    ∃ fuel cfg' ρ, cleanup fuel cfg = .ok cfg' ∧ cfg'.WellFormed ∧
      Renumbers cfg.blocks cfg'.blocks ρ := by
  obtain ⟨fuel₀, cfg₁, ρ, hren, hentry, hrun⟩ := removeUnreachable_spec wf
  obtain ⟨preds, hpreds, hexact₁⟩ := removeUnreachable_preds wf hexact hren hentry
  have hiff := collapsible_iff { cfg₁ with preds := preds, predsValid := true } hren hexact₁ hentry
    (computePreds_nodup hpreds)
  have hloop := collapseLoop_eq_ok (mt hiff.mp hno) fuel₀
  refine ⟨fuel₀ + 1, { cfg₁ with preds := preds, predsValid := true }, ρ, ?_,
    Renumbers.wellFormed _ hren wf hentry fun _ => hexact₁, hren⟩
  simp only [cleanup, bind_eq_ok]
  refine ⟨cfg₁, hrun _ (Nat.le_succ fuel₀), _, by rw [hpreds]; rfl,
    { cfg₁ with preds := preds, predsValid := false }, ?_, ?_⟩
  · simp only [collapseTrivialGotos, bind_eq_ok, pure_eq_ok]
    exact ⟨_, hloop, rfl⟩
  · simp only [computePreds, bind_eq_ok, pure_eq_ok] at hpreds
    obtain ⟨preds', hfold, he⟩ := hpreds
    simp only [Cfg.mk.injEq] at he
    obtain ⟨_, _, rfl, _⟩ := he
    simp only [computePreds, hfold]
    rfl

/-- Cleanup of a graph that `build_cfg` returns is correct exactly if the graph has no
trivial goto; otherwise it does not terminate. -/
theorem cleanupCorrect_iff {body : List HirStmt} {cfg : Cfg} (hcfg : buildCfg body = .ok cfg) :
    cfg.CleanupCorrect ↔ ¬ ∃ i, TrivialGoto cfg.blocks i := by
  obtain ⟨_, _, _, _, _, _, hexact, wf⟩ := buildCfg_eq_ok hcfg
  constructor
  · rintro ⟨fuel, cfg', hclean, _⟩ ⟨i, htrivial⟩
    exact not_cleanupCorrect wf hexact htrivial fuel cfg' hclean
  · intro hno
    obtain ⟨fuel, cfg', ρ, hclean, wf', hren⟩ := cleanup_spec wf hexact hno
    refine ⟨fuel, cfg', hclean, verify_eq_ok.mpr wf', fun i hi => hren.reachable hi,
      fun σ V I s => ?_⟩
    have hsame := Machine.same_of_image (M := machine I cfg.blocks)
      (N := machine I cfg'.blocks) (g := Renumbers.config ρ) (c := ⟨0, 0, s⟩) fun n => by
        have himage := hren.run_image (I := I)
          (fun i => reachable_lt wf.closed wf.nonempty) n s
        simpa [Renumbers.config, hren.zero] using himage
    simpa [Renumbers.config, hren.zero] using hsame

/-- `IF TRUE THEN RETURN 1 ELSE RETURN 2 END`. -/
def returnBoth : List HirStmt :=
  [⟨.ifStmt (boolCond true) [⟨.ret (some (intExpr 1)), .cfg⟩] []
    (some [⟨.ret (some (intExpr 2)), .cfg⟩]), .cfg⟩]

/-- The graph of `returnBoth`; its merge block is unreachable. -/
def returnBothCfg : Cfg where
  blocks :=
    [⟨0, [], some (.branch (boolCond true) 2 3), none⟩, ⟨1, [], some (.ret none), none⟩,
     ⟨2, [], some (.ret (some (intExpr 1))), none⟩, ⟨3, [], some (.ret (some (intExpr 2))), none⟩]
  entry := 0
  preds := [[], [], [0], [0]]
  predsValid := true

theorem not_trivialGoto_returnBothCfg : ¬ ∃ i, TrivialGoto returnBothCfg.blocks i := by
  rintro ⟨i, _, _, ⟨id, t, hb, _⟩, _⟩
  have hmem := mem_of_getElem? hb
  simp [returnBothCfg] at hmem

theorem cleanupCorrect_returnBoth :
    buildCfg returnBoth = .ok returnBothCfg ∧ returnBothCfg.CleanupCorrect := by
  have hcfg : buildCfg returnBoth = .ok returnBothCfg := rfl
  exact ⟨hcfg, (cleanupCorrect_iff hcfg).mpr not_trivialGoto_returnBothCfg⟩

/-- `IF TRUE THEN END`. -/
def emptyThen : List HirStmt := [⟨.ifStmt (boolCond true) [] [] none, .cfg⟩]

/-- The graph of `emptyThen`; block 2 is the `THEN` part. -/
def emptyThenCfg : Cfg where
  blocks :=
    [⟨0, [], some (.branch (boolCond true) 2 1), none⟩, ⟨1, [], some (.ret none), none⟩,
     ⟨2, [], some (.goto 1), none⟩]
  entry := 0
  preds := [[], [0, 2], [0]]
  predsValid := true

theorem trivialGoto_emptyThenCfg : TrivialGoto emptyThenCfg.blocks 2 where
  reachable := .single ⟨_, rfl, by
    simp [BasicBlock.outEdges, BasicBlock.successors, Terminator.successors]⟩
  notEntry := by decide
  block := ⟨2, 1, rfl, by decide⟩
  notHandler j b _ hb := by
    have hmem := mem_of_getElem? hb
    simp only [emptyThenCfg, mem_cons, not_mem_nil, or_false] at hmem
    rcases hmem with rfl | rfl | rfl <;> simp
  notMerge j k bj bk _ _ hj hk hsj hsk := by
    have hzero : ∀ (j : Nat) (b : BasicBlock), emptyThenCfg.blocks[j]? = some b →
        2 ∈ b.successors → j = 0 := by
      intro j b hb hs
      rcases j with _ | _ | _ | j
      · rfl
      · cases hb
        simp [BasicBlock.successors, Terminator.successors] at hs
      · cases hb
        simp [BasicBlock.successors, Terminator.successors] at hs
      · simp [emptyThenCfg] at hb
    rw [hzero j bj hj hsj, hzero k bk hk hsk]

/-- The block of an empty `THEN` part is a trivial goto, so cleanup does not terminate. -/
theorem not_cleanupCorrect_emptyThen :
    buildCfg emptyThen = .ok emptyThenCfg ∧ ¬ emptyThenCfg.CleanupCorrect := by
  refine ⟨rfl, ?_⟩
  rintro ⟨fuel, cfg', hclean, _⟩
  have hbuild : buildCfg emptyThen = .ok emptyThenCfg := rfl
  obtain ⟨_, _, _, _, _, _, hexact, wf⟩ := buildCfg_eq_ok hbuild
  exact not_cleanupCorrect wf hexact trivialGoto_emptyThenCfg fuel cfg' hclean

end Cfg

end Mx

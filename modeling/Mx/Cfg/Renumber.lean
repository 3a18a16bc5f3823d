import Mx.Cfg.Reachability
import Mx.Cfg.Semantics
import Mx.Cfg.Verify
import Mx.Core.Compact

/-!
# Removing unreachable blocks

`remove_unreachable` keeps the reachable blocks in order and renames every reference to
them. What follows about the new graph (it is well formed, all its blocks are
reachable, and it runs in lockstep with the old one) uses only that.
-/

namespace Mx

open Mx.Core List

/-- A block at its new place, with its references renamed. -/
def BasicBlock.rename (ρ : Nat → Nat) (id : Nat) (b : BasicBlock) : BasicBlock where
  id := id
  stmts := b.stmts
  terminator := b.terminator.map (Terminator.mapTargets ρ)
  handler := b.handler.map ρ

/-- The blocks of `G'` are the reachable blocks of `G`, each at its new place. -/
structure Renumbers (G G' : List BasicBlock) (ρ : Nat → Nat) : Prop where
  image : ∀ i b, Reachable G i → G[i]? = some b → G'[ρ i]? = some (b.rename ρ (ρ i))
  onto : ∀ j b', G'[j]? = some b' → ∃ i b, Reachable G i ∧ G[i]? = some b ∧ ρ i = j
  inj : ∀ i j, Reachable G i → Reachable G j → ρ i = ρ j → i = j
  zero : ρ 0 = 0

namespace Cfg

theorem newIds_getElem? {reachable : List Bool} {next i : Nat} (h : Marked reachable i) :
    (newIds reachable next)[i]? = some (next + rank id reachable i) := by
  induction reachable generalizing next i with
  | nil => simp [Marked] at h
  | cons r rest ih =>
    cases i with
    | zero =>
      obtain rfl : r = true := by simpa [Marked] using h
      simp [newIds]
    | succ i =>
      have hi : ∀ k, (newIds rest k)[i]? = some (k + rank id rest i) :=
        fun k => ih (by simpa [Marked] using h)
      rw [rank_cons_succ]
      cases r with
      | true =>
        rw [newIds, getElem?_cons_succ, hi]
        simp
        omega
      | false =>
        rw [newIds, getElem?_cons_succ, hi]
        simp

theorem newIds_length (reachable : List Bool) (next : Nat) :
    (newIds reachable next).length = reachable.length := by
  induction reachable generalizing next with
  | nil => rfl
  | cons r rest ih => cases r <;> simp [newIds, ih]

theorem remapBlock_eq_ok {newId : List Nat} {b : BasicBlock}
    (h : ∀ t ∈ b.id :: b.outEdges, t < newId.length) :
    remapBlock newId b = .ok (b.rename (fun t => newId.getD t 0) b.id) := by
  have hnone : (b.id :: b.successors ++ b.handler.toList).find?
      (fun t => decide (newId.length ≤ t)) = none := by
    rw [find?_eq_none]
    intro t ht
    simpa using h t (by simpa [BasicBlock.outEdges] using ht)
  rw [remapBlock, hnone]
  rfl

theorem mapM_eq_ok {α β ε : Type} {f : α → Except ε β} {g : α → β} {l : List α}
    (h : ∀ a ∈ l, f a = .ok (g a)) : l.mapM f = .ok (l.map g) := by
  induction l with
  | nil => rfl
  | cons a l ih =>
    rw [forall_mem_cons] at h
    rw [mapM_cons, h.1, ih h.2]
    rfl

variable {cfg : Cfg}

theorem WellFormed.closed (wf : cfg.WellFormed) : Closed cfg.blocks := by
  refine ⟨wf.sealed, fun b hb j hj => ?_⟩
  rcases mem_append.mp hj with hj | hj
  · exact wf.targets b hb j hj
  · exact (wf.handlers b hb j (by simpa using hj)).1

theorem reachable_lt (hc : Closed cfg.blocks) (hne : 0 < cfg.blocks.length) {i : Nat}
    (h : Reachable cfg.blocks i) : i < cfg.blocks.length := by
  induction h with
  | refl => exact hne
  | tail _ hij _ =>
    obtain ⟨b, hb, hj⟩ := hij
    exact hc.edges b (mem_of_getElem? hb) _ hj

/-- The retained blocks are the reachable ones, renumbered by their rank. -/
theorem retainReachable_renumbers (wf : cfg.WellFormed) {reachable : List Bool}
    (hlen : reachable.length = cfg.blocks.length)
    (hmarked : ∀ i, Marked reachable i ↔ Reachable cfg.blocks i) :
    Renumbers cfg.blocks
      (retainReachable reachable (cfg.blocks.map fun b =>
        b.rename (fun t => (newIds reachable 0).getD t 0) b.id))
      fun t => (newIds reachable 0).getD t 0 := by
  have hne : 0 < cfg.blocks.length := wf.nonempty
  have hclosed := wf.closed
  -- the renaming is the rank among the reachable blocks
  have hkeep : ∀ i b, cfg.blocks[i]? = some b →
      (reachable.getD b.id false = true ↔ Reachable cfg.blocks i) := by
    intro i b hb
    rw [wf.ids i b hb, ← hmarked i, Marked, getD_eq_getElem?_getD]
    cases reachable[i]? <;> simp
  have hlist : reachable = cfg.blocks.map fun b => reachable.getD b.id false := by
    apply ext_getElem?
    intro i
    rw [getElem?_map]
    cases hb : cfg.blocks[i]? with
    | none => simpa [hlen] using hb
    | some b =>
      have hi : i < reachable.length := hlen ▸ (List.getElem?_eq_some_iff.mp hb).1
      rw [Option.map_some, wf.ids i b hb, getD_eq_getElem?_getD,
        getElem?_eq_getElem hi, Option.getD_some]
  have hrank : ∀ i, Reachable cfg.blocks i → (newIds reachable 0).getD i 0 =
      rank (fun b : BasicBlock => reachable.getD b.id false) cfg.blocks i := by
    intro i hi
    rw [getD_eq_getElem?_getD, newIds_getElem? ((hmarked i).mpr hi), Option.getD_some, Nat.zero_add]
    conv_lhs => rw [hlist]
    rw [rank, rank, ← map_take, countP_map]
    rfl
  have hget : ∀ i, Reachable cfg.blocks i → ∃ b, cfg.blocks[i]? = some b := fun i hi =>
    ⟨_, getElem?_eq_getElem (reachable_lt hclosed hne hi)⟩
  refine ⟨?_, ?_, ?_, ?_⟩
  · intro i b hi hb
    have hfilter := filter_getElem?_rank (p := fun b : BasicBlock => reachable.getD b.id false) hb
      ((hkeep i b hb).mpr hi)
    rw [hrank i hi]
    simp only [retainReachable, getElem?_mapIdx, filter_map, getElem?_map]
    change Option.map _ (Option.map _
      (cfg.blocks.filter fun b => reachable.getD b.id false)[_]?) = _
    rw [hfilter]
    rfl
  · intro j b' hb'
    simp only [retainReachable, getElem?_mapIdx, filter_map, getElem?_map,
      Option.map_eq_some_iff] at hb'
    obtain ⟨_, ⟨b, hb, rfl⟩, rfl⟩ := hb'
    obtain ⟨i, hi, hp, rfl⟩ := exists_rank_of_filter hb
    have hr := (hkeep i b hi).mp hp
    exact ⟨i, b, hr, hi, hrank i hr⟩
  · intro i j hi hj hij
    obtain ⟨bi, hbi⟩ := hget i hi
    obtain ⟨bj, hbj⟩ := hget j hj
    simp only [hrank i hi, hrank j hj] at hij
    exact rank_inj hbi hbj ((hkeep i bi hbi).mpr hi) ((hkeep j bj hbj).mpr hj) hij
  · exact (hrank 0 Relation.ReflTransGen.refl).trans rank_zero

/-- With enough rounds `remove_unreachable` returns the renumbered reachable blocks. -/
theorem removeUnreachable_spec (wf : cfg.WellFormed) :
    ∃ fuel₀ cfg' ρ, Renumbers cfg.blocks cfg'.blocks ρ ∧ cfg'.entry = 0 ∧
      ∀ fuel, fuel₀ ≤ fuel → removeUnreachable fuel cfg = .ok cfg' := by
  obtain ⟨fuel₀, reachable, hlen, hmarked, hrun⟩ := markReachable_spec wf.closed wf.nonempty
  have hmap : cfg.blocks.mapM (remapBlock (newIds reachable 0)) = .ok (cfg.blocks.map fun b =>
      b.rename (fun t => (newIds reachable 0).getD t 0) b.id) := by
    refine mapM_eq_ok fun b hb => remapBlock_eq_ok ?_
    rw [newIds_length, hlen, forall_mem_cons]
    obtain ⟨i, hi⟩ := getElem?_of_mem hb
    exact ⟨wf.ids i b hi ▸ (List.getElem?_eq_some_iff.mp hi).1, wf.closed.edges b hb⟩
  refine ⟨fuel₀, { cfg with blocks := _, entry := 0, predsValid := false }, _,
    retainReachable_renumbers wf hlen hmarked, rfl, fun fuel hf => ?_⟩
  rw [removeUnreachable, wf.entry, hrun fuel hf]
  simp only [bind_eq_ok, pure_eq_ok]
  exact ⟨reachable, rfl, _, by rw [hmap]; rfl, rfl⟩

end Cfg

/-! ## The renumbered graph -/

theorem BasicBlock.successors_rename (ρ : Nat → Nat) (id : Nat) (b : BasicBlock) :
    (b.rename ρ id).successors = b.successors.map ρ := by
  cases ht : b.terminator <;> simp [BasicBlock.rename, BasicBlock.successors, ht]

theorem BasicBlock.outEdges_rename (ρ : Nat → Nat) (id : Nat) (b : BasicBlock) :
    (b.rename ρ id).outEdges = b.outEdges.map ρ := by
  rw [BasicBlock.outEdges, BasicBlock.successors_rename, BasicBlock.outEdges, map_append]
  cases hh : b.handler <;> simp [BasicBlock.rename, hh]

namespace Renumbers

variable {G G' : List BasicBlock} {ρ : Nat → Nat}

/-- Every block of the new graph comes from a reachable block. -/
theorem source (h : Renumbers G G' ρ) {j : Nat} {b' : BasicBlock} (hb' : G'[j]? = some b') :
    ∃ i b, Reachable G i ∧ G[i]? = some b ∧ ρ i = j ∧ b' = b.rename ρ j := by
  obtain ⟨i, b, hi, hb, rfl⟩ := h.onto j b' hb'
  have himage := h.image i b hi hb
  exact ⟨i, b, hi, hb, rfl, Option.some.inj (hb'.symm.trans himage)⟩

/-- A path of the old graph is a path of the new one. -/
theorem reachable_image (h : Renumbers G G' ρ) {i : Nat} (hi : Reachable G i) :
    Reachable G' (ρ i) := by
  induction hi with
  | refl =>
    rw [h.zero]
    exact Relation.ReflTransGen.refl
  | @tail i j hi hij ih =>
    obtain ⟨b, hb, hj⟩ := hij
    refine ih.tail ⟨b.rename ρ (ρ i), h.image i b hi hb, ?_⟩
    rw [BasicBlock.outEdges_rename]
    exact mem_map_of_mem hj

/-- All blocks of the new graph are reachable. -/
theorem reachable (h : Renumbers G G' ρ) {j : Nat} (hj : j < G'.length) : Reachable G' j := by
  obtain ⟨i, b, hi, _, rfl⟩ := h.onto j _ (getElem?_eq_getElem hj)
  exact h.reachable_image hi

section Run

variable {σ V : Type} {I : Interp σ V}

/-- A configuration of the old graph, seen in the new one. -/
def config (ρ : Nat → Nat) (c : Config σ) : Config σ := ⟨ρ c.block, c.pos, c.store⟩

theorem raiseTo_rename (handler : Option Nat) (s : σ) :
    (raiseTo (handler.map ρ) s : Config σ ⊕ Result σ V) =
      (raiseTo handler s).map (config ρ) id := by
  cases handler <;> rfl

theorem evalIn_rename {handler : Option Nat} {e : HirExpr} {s : σ}
    {k k' : V → σ → Config σ ⊕ Result σ V}
    (hk : ∀ v s', k' v s' = (k v s').map (config ρ) id) :
    evalIn I (handler.map ρ) e s k' =
      ((evalIn I handler e s k).1, (evalIn I handler e s k).2.map (config ρ) id) := by
  unfold evalIn
  split
  · simp [hk]
  · simp [raiseTo_rename]

theorem switchTarget_rename (arms : List SwitchArm) (default : Nat) (v : V) (s : σ) :
    switchTarget I (arms.map fun arm => { arm with target := ρ arm.target }) (ρ default) v s =
      ρ (switchTarget I arms default v s) := by
  unfold switchTarget
  rw [find?_map]
  cases h : arms.find? fun arm => arm.labels.any fun l => I.matchLabel l v s with
  | none | some arm => simp [Function.comp_def, h]

/-- A renamed terminator leads to the renamed targets. -/
theorem stepTerminator_rename (handler : Option Nat) (s : σ) (t : Terminator) :
    stepTerminator I (handler.map ρ) s (t.mapTargets ρ) =
      ((stepTerminator I handler s t).1, (stepTerminator I handler s t).2.map (config ρ) id) := by
  cases t with
  | goto b => rfl
  | branch c onTrue onFalse =>
    refine evalIn_rename fun v s' => ?_
    cases I.truth v <;> rfl
  | switch e arms default =>
    refine evalIn_rename fun v s' => ?_
    rw [switchTarget_rename]
    rfl
  | ret e =>
    cases e with
    | none => rfl
    | some e => exact evalIn_rename fun _ _ => rfl
  | raise e =>
    simp only [Terminator.mapTargets, stepTerminator, raiseTo_rename]

theorem step_image (h : Renumbers G G' ρ) {c : Config σ} (hc : Reachable G c.block)
    (hlt : c.block < G.length) :
    (machine I G').step (config ρ c) =
      (((machine I G).step c).1, ((machine I G).step c).2.map (config ρ) id) := by
  obtain ⟨b, hb⟩ : ∃ b, G[c.block]? = some b := ⟨_, getElem?_eq_getElem hlt⟩
  simp only [machine, stepBlocks, config, h.image _ b hc hb, hb, BasicBlock.rename]
  cases b.stmts[c.pos]? with
  | some stmt =>
    simp only [stepStmt]
    cases I.exec stmt c.store with
    | ok s' => rfl
    | error s' => simp [raiseTo_rename]
  | none =>
    cases b.terminator with
    | none => rfl
    | some t => simp only [Option.map_some, stepTerminator_rename]

/-- Where an expression of a block with this handler can lead. -/
theorem evalIn_target {handler : Option Nat} {e : HirExpr} {s : σ}
    {k : V → σ → Config σ ⊕ Result σ V} {es : List Event} {c' : Config σ} {ts : List Nat}
    (hk : ∀ v s' c', k v s' = .inl c' → c'.block ∈ ts)
    (h : evalIn I handler e s k = (es, .inl c')) : c'.block ∈ ts ++ handler.toList := by
  unfold evalIn at h
  split at h
  · next v s' _ =>
    have hv := hk v s' c' (by simpa using congrArg Prod.snd h)
    exact mem_append_left _ hv
  · cases handler with
    | none => simp [raiseTo] at h
    | some x =>
      obtain ⟨_, rfl⟩ : _ ∧ _ = c' := by simpa [raiseTo] using h
      simp

theorem switchTarget_mem (arms : List SwitchArm) (default : Nat) (v : V) (s : σ) :
    switchTarget I arms default v s ∈ arms.map SwitchArm.target ++ [default] := by
  unfold switchTarget
  split
  · next arm h =>
    exact mem_append_left _ (mem_map_of_mem (mem_of_find?_eq_some h))
  · simp

theorem stepTerminator_target {handler : Option Nat} {s : σ} {t : Terminator} {es : List Event}
    {c' : Config σ} (h : stepTerminator I handler s t = (es, .inl c')) :
    c'.block ∈ t.successors ++ handler.toList := by
  cases t with
  | goto b =>
    obtain ⟨_, rfl⟩ : _ ∧ _ = c' := by simpa [stepTerminator, enter] using h
    simp [Terminator.successors]
  | branch c onTrue onFalse =>
    refine evalIn_target (fun v s' c' hv => ?_) h
    obtain rfl : _ = c' := by simpa [enter] using hv
    cases I.truth v <;> simp [Terminator.successors]
  | switch e arms default =>
    refine evalIn_target (fun v s' c' hv => ?_) h
    obtain rfl : _ = c' := by simpa [enter] using hv
    exact switchTarget_mem arms default v s'
  | ret e =>
    cases e with
    | none => simp [stepTerminator] at h
    | some e => exact evalIn_target (fun v s' c' hv => by simp at hv) h
  | raise e =>
    cases handler with
    | none => simp [stepTerminator, raiseTo] at h
    | some x =>
      obtain ⟨_, rfl⟩ : _ ∧ _ = c' := by simpa [stepTerminator, raiseTo] using h
      simp

/-- A step stays in its block or follows an edge. -/
theorem step_edge {c c' : Config σ} {es : List Event} (h : (machine I G).step c = (es, .inl c')) :
    c'.block = c.block ∨ Edge G c.block c'.block := by
  simp only [machine, stepBlocks] at h
  split at h
  · simp at h
  · next b hb =>
    split at h
    · next stmt _ _ _ =>
      unfold stepStmt at h
      split at h
      · obtain ⟨_, rfl⟩ : _ ∧ _ = c' := by simpa using h
        exact Or.inl rfl
      · cases hh : b.handler with
        | none => simp [raiseTo, hh] at h
        | some x =>
          obtain ⟨_, rfl⟩ : _ ∧ _ = c' := by simpa [raiseTo, hh] using h
          exact Or.inr ⟨b, hb, by simp [BasicBlock.outEdges, hh]⟩
    · next t ht =>
      have ht' := stepTerminator_target h
      refine Or.inr ⟨b, hb, ?_⟩
      simpa [BasicBlock.outEdges, BasicBlock.successors, ht] using ht'
    · simp at h

/-- The renumbered graph runs in lockstep with the old one. -/
theorem run_image (h : Renumbers G G' ρ) (hlt : ∀ i, Reachable G i → i < G.length) (n : Nat)
    (s : σ) :
    (machine I G').run n ⟨0, 0, s⟩ = (((machine I G).run n ⟨0, 0, s⟩).1,
      ((machine I G).run n ⟨0, 0, s⟩).2.map (config ρ) id) := by
  have hrun := Machine.run_image (M := machine I G) (N := machine I G') (g := config ρ)
    (P := fun c => Reachable G c.block) (c := ⟨0, 0, s⟩)
    (fun c hc => h.step_image hc (hlt _ hc)) ?_ n Relation.ReflTransGen.refl
  · simpa [config, h.zero] using hrun
  · intro c es c' hc hs
    rcases step_edge hs with he | he
    · rw [he]
      exact hc
    · exact hc.tail he

end Run

/-! ### Invariants -/

theorem escapes_image (h : Renumbers G G' ρ) {o : Option Nat} (he : Cfg.Escapes G o)
    (ho : ∀ x ∈ o, Reachable G x) : Cfg.Escapes G' (o.map ρ) := by
  induction he with
  | outside => exact .outside
  | @handler x b hb _ ih =>
    have hx := ho x rfl
    refine .handler (h.image x b hx hb) (ih fun y hy => hx.tail ⟨b, hb, ?_⟩)
    have hy' : b.handler = some y := hy
    simp [BasicBlock.outEdges, hy']

/-- The renumbered graph keeps every invariant that does not concern predecessors. -/
theorem wellFormed {cfg : Cfg} (cfg' : Cfg) (h : Renumbers cfg.blocks cfg'.blocks ρ)
    (wf : cfg.WellFormed) (hentry : cfg'.entry = 0)
    (hpreds : cfg'.predsValid = true → cfg'.PredsExact) : cfg'.WellFormed := by
  have hlt := fun i => Cfg.reachable_lt (i := i) wf.closed wf.nonempty
  have hsource : ∀ b' ∈ cfg'.blocks, ∃ i b, Reachable cfg.blocks i ∧ b ∈ cfg.blocks ∧
      cfg.blocks[i]? = some b ∧ b' = b.rename ρ (ρ i) := by
    intro b' hb'
    obtain ⟨j, hj⟩ := getElem?_of_mem hb'
    obtain ⟨i, b, hi, hb, rfl, he⟩ := h.source hj
    exact ⟨i, b, hi, mem_of_getElem? hb, hb, he⟩
  have hnew : ∀ i, Reachable cfg.blocks i → ρ i < cfg'.blocks.length := by
    intro i hi
    have himage := h.image i _ hi (getElem?_eq_getElem (hlt i hi))
    exact (List.getElem?_eq_some_iff.mp himage).1
  have hedge : ∀ {i b j}, Reachable cfg.blocks i → cfg.blocks[i]? = some b → j ∈ b.outEdges →
      Reachable cfg.blocks j := fun hi hb hj => hi.tail ⟨_, hb, hj⟩
  have hhandler : ∀ {b : BasicBlock} {x}, b.handler = some x → x ∈ b.outEdges := by
    intro b x hx
    simp [BasicBlock.outEdges, hx]
  refine ⟨hentry, ?_, ?_, ?_, ?_, ?_, ?_, ?_, hpreds⟩
  · have h0 := hnew 0 Relation.ReflTransGen.refl
    omega
  · intro j b' hb'
    obtain ⟨i, b, _, _, rfl, rfl⟩ := h.source hb'
    rfl
  · intro b' hb'
    obtain ⟨i, b, _, hb, _, rfl⟩ := hsource b' hb'
    simpa [BasicBlock.rename] using wf.sealed b hb
  · intro b' hb' s hs
    obtain ⟨i, b, hi, _, hb, rfl⟩ := hsource b' hb'
    rw [BasicBlock.successors_rename] at hs
    obtain ⟨t, ht, rfl⟩ := mem_map.mp hs
    exact hnew t (hedge hi hb (mem_append_left _ ht))
  · intro b' hb' e arms d ht
    obtain ⟨i, b, _, hb, _, rfl⟩ := hsource b' hb'
    obtain ⟨t, hbt, htm⟩ := Option.map_eq_some_iff.mp ht
    cases t with
    | switch e₀ arms₀ d₀ =>
      obtain ⟨rfl, rfl, rfl⟩ : e₀ = e ∧ _ = arms ∧ _ = d := by
        simpa [Terminator.mapTargets] using htm
      obtain ⟨hne, hlabels⟩ := wf.arms b hb _ _ _ hbt
      refine ⟨by simpa using hne, ?_⟩
      rw [forall_mem_map]
      exact hlabels
    | _ => simp [Terminator.mapTargets] at htm
  · intro b' hb' x hx
    obtain ⟨i, b, hi, hmem, hb, rfl⟩ := hsource b' hb'
    obtain ⟨y, hy, rfl⟩ := Option.map_eq_some_iff.mp hx
    have hyr := hedge hi hb (hhandler hy)
    refine ⟨hnew y hyr, fun he => ?_⟩
    have hyi := h.inj y i hyr hi he
    exact (wf.handlers b hmem y hy).2 (hyi.trans (wf.ids i b hb).symm)
  · intro b' hb'
    obtain ⟨i, b, hi, hmem, hb, rfl⟩ := hsource b' hb'
    exact h.escapes_image (wf.chains b hmem) fun y hy => hedge hi hb (hhandler hy)

end Renumbers

end Mx

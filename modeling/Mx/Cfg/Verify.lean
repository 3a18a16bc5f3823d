import Mx.Cfg.Graph
import Mx.Core.Except

/-!
# What the verifier accepts

`Cfg.WellFormed` states the graph invariants as properties of the graph;
`Cfg.verify` accepts exactly the well-formed graphs. The predecessor lists built
by `Cfg.computePreds` are exact.
-/

namespace Mx

open Mx.Core List

/-- Following handlers from here leaves the graph after finitely many blocks. -/
inductive Cfg.Escapes (blocks : List BasicBlock) : Option Nat → Prop where
  | outside : Escapes blocks none
  | handler {h : Nat} {b : BasicBlock} (hb : blocks[h]? = some b)
      (next : Escapes blocks b.handler) : Escapes blocks (some h)

/-- The predecessor lists say exactly which blocks jump where. -/
structure Cfg.PredsExact (cfg : Cfg) : Prop where
  length : cfg.preds.length = cfg.blocks.length
  entry : cfg.preds[cfg.entry]? = some []
  mem_iff : ∀ (p s : Nat), (∃ ps, cfg.preds[s]? = some ps ∧ p ∈ ps) ↔
    ∃ b, cfg.blocks[p]? = some b ∧ s ∈ b.successors

/-- The graph invariants. -/
structure Cfg.WellFormed (cfg : Cfg) : Prop where
  entry : cfg.entry = 0
  nonempty : 1 ≤ cfg.blocks.length
  ids : ∀ (i : Nat) (b : BasicBlock), cfg.blocks[i]? = some b → b.id = i
  sealed : ∀ b ∈ cfg.blocks, b.terminator.isSome
  targets : ∀ b ∈ cfg.blocks, ∀ s ∈ b.successors, s < cfg.blocks.length
  /-- A switch has an arm and every arm a label. -/
  arms : ∀ b ∈ cfg.blocks, ∀ e arms d, b.terminator = some (.switch e arms d) →
    arms ≠ [] ∧ ∀ arm ∈ arms, arm.labels ≠ []
  handlers : ∀ b ∈ cfg.blocks, ∀ h, b.handler = some h → h < cfg.blocks.length ∧ h ≠ b.id
  chains : ∀ b ∈ cfg.blocks, Cfg.Escapes cfg.blocks b.handler
  preds : cfg.predsValid = true → cfg.PredsExact

/-! ## Assertions -/

theorem assertRule_eq_ok {rule : VerifyRule} {holds : Bool} :
    assertRule rule holds = .ok () ↔ holds = true := by
  cases holds <;> simp [assertRule]

theorem assertEach_eq_ok {α : Type} {f : α → Except Panic Unit} {as : List α} :
    assertEach f as = .ok () ↔ ∀ a ∈ as, f a = .ok () := by
  induction as with
  | nil => simp [assertEach]
  | cons a as ih =>
    rw [assertEach, bind_eq_ok, forall_mem_cons]
    constructor
    · rintro ⟨u, h, hs⟩
      exact ⟨h, ih.mp hs⟩
    · rintro ⟨h, hs⟩
      exact ⟨(), h, ih.mpr hs⟩

/-- Two assertions in sequence. -/
theorem assert_then_eq_ok {x y : Except Panic Unit} :
    (do x; y) = .ok () ↔ x = .ok () ∧ y = .ok () := by
  rw [bind_eq_ok]
  constructor
  · rintro ⟨u, h, h'⟩
    exact ⟨h, h'⟩
  · rintro ⟨h, h'⟩
    exact ⟨(), h, h'⟩

variable {b : BasicBlock}

theorem assertSwitch_eq_ok : assertSwitch b = .ok () ↔
    ∀ e arms d, b.terminator = some (.switch e arms d) →
      arms ≠ [] ∧ ∀ arm ∈ arms, arm.labels ≠ [] := by
  unfold assertSwitch
  split
  · rename_i e arms d ht
    rw [assert_then_eq_ok, assertRule_eq_ok, assertEach_eq_ok]
    constructor
    · rintro ⟨ha, hl⟩ e' arms' d' ht'
      rw [ht] at ht'
      cases ht'
      refine ⟨by simpa using ha, fun arm harm => ?_⟩
      simpa using assertRule_eq_ok.mp (hl arm harm)
    · intro h
      obtain ⟨ha, hl⟩ := h e arms d ht
      refine ⟨by simpa using ha, fun arm harm => assertRule_eq_ok.mpr ?_⟩
      simpa using hl arm harm
  · rename_i hne
    simp only [true_iff]
    intro e arms d ht
    exact absurd ht (hne e arms d)

theorem assertHandler_eq_ok {n : Nat} : assertHandler n b = .ok () ↔
    ∀ h, b.handler = some h → h < n ∧ h ≠ b.id := by
  unfold assertHandler
  split
  · rename_i h hh
    rw [assert_then_eq_ok, assertRule_eq_ok, assertRule_eq_ok, decide_eq_true_iff,
      decide_eq_true_iff]
    constructor
    · rintro hok h' hh'
      rw [hh] at hh'
      cases hh'
      exact hok
    · exact fun hok => hok h hh
  · rename_i hn
    simp [hn]

/-! ## Handler chains -/

/-- The handlers met when following the chain from a handler field. -/
inductive HandlerChain (blocks : List BasicBlock) : Option Nat → List Nat → Prop where
  | nil : HandlerChain blocks none []
  | cons {h : Nat} {b : BasicBlock} {l : List Nat} (hb : blocks[h]? = some b)
      (next : HandlerChain blocks b.handler l) : HandlerChain blocks (some h) (h :: l)

namespace HandlerChain

variable {blocks : List BasicBlock}

variable {o : Option Nat}

theorem of_escapes (h : Cfg.Escapes blocks o) : ∃ l, HandlerChain blocks o l := by
  induction h with
  | outside => exact ⟨[], .nil⟩
  | handler hb _ ih =>
    obtain ⟨l, hl⟩ := ih
    exact ⟨_, .cons hb hl⟩

variable {l : List Nat}

/-- Handlers are a function of the block, so two chains from one place agree. -/
theorem unique {l' : List Nat} (h : HandlerChain blocks o l)
    (h' : HandlerChain blocks o l') : l = l' := by
  induction h generalizing l' with
  | nil =>
    cases h'
    rfl
  | cons hb _ ih =>
    cases h' with
    | cons hb' next' =>
      rw [hb] at hb'
      cases hb'
      rw [ih next']

theorem of_mem (h : HandlerChain blocks o l) {x : Nat}
    (hx : x ∈ l) : ∃ l', HandlerChain blocks (some x) l' ∧ l' <:+ l := by
  induction h with
  | nil => cases hx
  | cons hb next ih =>
    rcases mem_cons.mp hx with rfl | hx
    · exact ⟨_, .cons hb next, suffix_rfl⟩
    · obtain ⟨l', hl', hsuf⟩ := ih hx
      exact ⟨l', hl', hsuf.trans (suffix_cons _ _)⟩

/-- A chain that ends visits no handler twice. -/
theorem nodup (h : HandlerChain blocks o l) : l.Nodup := by
  induction h with
  | nil => exact nodup_nil
  | @cons x b l hb next ih =>
    refine nodup_cons.mpr ⟨fun hx => ?_, ih⟩
    obtain ⟨l', hl', hsuf⟩ := next.of_mem hx
    obtain rfl := (HandlerChain.cons hb next).unique hl'
    have := hsuf.length_le
    simp only [length_cons] at this
    omega

theorem lt_length (h : HandlerChain blocks o l) : ∀ x ∈ l, x < blocks.length := by
  induction h with
  | nil => simp
  | cons hb _ ih =>
    rw [forall_mem_cons]
    exact ⟨(List.getElem?_eq_some_iff.mp hb).1, ih⟩

theorem length_le (h : HandlerChain blocks o l) : l.length ≤ blocks.length := by
  have hsub : l.toFinset ⊆ Finset.range blocks.length := by
    intro x hx
    exact Finset.mem_range.mpr (h.lt_length x (mem_toFinset.mp hx))
  have hcard := Finset.card_le_card hsub
  rwa [toFinset_card_of_nodup h.nodup, Finset.card_range] at hcard

/-- The verifier follows a chain that ends, if it has seen none of it before. -/
theorem assert_ok (h : HandlerChain blocks o l) {fuel : Nat}
    {visited : List Nat} (hfuel : l.length < fuel) (hdis : ∀ x ∈ l, x ∉ visited) :
    assertHandlerChain blocks fuel visited o = .ok () := by
  induction h generalizing fuel visited with
  | nil => cases fuel <;> rfl
  | @cons x b l hb next ih =>
    obtain ⟨fuel, rfl⟩ : ∃ k, fuel = k + 1 := ⟨fuel - 1, by simp at hfuel; omega⟩
    rw [assertHandlerChain, if_neg (hdis x (mem_cons_self ..)), hb]
    refine ih (by simpa using hfuel) fun y hy => ?_
    have hxy : y ≠ x := by
      rintro rfl
      exact (nodup_cons.mp (HandlerChain.cons hb next).nodup).1 hy
    simpa [hxy] using hdis y (mem_cons_of_mem _ hy)

end HandlerChain

variable {blocks : List BasicBlock}

theorem Cfg.escapes_of_assert {fuel : Nat} {visited : List Nat}
    {o : Option Nat} (h : assertHandlerChain blocks fuel visited o = .ok ()) :
    Cfg.Escapes blocks o := by
  induction fuel generalizing visited o with
  | zero =>
    cases o with
    | none => exact .outside
    | some x => cases h
  | succ fuel ih =>
    cases o with
    | none => exact .outside
    | some x =>
      rw [assertHandlerChain] at h
      split at h
      · cases h
      · split at h
        · cases h
        · rename_i b hb
          exact .handler hb (ih h)

theorem assertHandlerChain_eq_ok {o : Option Nat} :
    assertHandlerChain blocks (blocks.length + 1) [] o = .ok () ↔ Cfg.Escapes blocks o := by
  constructor
  · exact Cfg.escapes_of_assert
  · intro h
    obtain ⟨l, hl⟩ := HandlerChain.of_escapes h
    exact hl.assert_ok (Nat.lt_succ_of_le hl.length_le) (by simp)

/-! ## Predecessor lists -/

variable {preds : List (List Nat)}

theorem assertSuccs_eq_ok : assertSuccs preds b = .ok () ↔
      ∀ s ∈ b.successors, ∃ ps, preds[s]? = some ps ∧ b.id ∈ ps := by
  rw [assertSuccs, assertEach_eq_ok]
  refine forall₂_congr fun s _ => ?_
  cases preds[s]? with
  | none => simp
  | some ps => simp [assertRule_eq_ok]

theorem assertPreds_eq_ok {ps : List Nat} {s : Nat} : assertPreds blocks (ps, s) = .ok () ↔
      ∀ p ∈ ps, ∃ b, blocks[p]? = some b ∧ s ∈ b.successors := by
  rw [assertPreds, assertEach_eq_ok]
  refine forall₂_congr fun p _ => ?_
  cases blocks[p]? with
  | none => simp
  | some b => simp [assertRule_eq_ok]

theorem assertEntryPreds_eq_ok {cfg : Cfg} :
    assertEntryPreds cfg = .ok () ↔ cfg.preds[cfg.entry]? = some [] := by
  unfold assertEntryPreds
  cases cfg.preds[cfg.entry]? with
  | none => simp
  | some ps => simp [assertRule_eq_ok]

/-- The predecessor rules hold exactly when the lists are exact. -/
theorem Cfg.verifyPreds_eq_ok {cfg : Cfg}
    (hids : ∀ (i : Nat) (b : BasicBlock), cfg.blocks[i]? = some b → b.id = i) :
    cfg.verifyPreds = .ok () ↔ cfg.PredsExact := by
  simp only [Cfg.verifyPreds, assert_then_eq_ok, assertRule_eq_ok, decide_eq_true_iff,
    assertEntryPreds_eq_ok, assertEach_eq_ok, assertSuccs_eq_ok]
  constructor
  · rintro ⟨hlen, hentry, hp1, hp2⟩
    refine ⟨hlen, hentry, fun p s => ⟨?_, ?_⟩⟩
    · rintro ⟨ps, hps, hp⟩
      have hmem : (ps, s) ∈ cfg.preds.zipIdx := by
        rw [mem_zipIdx_iff_getElem?]
        exact hps
      exact assertPreds_eq_ok.mp (hp2 (ps, s) hmem) p hp
    · rintro ⟨b, hb, hs⟩
      obtain ⟨ps, hps, hmem⟩ := hp1 b (mem_of_getElem? hb) s hs
      exact ⟨ps, hps, hids p b hb ▸ hmem⟩
  · rintro ⟨hlen, hentry, hiff⟩
    refine ⟨hlen, hentry, fun b hb s hs => ?_, fun e he => ?_⟩
    · obtain ⟨i, hi⟩ := getElem?_of_mem hb
      rw [hids i b hi]
      exact (hiff i s).mpr ⟨b, hi, hs⟩
    · obtain ⟨ps, s⟩ := e
      refine assertPreds_eq_ok.mpr fun p hp => ?_
      exact (hiff p s).mp ⟨ps, mem_zipIdx_iff_getElem?.mp he, hp⟩

/-- The verifier accepts exactly the well-formed graphs. -/
theorem Cfg.verify_eq_ok {cfg : Cfg} : cfg.verify = .ok () ↔ cfg.WellFormed := by
  simp only [Cfg.verify, assert_then_eq_ok, assertRule_eq_ok, decide_eq_true_iff,
    assertEach_eq_ok, assertSwitch_eq_ok, assertHandler_eq_ok, assertHandlerChain_eq_ok]
  have hzip : (∀ e ∈ cfg.blocks.zipIdx, e.1.id = e.2) ↔
      ∀ (i : Nat) (b : BasicBlock), cfg.blocks[i]? = some b → b.id = i := by
    constructor
    · intro h i b hb
      exact h (b, i) (mem_zipIdx_iff_getElem?.mpr hb)
    · intro h e he
      exact h e.2 e.1 (mem_zipIdx_iff_getElem?.mp he)
  rw [hzip]
  constructor
  · rintro ⟨h₁, h₂, h₃, h₄, h₅, h₆, h₇, h₈, h₉⟩
    refine ⟨h₁, h₂, h₃, h₄, h₅, h₆, h₇, h₈, fun hv => ?_⟩
    rw [if_pos hv] at h₉
    exact (Cfg.verifyPreds_eq_ok h₃).mp h₉
  · rintro ⟨h₁, h₂, h₃, h₄, h₅, h₆, h₇, h₈, h₉⟩
    refine ⟨h₁, h₂, h₃, h₄, h₅, h₆, h₇, h₈, ?_⟩
    split
    · rename_i hv
      exact (Cfg.verifyPreds_eq_ok h₃).mpr (h₉ hv)
    · rfl

/-! ## Computing predecessors -/

/-- What the predecessor lists record after the edges from `done` were added. -/
def PredsRecord (n : Nat) (preds : List (List Nat)) (edge : Nat → Nat → Prop) : Prop :=
  preds.length = n ∧ ∀ p s, (∃ ps, preds[s]? = some ps ∧ p ∈ ps) ↔ edge p s

variable {edge : Nat → Nat → Prop}

theorem addPred_record {n p s : Nat} (h : PredsRecord n preds edge) (hs : s < n) :
    ∃ preds', addPred p preds s = .ok preds' ∧
      PredsRecord n preds' fun p' s' => edge p' s' ∨ (p' = p ∧ s' = s) := by
  obtain ⟨hlen, hiff⟩ := h
  obtain ⟨ps, hps⟩ : ∃ ps, preds[s]? = some ps :=
    ⟨_, getElem?_eq_getElem (by omega)⟩
  refine ⟨_, by rw [addPred, hps], ?_⟩
  by_cases hp : p ∈ ps
  · rw [if_pos hp]
    refine ⟨hlen, fun p' s' => ?_⟩
    rw [hiff]
    refine ⟨Or.inl, ?_⟩
    rintro (h | ⟨rfl, rfl⟩)
    · exact h
    · exact (hiff _ _).mp ⟨ps, hps, hp⟩
  · rw [if_neg hp]
    refine ⟨by simpa using hlen, fun p' s' => ?_⟩
    change _ ↔ edge p' s' ∨ (p' = p ∧ s' = s)
    rw [← hiff]
    by_cases hss : s = s'
    · subst s'
      rw [getElem?_set_self (by omega)]
      simp [hps]
    · rw [getElem?_set_ne hss]
      constructor
      · exact Or.inl
      · rintro (h | ⟨_, rfl⟩)
        · exact h
        · exact absurd rfl hss

/-- Adding the edges of one block. -/
theorem addPreds_record {n p : Nat} {succs : List Nat} (h : PredsRecord n preds edge)
    (hs : ∀ s ∈ succs, s < n) :
    ∃ preds', succs.foldlM (addPred p) preds = .ok preds' ∧
      PredsRecord n preds' fun p' s' => edge p' s' ∨ (p' = p ∧ s' ∈ succs) := by
  induction succs generalizing preds edge with
  | nil => exact ⟨preds, rfl, by simpa using h⟩
  | cons s succs ih =>
    rw [forall_mem_cons] at hs
    obtain ⟨preds₁, h₁, hr₁⟩ := addPred_record (p := p) h hs.1
    obtain ⟨preds₂, h₂, hr₂⟩ := ih hr₁ hs.2
    refine ⟨preds₂, ?_, hr₂.1, fun p' s' => ?_⟩
    · rw [foldlM_cons, bind_eq_ok]
      exact ⟨preds₁, h₁, h₂⟩
    · rw [hr₂.2]
      simp only [mem_cons]
      tauto

/-- Adding the edges of all blocks. -/
theorem foldPreds_record {n : Nat} (h : PredsRecord n preds edge)
    (hs : ∀ b ∈ blocks, ∀ s ∈ b.successors, s < n) :
    ∃ preds', blocks.foldlM (fun preds b => b.successors.foldlM (addPred b.id) preds) preds =
        .ok preds' ∧
      PredsRecord n preds' fun p s => edge p s ∨ ∃ b ∈ blocks, p = b.id ∧ s ∈ b.successors := by
  induction blocks generalizing preds edge with
  | nil => exact ⟨preds, rfl, by simpa using h⟩
  | cons b blocks ih =>
    rw [forall_mem_cons] at hs
    obtain ⟨preds₁, h₁, hr₁⟩ := addPreds_record (p := b.id) h hs.1
    obtain ⟨preds₂, h₂, hr₂⟩ := ih hr₁ hs.2
    refine ⟨preds₂, ?_, hr₂.1, fun p s => ?_⟩
    · rw [foldlM_cons, bind_eq_ok]
      exact ⟨preds₁, h₁, h₂⟩
    · rw [hr₂.2]
      simp only [exists_mem_cons_iff]
      tauto

/-- Predecessor lists can be computed for every graph with its jumps in range, and
they are exact if nothing jumps to the entry. -/
theorem Cfg.computePreds_total (cfg : Cfg)
    (hids : ∀ (i : Nat) (b : BasicBlock), cfg.blocks[i]? = some b → b.id = i)
    (htargets : ∀ b ∈ cfg.blocks, ∀ s ∈ b.successors, s < cfg.blocks.length)
    (hlt : cfg.entry < cfg.blocks.length)
    (hentry : ∀ b ∈ cfg.blocks, cfg.entry ∉ b.successors) :
    ∃ preds, cfg.computePreds = .ok { cfg with preds := preds, predsValid := true } ∧
      Cfg.PredsExact { cfg with preds := preds, predsValid := true } := by
  have hinit : PredsRecord cfg.blocks.length (List.replicate cfg.blocks.length [])
      fun _ _ => False := by
    refine ⟨by simp, fun p s => ?_⟩
    simp [getElem?_replicate]
  obtain ⟨preds, hpreds, hlen, hiff⟩ := foldPreds_record hinit htargets
  have hedge : ∀ p s, (∃ ps, preds[s]? = some ps ∧ p ∈ ps) ↔
      ∃ b : BasicBlock, cfg.blocks[p]? = some b ∧ s ∈ b.successors := by
    intro p s
    rw [hiff]
    constructor
    · rintro (h | ⟨b, hb, rfl, hs⟩)
      · cases h
      · obtain ⟨i, hi⟩ := getElem?_of_mem hb
        exact ⟨b, by rw [hids i b hi, hi], hs⟩
    · rintro ⟨b, hb, hs⟩
      exact Or.inr ⟨b, mem_of_getElem? hb, (hids p b hb).symm, hs⟩
  refine ⟨preds, ?_, hlen, ?_, hedge⟩
  · rw [Cfg.computePreds, bind_eq_ok]
    exact ⟨preds, hpreds, rfl⟩
  · obtain ⟨ps, hps⟩ : ∃ ps, preds[cfg.entry]? = some ps :=
      ⟨_, getElem?_eq_getElem (by omega)⟩
    have hnil : ps = [] := by
      refine eq_nil_iff_forall_not_mem.mpr fun p hp => ?_
      obtain ⟨b, hb, hs⟩ := (hedge p cfg.entry).mp ⟨ps, hps, hp⟩
      exact hentry b (mem_of_getElem? hb) hs
    rw [hnil] at hps
    exact hps

end Mx

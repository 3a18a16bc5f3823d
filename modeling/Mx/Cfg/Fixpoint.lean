import Mx.Cfg.Dataflow
import Mx.Cfg.Verify

/-!
# The worklist of the dataflow solver

What one visit of `solve_forward` does, and what all of them keep. A visit that leaves the output
of a block unchanged does not store the joined input, so the stored inputs can be stale.
-/

namespace Mx

open Mx.Core List

/-! ## Graphs and analyses -/

namespace Cfg.PredsExact

variable {cfg : Cfg} {b p : Nat}

theorem mem_preds (h : cfg.PredsExact) : p ∈ cfg.preds.getD b [] ↔ b ∈ cfg.successors p := by
  have hlist : p ∈ cfg.preds.getD b [] ↔ ∃ ps, cfg.preds[b]? = some ps ∧ p ∈ ps := by
    rw [getD_eq_getElem?_getD]
    cases cfg.preds[b]? <;> simp
  rw [hlist, h.mem_iff, Cfg.successors]
  cases cfg.blocks[p]? <;> simp

theorem entry_lt (h : cfg.PredsExact) : cfg.entry < cfg.blocks.length := by
  rw [← h.length]
  exact (List.getElem?_eq_some_iff.mp h.entry).1

theorem entry_not_mem (h : cfg.PredsExact) : cfg.entry ∉ cfg.successors p := by
  rw [← h.mem_preds, getD_eq_getElem?_getD, h.entry]
  simp

theorem successor_lt (h : cfg.PredsExact) (hb : b ∈ cfg.successors p) : b < cfg.blocks.length := by
  rw [← h.mem_preds, getD_eq_getElem?_getD] at hb
  rw [← h.length]
  by_contra hge
  rw [getElem?_eq_none (by omega)] at hb
  simp at hb

end Cfg.PredsExact

theorem mem_enqueue {w succs : List Nat} {b : Nat} : b ∈ enqueue w succs ↔ b ∈ w ∨ b ∈ succs := by
  unfold enqueue
  induction succs generalizing w with
  | nil => simp
  | cons s succs ih =>
    rw [foldl_cons, ih]
    split
    · next hs =>
      simp only [mem_cons]
      constructor
      · tauto
      · rintro (h | rfl | h)
        · exact Or.inl h
        · exact Or.inl hs
        · exact Or.inr h
    · simp only [mem_append, mem_cons]
      tauto

theorem getD_set {S : Type} {l : List S} {i j : Nat} {a d : S} (hi : i < l.length) :
    (l.set i a).getD j d = if j = i then a else l.getD j d := by
  rw [getD_eq_getElem?_getD, getD_eq_getElem?_getD]
  by_cases h : j = i
  · subst h
    rw [getElem?_set_self hi, if_pos rfl]
    rfl
  · rw [getElem?_set_ne (Ne.symm h), if_neg h]

namespace ForwardAnalysis

/-! ## What the worklist loop keeps -/

section Shape

variable {S : Type}

/-- The solver after a visit that changes the output of a block. -/
def changed (A : ForwardAnalysis S) (cfg : Cfg) (w : Solver S) (b : Nat) (rest : List Nat) :
    Solver S where
  blockIn := w.blockIn.set b (A.joinPreds cfg w.blockOut b)
  blockOut := w.blockOut.set b (A.transfer cfg b (A.joinPreds cfg w.blockOut b))
  worklist := enqueue rest (cfg.successors b)

/-- There are states for every block, the entry has its own, and every queued block is a
successor. -/
structure Shaped (A : ForwardAnalysis S) (cfg : Cfg) (w : Solver S) : Prop where
  lengthIn : w.blockIn.length = cfg.blocks.length
  lengthOut : w.blockOut.length = cfg.blocks.length
  entryIn : w.blockIn.getD cfg.entry A.bottom = A.entryState
  entryOut : w.blockOut.getD cfg.entry A.bottom = A.transfer cfg cfg.entry A.entryState
  queued : ∀ b ∈ w.worklist, ∃ p, b ∈ cfg.successors p

variable {A : ForwardAnalysis S} {cfg : Cfg} {w : Solver S} {b : Nat} {rest : List Nat}

theorem getD_start (hg : cfg.PredsExact) (a : S) (b : Nat) :
    ((List.replicate cfg.blocks.length A.bottom).set cfg.entry a).getD b A.bottom =
      if b = cfg.entry then a else A.bottom := by
  rw [getD_set (by simpa using hg.entry_lt), getD_eq_getElem?_getD,
    getElem?_getD_replicate_default_eq]

theorem start_out (hg : cfg.PredsExact) (hb : b ≠ cfg.entry) :
    (A.start cfg).blockOut.getD b A.bottom = A.bottom := by
  rw [start, getD_start hg, if_neg hb]

theorem mem_start : b ∈ (A.start cfg).worklist ↔ b ∈ cfg.successors cfg.entry := by
  simp [start, mem_enqueue]

theorem shaped_start (hg : cfg.PredsExact) : A.Shaped cfg (A.start cfg) := by
  refine ⟨by simp [start], by simp [start], ?_, ?_, fun b hb => ⟨_, mem_start.mp hb⟩⟩
  · rw [start, getD_start hg, if_pos rfl]
  · rw [start, getD_start hg, if_pos rfl]

theorem Shaped.of_queued (h : A.Shaped cfg w) (hg : cfg.PredsExact) (hb : b ∈ w.worklist) :
    b ≠ cfg.entry ∧ b < cfg.blocks.length := by
  obtain ⟨p, hp⟩ := h.queued b hb
  exact ⟨fun he => hg.entry_not_mem (he ▸ hp), hg.successor_lt hp⟩

theorem Shaped.skip (h : A.Shaped cfg w) (hw : w.worklist = b :: rest) :
    A.Shaped cfg { w with worklist := rest } :=
  ⟨h.lengthIn, h.lengthOut, h.entryIn, h.entryOut,
    fun x hx => h.queued x (hw ▸ mem_cons_of_mem b hx)⟩

theorem Shaped.changed_in (h : A.Shaped cfg w) (hb : b < cfg.blocks.length) (x : Nat) :
    (A.changed cfg w b rest).blockIn.getD x A.bottom =
      if x = b then A.joinPreds cfg w.blockOut b else w.blockIn.getD x A.bottom :=
  getD_set (by rw [h.lengthIn]; exact hb)

theorem Shaped.changed_out (h : A.Shaped cfg w) (hb : b < cfg.blocks.length) (x : Nat) :
    (A.changed cfg w b rest).blockOut.getD x A.bottom =
      if x = b then A.transfer cfg b (A.joinPreds cfg w.blockOut b)
        else w.blockOut.getD x A.bottom :=
  getD_set (by rw [h.lengthOut]; exact hb)

theorem Shaped.changed (h : A.Shaped cfg w) (hg : cfg.PredsExact) (hw : w.worklist = b :: rest) :
    A.Shaped cfg (A.changed cfg w b rest) := by
  obtain ⟨hbe, hbn⟩ := h.of_queued hg (hw ▸ mem_cons_self ..)
  refine ⟨?_, ?_, ?_, ?_, ?_⟩
  · simpa [ForwardAnalysis.changed] using h.lengthIn
  · simpa [ForwardAnalysis.changed] using h.lengthOut
  · rw [h.changed_in hbn, if_neg (Ne.symm hbe)]
    exact h.entryIn
  · rw [h.changed_out hbn, if_neg (Ne.symm hbe)]
    exact h.entryOut
  · intro x hx
    rcases mem_enqueue.mp hx with hx | hx
    · exact h.queued x (hw ▸ mem_cons_of_mem b hx)
    · exact ⟨b, hx⟩

/-- A block that is not queued after the change does not see it. -/
theorem Shaped.unseen (h : A.Shaped cfg w) (hg : cfg.PredsExact) (hw : w.worklist = b :: rest)
    {x : Nat} (hx : x ∉ (A.changed cfg w b rest).worklist) :
    (x ≠ b → x ∉ w.worklist) ∧ ∀ p ∈ cfg.preds.getD x [],
      (A.changed cfg w b rest).blockOut.getD p A.bottom = w.blockOut.getD p A.bottom := by
  obtain ⟨-, hbn⟩ := h.of_queued hg (hw ▸ mem_cons_self ..)
  obtain ⟨hrest, hsucc⟩ := not_or.mp (mem_enqueue.not.mp hx)
  refine ⟨fun hxb => by rw [hw]; simp [hxb, hrest], fun p hp => ?_⟩
  rw [h.changed_out hbn, if_neg]
  rintro rfl
  exact hsucc (hg.mem_preds.mp hp)

end Shape

/-! ## Visits -/

section Visits

variable {S : Type} [DecidableEq S] (A : ForwardAnalysis S) (cfg : Cfg)

/-- The solver after `i` visits. -/
def trace (i : Nat) : Solver S := (A.visit cfg)^[i] (A.start cfg)

/-- The two kinds of visits. -/
theorem visit_cases {w : Solver S} {b : Nat} {rest : List Nat} (h : w.worklist = b :: rest) :
    (A.transfer cfg b (A.joinPreds cfg w.blockOut b) = w.blockOut.getD b A.bottom ∧
      A.visit cfg w = { w with worklist := rest }) ∨
    (A.transfer cfg b (A.joinPreds cfg w.blockOut b) ≠ w.blockOut.getD b A.bottom ∧
      A.visit cfg w = A.changed cfg w b rest) := by
  unfold visit
  rw [h]
  by_cases hc : A.transfer cfg b (A.joinPreds cfg w.blockOut b) = w.blockOut.getD b A.bottom
  · exact Or.inl ⟨hc, if_pos hc⟩
  · exact Or.inr ⟨hc, if_neg hc⟩

/-- Nothing happens once the worklist is empty. -/
theorem visit_done {w : Solver S} (h : w.worklist = []) : A.visit cfg w = w := by
  unfold visit
  rw [h]

variable {A cfg}

theorem trace_succ (i : Nat) : A.trace cfg (i + 1) = A.visit cfg (A.trace cfg i) :=
  Function.iterate_succ_apply' _ _ _

theorem solve_eq_ok {fuel : Nat} {w : Solver S} {r : DataflowResult S}
    (h : A.solve cfg fuel w = .ok r) :
    ∃ k, ((A.visit cfg)^[k] w).worklist = [] ∧
      r = ⟨((A.visit cfg)^[k] w).blockIn, ((A.visit cfg)^[k] w).blockOut⟩ := by
  induction fuel generalizing w with
  | zero =>
    unfold solve at h
    cases hw : w.worklist with
    | nil =>
      simp only [hw] at h
      cases h
      exact ⟨0, hw, rfl⟩
    | cons b rest => simp [hw] at h
  | succ fuel ih =>
    unfold solve at h
    cases hw : w.worklist with
    | nil =>
      simp only [hw] at h
      cases h
      exact ⟨0, hw, rfl⟩
    | cons b rest =>
      simp only [hw] at h
      obtain ⟨k, hk, hr⟩ := ih h
      exact ⟨k + 1, by rw [Function.iterate_succ_apply]; exact hk,
        by rw [Function.iterate_succ_apply]; exact hr⟩

end Visits

end ForwardAnalysis

end Mx

import Mx.Cfg.Cleanup
import Mx.Core.Except

/-!
# The search for reachable blocks

The search of `remove_unreachable` terminates and marks exactly the blocks that can be
reached from the entry along successor and handler edges.
-/

namespace Mx

open Mx.Core List

/-- The blocks that control can go to from a block: its successors and its handler. -/
def BasicBlock.outEdges (b : BasicBlock) : List Nat := b.successors ++ b.handler.toList

/-- There is a successor or handler edge from block `i` to block `j`. -/
def Edge (blocks : List BasicBlock) (i j : Nat) : Prop :=
  ∃ b, blocks[i]? = some b ∧ j ∈ b.outEdges

/-- Block `i` can be reached from block 0 along successor and handler edges. -/
def Reachable (blocks : List BasicBlock) (i : Nat) : Prop :=
  Relation.ReflTransGen (Edge blocks) 0 i

/-- Every block is sealed and leads only to blocks of the list. -/
structure Closed (blocks : List BasicBlock) : Prop where
  sealed : ∀ b ∈ blocks, b.terminator.isSome
  edges : ∀ b ∈ blocks, ∀ j ∈ b.outEdges, j < blocks.length

namespace Cfg

/-- The search has marked block `i`. -/
def Marked (reachable : List Bool) (i : Nat) : Prop := reachable[i]? = some true

/-- What holds during the search: edges of marked blocks lead to marked or queued ones, and
every marked or queued block satisfies `P`. -/
structure Searching (blocks : List BasicBlock) (P : Nat → Prop) (reachable : List Bool)
    (queue : List Nat) : Prop where
  length : reachable.length = blocks.length
  queued : ∀ q ∈ queue, q < blocks.length ∧ P q
  marked : ∀ i, Marked reachable i → P i
  closed : ∀ i, Marked reachable i → ∀ j, Edge blocks i j → Marked reachable j ∨ j ∈ queue

variable {blocks : List BasicBlock} {P : Nat → Prop} {reachable : List Bool} {queue : List Nat}

theorem marked_set {b i : Nat} (hb : b < reachable.length) :
    Marked (reachable.set b true) i ↔ i = b ∨ Marked reachable i := by
  unfold Marked
  by_cases h : b = i
  · subst i
    simp [hb]
  · simp [getElem?_set_ne h, Ne.symm h]

/-- A queued block that is marked already is dropped. -/
theorem Searching.skip {b : Nat} (h : Searching blocks P reachable (b :: queue))
    (hb : Marked reachable b) : Searching blocks P reachable queue := by
  refine ⟨h.length, fun q hq => h.queued q (mem_cons_of_mem b hq), h.marked, ?_⟩
  intro i hi j hj
  rcases h.closed i hi j hj with hm | hq
  · exact Or.inl hm
  · rcases mem_cons.mp hq with rfl | hq
    · exact Or.inl hb
    · exact Or.inr hq

/-- A queued block is marked and its edges are queued. -/
theorem Searching.visit {b : Nat} {block : BasicBlock} {t : Terminator}
    (h : Searching blocks P reachable (b :: queue)) (hc : Closed blocks)
    (hP : ∀ i j, P i → Edge blocks i j → P j) (hb : blocks[b]? = some block)
    (ht : block.terminator = some t) :
    Searching blocks P (reachable.set b true)
      (block.handler.toList ++ t.successors.reverse ++ queue) := by
  have hlt : b < reachable.length := h.length ▸ (List.getElem?_eq_some_iff.mp hb).1
  have hPb := (h.queued b (mem_cons_self ..)).2
  have hout : ∀ j, j ∈ block.handler.toList ++ t.successors.reverse ↔ j ∈ block.outEdges := by
    intro j
    simp [BasicBlock.outEdges, BasicBlock.successors, ht, or_comm]
  refine ⟨by simpa using h.length, ?_, ?_, ?_⟩
  · intro q hq
    rcases mem_append.mp hq with hq | hq
    · have hq' := (hout q).mp hq
      exact ⟨hc.edges block (mem_of_getElem? hb) q hq', hP b q hPb ⟨block, hb, hq'⟩⟩
    · exact h.queued q (mem_cons_of_mem b hq)
  · intro i hi
    rcases (marked_set hlt).mp hi with rfl | hi
    · exact hPb
    · exact h.marked i hi
  · intro i hi j hj
    rcases (marked_set hlt).mp hi with rfl | hi
    · obtain ⟨block', hb', hj⟩ := hj
      obtain rfl := Option.some.inj (hb.symm.trans hb')
      exact Or.inr (mem_append_left _ ((hout j).mpr hj))
    · rcases h.closed i hi j hj with hm | hq
      · exact Or.inl ((marked_set hlt).mpr (Or.inr hm))
      · rcases mem_cons.mp hq with rfl | hq
        · exact Or.inl ((marked_set hlt).mpr (Or.inl rfl))
        · exact Or.inr (mem_append_right _ hq)

theorem count_set_lt {b : Nat} (hb : reachable[b]? = some false) :
    (reachable.set b true).count false < reachable.count false := by
  induction reachable generalizing b with
  | nil => simp at hb
  | cons r rest ih =>
    cases b with
    | zero =>
      obtain rfl : r = false := by simpa using hb
      simp
    | succ b =>
      have hlt := ih (b := b) (by simpa using hb)
      simpa [count_cons] using hlt

/-- With enough rounds the search ends, and nothing is queued any more. The outer
induction is on the number of unmarked blocks, the inner one on the queue. -/
theorem markReachable_total (hc : Closed blocks) (hP : ∀ i j, P i → Edge blocks i j → P j)
    (h : Searching blocks P reachable queue) :
    ∃ fuel₀ reachable', Searching blocks P reachable' [] ∧
      (∀ i, Marked reachable i ∨ i ∈ queue → Marked reachable' i) ∧
      ∀ fuel, fuel₀ ≤ fuel → markReachable blocks fuel reachable queue = .ok reachable' := by
  induction hk : reachable.count false using Nat.strongRecOn generalizing reachable queue with
  | _ k ih =>
    subst hk
    induction queue with
    | nil =>
      refine ⟨0, reachable, h, by simp, fun fuel _ => ?_⟩
      unfold markReachable
      rfl
    | cons b queue ihq =>
      have hlt := (h.queued b (mem_cons_self ..)).1
      obtain ⟨r, hr⟩ : ∃ r, reachable[b]? = some r :=
        ⟨_, getElem?_eq_getElem (by rw [h.length]; exact hlt)⟩
      obtain ⟨block, hblock⟩ : ∃ block, blocks[b]? = some block :=
        ⟨_, getElem?_eq_getElem hlt⟩
      cases r with
      | true =>
        obtain ⟨fuel₀, reachable', hs, hm, hrun⟩ := ihq (h.skip hr)
        refine ⟨fuel₀ + 1, reachable', hs, ?_, fun fuel hf => ?_⟩
        · rintro i (hi | hi)
          · exact hm i (Or.inl hi)
          · rcases mem_cons.mp hi with rfl | hi
            · exact hm i (Or.inl hr)
            · exact hm i (Or.inr hi)
        · obtain ⟨f, rfl⟩ : ∃ f, fuel = f + 1 := ⟨fuel - 1, by omega⟩
          rw [markReachable, hr]
          exact hrun f (by omega)
      | false =>
        obtain ⟨t, ht⟩ := Option.isSome_iff_exists.mp
          (hc.sealed block (mem_of_getElem? hblock))
        obtain ⟨fuel₀, reachable', hs, hm, hrun⟩ := ih _ (count_set_lt hr)
          (h.visit hc hP hblock ht) rfl
        have hset : ∀ i, Marked (reachable.set b true) i ↔ i = b ∨ Marked reachable i :=
          fun i => marked_set (by rw [h.length]; exact hlt)
        refine ⟨fuel₀ + 1, reachable', hs, ?_, fun fuel hf => ?_⟩
        · rintro i (hi | hi)
          · exact hm i (Or.inl ((hset i).mpr (Or.inr hi)))
          · rcases mem_cons.mp hi with rfl | hi
            · exact hm i (Or.inl ((hset i).mpr (Or.inl rfl)))
            · exact hm i (Or.inr (mem_append_right _ hi))
        · obtain ⟨f, rfl⟩ : ∃ f, fuel = f + 1 := ⟨fuel - 1, by omega⟩
          rw [markReachable, hr, hblock]
          simp only [ht]
          exact hrun f (by omega)

/-- The search from block 0 marks exactly the reachable blocks. -/
theorem markReachable_spec (hc : Closed blocks) (hne : 0 < blocks.length) :
    ∃ fuel₀ reachable, reachable.length = blocks.length ∧
      (∀ i, Marked reachable i ↔ Reachable blocks i) ∧
      ∀ fuel, fuel₀ ≤ fuel →
        markReachable blocks fuel (List.replicate blocks.length false) [0] = .ok reachable := by
  have hinit : Searching blocks (Reachable blocks) (List.replicate blocks.length false) [0] := by
    have hno : ∀ i, ¬ Marked (List.replicate blocks.length false) i := by
      intro i hi
      simp [Marked, getElem?_replicate] at hi
    refine ⟨by simp, ?_, fun i hi => absurd hi (hno i), fun i hi => absurd hi (hno i)⟩
    intro q hq
    obtain rfl : q = 0 := by simpa using hq
    exact ⟨hne, Relation.ReflTransGen.refl⟩
  obtain ⟨fuel₀, reachable, hs, hm, hrun⟩ := markReachable_total hc
    (fun i j hi hij => hi.tail hij) hinit
  refine ⟨fuel₀, reachable, hs.length, fun i => ⟨hs.marked i, fun hi => ?_⟩, hrun⟩
  induction hi with
  | refl => exact hm 0 (Or.inr (by simp))
  | tail _ hij ih =>
    rcases hs.closed _ ih _ hij with h | h
    · exact h
    · simp at h

end Cfg

end Mx

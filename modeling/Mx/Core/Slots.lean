import Mathlib

/-!
# Tables with a fixed number of slots

A table of `n` slots is searched from its first slot, and the slots with a property are counted.
Changing one slot changes the count by at most one.
-/

namespace Mx.Core

open List

variable {n : Nat} {β : Type}

/-- The first slot with a property. -/
def firstSlot (p : Fin n → Bool) : Option (Fin n) := (List.finRange n).find? p

/-- The number of slots with a property. -/
def countSlots (p : Fin n → Bool) : Nat := (List.finRange n).countP p

variable {p : Fin n → Bool}

theorem firstSlot_eq_none_iff : firstSlot p = none ↔ ∀ i, p i = false := by
  simp [firstSlot, find?_eq_none]

variable {i : Fin n}

theorem of_firstSlot_eq_some (h : firstSlot p = some i) : p i = true :=
  find?_some h

/-- No slot before the first one has the property. -/
theorem not_of_lt_firstSlot {j : Fin n} (h : firstSlot p = some i) (hlt : j < i) : p j = false := by
  obtain ⟨-, front, back, hsplit, hnone⟩ := find?_eq_some_iff_append.mp h
  have hmem : j ∈ front := by
    have hsorted : (List.finRange n).Pairwise (· < ·) := pairwise_lt_finRange n
    rw [hsplit, pairwise_append, pairwise_cons] at hsorted
    have hj : j ∈ front ++ i :: back := hsplit ▸ mem_finRange j
    rcases mem_append.mp hj with hfront | hback
    · exact hfront
    · rcases mem_cons.mp hback with heq | hafter
      · exact absurd hlt (by rw [heq]; exact lt_irrefl _)
      · exact absurd hlt (not_lt_of_gt (hsorted.2.1.1 j hafter))
  have hnot := hnone j hmem
  cases hp : p j with
  | false => rfl
  | true => simp [hp] at hnot

theorem countSlots_eq_zero_iff : countSlots p = 0 ↔ ∀ i, p i = false := by
  simp [countSlots, countP_eq_zero]

theorem countSlots_lt (h : p i = false) : countSlots p < n := by
  have hlt : (List.finRange n).countP p < (List.finRange n).length := by
    rw [countP_eq_length_filter]
    exact length_filter_lt_length_iff_exists.mpr ⟨i, mem_finRange i, by simp [h]⟩
  rwa [length_finRange] at hlt

/-- The count does not look at a slot that is changed, but for its own share. -/
theorem countP_update {b : Bool} {l : List (Fin n)} (hnodup : l.Nodup) :
    l.countP (Function.update p i b) + (if i ∈ l ∧ p i = true then 1 else 0) =
      l.countP p + (if i ∈ l ∧ b = true then 1 else 0) := by
  induction l with
  | nil => rfl
  | cons j l ih =>
    rw [nodup_cons] at hnodup
    have hrest := ih hnodup.2
    rw [countP_cons, countP_cons]
    by_cases hij : i = j
    · subst hij
      simp only [hnodup.1, false_and, if_false, Nat.add_zero] at hrest
      simp only [Function.update_self, mem_cons, true_or, true_and, hrest]
      omega
    · have hmem : i ∈ j :: l ↔ i ∈ l := by simp [hij]
      rw [Function.update_of_ne (Ne.symm hij)]
      simp only [hmem]
      omega

theorem countSlots_update (p : Fin n → Bool) (i : Fin n) (b : Bool) :
    countSlots (Function.update p i b) + (if p i = true then 1 else 0) =
      countSlots p + (if b = true then 1 else 0) := by
  have h := countP_update (p := p) (i := i) (b := b) (nodup_finRange n)
  simp only [mem_finRange, true_and] at h
  exact h

/-- A free slot is taken. -/
theorem countSlots_take (h : p i = false) :
    countSlots (Function.update p i true) = countSlots p + 1 := by
  have hupdate := countSlots_update p i true
  simpa [h] using hupdate

/-- A taken slot is released. -/
theorem countSlots_release (h : p i = true) :
    countSlots (Function.update p i false) + 1 = countSlots p := by
  have hupdate := countSlots_update p i false
  simpa [h] using hupdate

/-- A property of the slots of a changed table. -/
theorem comp_update (f : Fin n → β) (q : β → Bool) (i : Fin n) (x : β) :
    (fun j => q (Function.update f i x j)) = Function.update (fun j => q (f j)) i (q x) := by
  funext j
  by_cases hij : j = i
  · subst hij
    rw [Function.update_self, Function.update_self]
  · rw [Function.update_of_ne hij, Function.update_of_ne hij]

end Mx.Core

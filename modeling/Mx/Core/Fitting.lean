import Mathlib

/-!
# Lists within a budget

The front of a list that stays within a budget. Dropping the last element again and again until the
total size is within the budget leaves this front.
-/

namespace Mx.Core

section Fitting

variable {α : Type} (size : α → Nat)

/-- The total size of a list. -/
def total (l : List α) : Nat := (l.map size).sum

/-- The longest front of a list with a total size within the budget. -/
def fitting : Nat → List α → List α
  | _, [] => []
  | budget, a :: l => if size a ≤ budget then a :: fitting (budget - size a) l else []

variable {size} {l : List α} {budget : Nat}

@[simp] theorem total_nil : total size [] = 0 := rfl

@[simp] theorem total_cons (a : α) (l : List α) : total size (a :: l) = size a + total size l := by
  simp [total]

theorem total_dropLast (h : l ≠ []) :
    total size l.dropLast + size (l.getLast h) = total size l := by
  have hsplit : total size (l.dropLast ++ [l.getLast h]) = total size l := by
    rw [List.dropLast_append_getLast]
  rw [← hsplit]
  simp [total]

/-- Elements of bounded size. -/
theorem total_le_mul {bound : Nat} (h : ∀ a ∈ l, size a ≤ bound) :
    total size l ≤ l.length * bound := by
  induction l with
  | nil => exact Nat.zero_le _
  | cons a l ih =>
    have hhead := h a List.mem_cons_self
    have htail := ih fun b hb => h b (List.mem_cons_of_mem a hb)
    rw [total_cons, List.length_cons, Nat.add_mul]
    omega

theorem total_fitting_le (budget : Nat) (l : List α) :
    total size (fitting size budget l) ≤ budget := by
  induction l generalizing budget with
  | nil => exact Nat.zero_le _
  | cons a l ih =>
    rw [fitting]
    split
    · have htail := ih (budget - size a)
      rw [total_cons]
      omega
    · exact Nat.zero_le _

theorem fitting_of_total_le (h : total size l ≤ budget) : fitting size budget l = l := by
  induction l generalizing budget with
  | nil => rfl
  | cons a l ih =>
    rw [total_cons] at h
    rw [fitting, if_pos (by omega), ih (by omega)]

/-- Beyond the budget the last element is not in the front. -/
theorem fitting_dropLast (h : budget < total size l) :
    fitting size budget l.dropLast = fitting size budget l := by
  induction l generalizing budget with
  | nil => rfl
  | cons a l ih =>
    rw [total_cons] at h
    cases l with
    | nil =>
      have hlarge : ¬size a ≤ budget := by
        rw [total_nil] at h
        omega
      rw [fitting, if_neg hlarge]
      rfl
    | cons b l =>
      rw [List.dropLast_cons_cons, fitting, fitting]
      split
      · rw [ih (by omega)]
      · rfl

end Fitting

end Mx.Core

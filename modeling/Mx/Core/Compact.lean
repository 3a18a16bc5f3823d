import Mathlib

/-!
# Where the kept elements of a filtered list go

`rank p l i` is the position that the element at `i` has after the elements that do
not satisfy `p` were removed. It is strictly increasing on kept positions and reaches
every position of the filtered list.
-/

namespace Mx.Core

variable {α : Type} {p : α → Bool} {l : List α} {i j : Nat} {a : α}

/-- The number of kept elements before position `i`. -/
def rank (p : α → Bool) (l : List α) (i : Nat) : Nat := (l.take i).countP p

theorem rank_cons_succ (a : α) (l : List α) (i : Nat) :
    rank p (a :: l) (i + 1) = rank p l i + if p a then 1 else 0 := by
  simp [rank, List.countP_cons]

/-- A kept element is found at its rank. -/
theorem filter_getElem?_rank (h : l[i]? = some a) (hp : p a = true) :
    (l.filter p)[rank p l i]? = some a := by
  induction l generalizing i with
  | nil => simp at h
  | cons b l ih =>
    cases i with
    | zero =>
      obtain rfl : b = a := by simpa using h
      simp [rank, hp]
    | succ i =>
      have hi : l[i]? = some a := by simpa using h
      rw [rank_cons_succ]
      cases hb : p b with
      | true | false => simpa [List.filter_cons, hb] using ih hi

/-- Every position of the filtered list is the rank of a kept element. -/
theorem exists_rank_of_filter (h : (l.filter p)[j]? = some a) :
    ∃ i, l[i]? = some a ∧ p a = true ∧ rank p l i = j := by
  induction l generalizing j with
  | nil => simp at h
  | cons b l ih =>
    cases hb : p b with
    | true =>
      rw [List.filter_cons, if_pos hb] at h
      cases j with
      | zero =>
        obtain rfl : b = a := by simpa using h
        exact ⟨0, rfl, hb, rfl⟩
      | succ j =>
        obtain ⟨i, hi, hp, hr⟩ := ih (j := j) (by simpa using h)
        exact ⟨i + 1, by simpa using hi, hp, by rw [rank_cons_succ, hb, hr]; rfl⟩
    | false =>
      rw [List.filter_cons, hb, if_neg (by simp)] at h
      obtain ⟨i, hi, hp, hr⟩ := ih h
      exact ⟨i + 1, by simpa using hi, hp, by rw [rank_cons_succ, hb, hr]; rfl⟩

/-- Ranks are strictly increasing on kept positions. -/
theorem rank_lt_rank (h : l[i]? = some a) (hp : p a = true) (hij : i < j) :
    rank p l i < rank p l j := by
  induction l generalizing i j with
  | nil => simp at h
  | cons b l ih =>
    obtain ⟨j, rfl⟩ : ∃ k, j = k + 1 := ⟨j - 1, by omega⟩
    cases i with
    | zero =>
      obtain rfl : b = a := by simpa using h
      rw [rank_cons_succ, hp]
      simp [rank]
    | succ i =>
      rw [rank_cons_succ, rank_cons_succ]
      have := ih (i := i) (j := j) (by simpa using h) (by omega)
      omega

theorem rank_inj {b : α} (hi : l[i]? = some a) (hj : l[j]? = some b) (ha : p a = true)
    (hb : p b = true) (h : rank p l i = rank p l j) : i = j := by
  rcases Nat.lt_trichotomy i j with hlt | heq | hgt
  · have := rank_lt_rank hi ha hlt
    omega
  · exact heq
  · have := rank_lt_rank hj hb hgt
    omega

@[simp] theorem rank_zero : rank p l 0 = 0 := rfl

end Mx.Core

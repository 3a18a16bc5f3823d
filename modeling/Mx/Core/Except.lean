import Mathlib

/-!
# Fallible computations

Inversion of computations in `Except` and `Option`: a `do` block succeeds
exactly when its steps do, and a fold succeeds with whatever every step
preserves.
-/

namespace Mx.Core

variable {ε α β : Type}

/-- A sequenced computation succeeds exactly when both parts do. -/
theorem bind_eq_ok {x : Except ε α} {f : α → Except ε β} {b : β} :
    x >>= f = .ok b ↔ ∃ a, x = .ok a ∧ f a = .ok b := by
  cases x with
  | error e | ok a => simp [bind, Except.bind]

@[simp] theorem pure_eq_ok {a b : α} : (pure a : Except ε α) = .ok b ↔ a = b := by
  simp [pure, Except.pure]

/-- What every step of a fold preserves holds of its result. -/
theorem foldlM_ok_induct {f : β → α → Except ε β} (P : β → Prop) {l : List α} {b b' : β}
    (h : l.foldlM f b = .ok b') (hb : P b)
    (hstep : ∀ a ∈ l, ∀ c c', P c → f c a = .ok c' → P c') : P b' := by
  induction l generalizing b with
  | nil =>
    obtain rfl := pure_eq_ok.mp h
    exact hb
  | cons a l ih =>
    rw [List.foldlM_cons, bind_eq_ok] at h
    obtain ⟨c, hc, hl⟩ := h
    exact ih hl (hstep a (List.mem_cons_self ..) b c hb hc)
      fun a' ha' => hstep a' (List.mem_cons_of_mem _ ha')

/-- What every step of a fold in `Option` preserves holds of its result. -/
theorem foldlM_some_induct {f : β → α → Option β} (P : β → Prop) {l : List α} {b b' : β}
    (h : l.foldlM f b = some b') (hb : P b)
    (hstep : ∀ c a c', P c → f c a = some c' → P c') : P b' := by
  induction l generalizing b with
  | nil =>
    obtain rfl := Option.some.inj h
    exact hb
  | cons a l ih =>
    rw [List.foldlM_cons] at h
    obtain ⟨c, hc, hl⟩ := Option.bind_eq_some_iff.mp h
    exact ih hl (hstep b a c hb hc)

end Mx.Core

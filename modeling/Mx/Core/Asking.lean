import Mathlib

/-!
# Recursion as questions

A recursive function in terms of what it asks itself: a computation either answers or asks for the
value at another argument and goes on with it. The recursion ends at an argument if and only if no
chain of questions from it goes on forever.
-/

namespace Mx.Core

/-- A computation that asks for values. -/
inductive Asking (α β γ : Type) where
  | answer (c : γ)
  | ask (a : α) (k : β → Asking α β γ)

namespace Asking

variable {α β γ δ : Type}

/-- One computation after the other. -/
def andThen : Asking α β γ → (γ → Asking α β δ) → Asking α β δ
  | answer c, f => f c
  | ask a k, f => ask a fun b => (k b).andThen f

instance : Monad (Asking α β) where
  pure := answer
  bind := andThen

/-- The value at an argument. -/
def value (a : α) : Asking α β β := ask a answer

@[simp] theorem answer_bind (c : γ) (f : γ → Asking α β δ) : (answer c >>= f) = f c := rfl

@[simp] theorem ask_bind (a : α) (k : β → Asking α β γ) (f : γ → Asking α β δ) :
    (ask a k >>= f) = ask a fun b => k b >>= f := rfl

/-- The computation with the values of a partial function. -/
def run (f : α → Option β) : Asking α β γ → Option γ
  | answer c => some c
  | ask a k => (f a).bind fun b => (k b).run f

/-- The recursive function that makes this step, to a depth. -/
def evaluate (step : α → Asking α β β) : Nat → α → Option β
  | 0, _ => none
  | depth + 1, a => (step a).run (evaluate step depth)

/-- The outcomes that a computation can have if the answers are these. -/
inductive Yields (V : α → β → Prop) : Asking α β γ → γ → Prop where
  | answer (c : γ) : Yields V (answer c) c
  | ask {a : α} {k : β → Asking α β γ} {b : β} {c : γ} (hb : V a b) (hk : Yields V (k b) c) :
      Yields V (ask a k) c

/-- The questions that a computation asks if the answers are these. -/
inductive Asked (V : α → β → Prop) : Asking α β γ → α → Prop where
  | here (a : α) (k : β → Asking α β γ) : Asked V (ask a k) a
  | later {a q : α} {k : β → Asking α β γ} {b : β} (hb : V a b) (hk : Asked V (k b) q) :
      Asked V (ask a k) q

/-- The chains of questions from an argument are finite. -/
def Ends (V : α → β → Prop) (step : α → Asking α β β) (a : α) : Prop :=
  Acc (fun q p => Asked V (step p) q) a

variable {c : Asking α β γ}

theorem run_mono {f g : α → Option β} (h : ∀ a b, f a = some b → g a = some b) {r : γ}
    (hr : c.run f = some r) : c.run g = some r := by
  induction c with
  | answer _ => exact hr
  | ask a k ih =>
    obtain ⟨b, hb, hk⟩ := Option.bind_eq_some_iff.1 hr
    exact Option.bind_eq_some_iff.2 ⟨b, h a b hb, ih b hk⟩

variable {V : α → β → Prop}

theorem yields_of_run {f : α → Option β}
    (h : ∀ a b, f a = some b → V a b) {r : γ} (hr : c.run f = some r) :
    Yields V c r := by
  induction c with
  | answer r' =>
    cases hr
    exact .answer _
  | ask a k ih =>
    obtain ⟨b, hb, hk⟩ := Option.bind_eq_some_iff.1 hr
    exact .ask (h a b hb) (ih b hk)

@[simp] theorem yields_answer {c r : γ} : Yields V (answer c : Asking α β γ) r ↔ r = c := by
  constructor
  · intro h
    cases h
    rfl
  · rintro rfl
    exact .answer r

theorem yields_ask {a : α} {k : β → Asking α β γ} {r : γ} :
    Yields V (ask a k) r ↔ ∃ b, V a b ∧ Yields V (k b) r := by
  constructor
  · intro h
    cases h with
    | ask hb hk => exact ⟨_, hb, hk⟩
  · rintro ⟨b, hb, hk⟩
    exact .ask hb hk

@[simp] theorem yields_pure {c r : γ} : Yields V (pure c : Asking α β γ) r ↔ r = c := yields_answer

@[simp] theorem yields_value {a : α} {r : β} : Yields V (value a) r ↔ V a r := by
  simp [value, yields_ask]

@[simp] theorem yields_bind {f : γ → Asking α β δ} {r : δ} :
    Yields V (c >>= f) r ↔ ∃ m, Yields V c m ∧ Yields V (f m) r := by
  induction c with
  | answer c => simp
  | ask a k ih =>
    simp only [ask_bind, yields_ask, ih]
    constructor
    · rintro ⟨b, hb, m, hm, hr⟩
      exact ⟨m, ⟨b, hb, hm⟩, hr⟩
    · rintro ⟨m, ⟨b, hb, hm⟩, hr⟩
      exact ⟨b, hb, m, hm, hr⟩

/-- If every question has an answer, a computation has an outcome. -/
theorem exists_yields (hV : ∀ a, ∃ b, V a b) (c : Asking α β γ) : ∃ r, Yields V c r := by
  induction c with
  | answer r => exact ⟨r, .answer r⟩
  | ask a k ih =>
    obtain ⟨b, hb⟩ := hV a
    obtain ⟨r, hr⟩ := ih b
    exact ⟨r, .ask hb hr⟩

@[simp] theorem asked_pure {r : γ} {q : α} : ¬ Asked V (pure r : Asking α β γ) q := by
  rintro ⟨⟩

theorem asked_ask {a q : α} {k : β → Asking α β γ} :
    Asked V (ask a k) q ↔ q = a ∨ ∃ b, V a b ∧ Asked V (k b) q := by
  constructor
  · intro h
    cases h with
    | here => exact .inl rfl
    | later hb hk => exact .inr ⟨_, hb, hk⟩
  · rintro (rfl | ⟨b, hb, hk⟩)
    · exact .here _ _
    · exact .later hb hk

@[simp] theorem asked_value {a q : α} : Asked V (value a : Asking α β β) q ↔ q = a := by
  rw [value, asked_ask]
  refine or_iff_left ?_
  rintro ⟨b, -, h⟩
  exact asked_pure h

theorem asked_bind {f : γ → Asking α β δ} {q : α} :
    Asked V (c >>= f) q ↔ Asked V c q ∨ ∃ m, Yields V c m ∧ Asked V (f m) q := by
  induction c with
  | answer r =>
    rw [answer_bind]
    simp only [yields_answer, exists_eq_left]
    exact (or_iff_right asked_pure).symm
  | ask a k ih =>
    simp only [ask_bind, asked_ask, yields_ask, ih]
    constructor
    · rintro (rfl | ⟨b, hb, hq | ⟨m, hm, hq⟩⟩)
      · exact .inl (.inl rfl)
      · exact .inl (.inr ⟨b, hb, hq⟩)
      · exact .inr ⟨m, ⟨b, hb, hm⟩, hq⟩
    · rintro ((rfl | ⟨b, hb, hq⟩) | ⟨m, ⟨b, hb, hm⟩, hq⟩)
      · exact .inl rfl
      · exact .inr ⟨b, hb, .inl hq⟩
      · exact .inr ⟨b, hb, .inr ⟨m, hm, hq⟩⟩

section Evaluate

variable {step : α → Asking α β β} {V : α → β → Prop} {depth depth' : Nat} {a : α} {b : β}

theorem evaluate_mono (hle : depth ≤ depth') (h : evaluate step depth a = some b) :
    evaluate step depth' a = some b := by
  induction depth generalizing depth' a b with
  | zero => cases h
  | succ depth ih =>
    obtain ⟨e, rfl⟩ : ∃ e, depth' = e + 1 := ⟨depth' - 1, by omega⟩
    exact run_mono (fun a b hb => ih (by omega) hb) h

/-- A relation that every step respects holds between arguments and values. -/
theorem evaluate_sound (hV : ∀ a b, Yields V (step a) b → V a b)
    (h : evaluate step depth a = some b) : V a b := by
  induction depth generalizing a b with
  | zero => cases h
  | succ depth ih =>
    rw [evaluate] at h
    have hih : ∀ a b, evaluate step depth a = some b → V a b := fun _ _ hb => ih hb
    exact hV a b (yields_of_run hih h)

/-- The questions of a computation that has a result have answers. -/
theorem asked_of_run {f : α → Option β}
    (hf : ∀ a b b', f a = some b → V a b' → b' = b) {c : Asking α β γ} {r : γ}
    (hr : c.run f = some r) {q : α} (hq : Asked V c q) : ∃ b, f q = some b := by
  induction hq with
  | here a k =>
    obtain ⟨b, hb, -⟩ := Option.bind_eq_some_iff.1 hr
    exact ⟨b, hb⟩
  | later hb _ ih =>
    obtain ⟨b', hb', hk⟩ := Option.bind_eq_some_iff.1 hr
    obtain rfl := hf _ _ _ hb' hb
    exact ih hk

/-- A computation whose questions have answers has a result. -/
theorem run_of_asked (hV : ∀ a b, Yields V (step a) b → V a b) {c : Asking α β γ}
    (h : ∀ q, Asked V c q → ∃ depth b, evaluate step depth q = some b) :
    ∃ depth r, c.run (evaluate step depth) = some r := by
  induction c with
  | answer c => exact ⟨0, c, rfl⟩
  | ask a k ih =>
    obtain ⟨d, b, hb⟩ := h a (.here a k)
    obtain ⟨e, r, hr⟩ := ih b fun q hq => h q (.later (evaluate_sound hV hb) hq)
    refine ⟨max d e, r, Option.bind_eq_some_iff.2 ⟨b, ?_, ?_⟩⟩
    · exact evaluate_mono (Nat.le_max_left d e) hb
    · exact run_mono (fun a b hb => evaluate_mono (Nat.le_max_right d e) hb) hr

/-- The recursion ends if and only if the chains of questions do. -/
theorem evaluate_ends_iff (hV : ∀ a b, Yields V (step a) b → V a b)
    (hfun : ∀ a b b', V a b → V a b' → b' = b) :
    (∃ depth b, evaluate step depth a = some b) ↔ Ends V step a := by
  constructor
  · rintro ⟨depth, b, h⟩
    induction depth generalizing a b with
    | zero => cases h
    | succ depth ih =>
      refine Acc.intro a fun q hq => ?_
      obtain ⟨b', hb'⟩ := asked_of_run
        (fun a b b' hb hb' => hfun a b b' (evaluate_sound hV hb) hb') h hq
      exact ih b' hb'
  · intro h
    induction h with
    | intro a _ ih =>
      obtain ⟨depth, b, hb⟩ := run_of_asked hV ih
      exact ⟨depth + 1, b, hb⟩

end Evaluate

end Asking

/-! ## Finitely many arguments -/

section Loops

open Relation

variable {α : Type} {r : α → α → Prop} {a : α}

/-- An argument is on no loop. -/
theorem not_transGen_self (h : Acc (fun q p => r p q) a) : ¬ TransGen r a a := by
  induction h with
  | intro a _ ih =>
    intro hloop
    obtain ⟨b, hab, hba⟩ := TransGen.head'_iff.mp hloop
    exact ih b hab (TransGen.tail' hba hab)

/-- If finitely many arguments can be reached, all chains are finite if and only if there is no
loop among these. -/
theorem acc_iff_no_loop (hfin : {q | ReflTransGen r a q}.Finite) :
    Acc (fun q p => r p q) a ↔ ∀ q, ReflTransGen r a q → ¬ TransGen r q q := by
  constructor
  · intro h q hq
    refine not_transGen_self ?_
    induction hq with
    | refl => exact h
    | tail _ hstep ih => exact ih.inv hstep
  · intro h
    let later (x y : {q | ReflTransGen r a q}) : Prop := TransGen r y.1 x.1
    have : Finite {q | ReflTransGen r a q} := hfin
    have : IsTrans _ later := ⟨fun _ _ _ hxy hyz => hyz.trans hxy⟩
    have : Std.Irrefl later := ⟨fun x => h x.1 x.2⟩
    have hwf : WellFounded later := Finite.wellFounded_of_trans_of_irrefl later
    have hacc : ∀ x : {q | ReflTransGen r a q}, Acc (fun q p => r p q) x.1 := by
      intro x
      induction x using hwf.induction with
      | _ x ih => exact Acc.intro _ fun q hq => ih ⟨q, x.2.tail hq⟩ (.single hq)
    exact hacc ⟨a, .refl⟩

end Loops

end Mx.Core

import Mathlib

/-!
# Deterministic machines with observable events

A machine steps a configuration, emits events on the way, and either continues or
halts with a result. Runs compose, a halting run is unique, and an interpreter with a
bound on its work that follows a machine has the same results, the same
divergence and the same observable prefixes.
-/

namespace Mx.Core

/-- A deterministic machine: one step emits events and continues or halts. -/
structure Machine (C E R : Type) where
  step : C → List E × (C ⊕ R)

namespace Machine

variable {C C' E R : Type} (M : Machine C E R)

/-- The events and the state of the machine after at most `n` steps. -/
def run : Nat → C → List E × (C ⊕ R)
  | 0, c => ([], .inl c)
  | n + 1, c =>
    match M.step c with
    | (es, .inl c') => (es ++ (run n c').1, (run n c').2)
    | (es, .inr r) => (es, .inr r)

/-- Exactly `n` steps lead from `c` to `c'` and emit `es`. -/
def Steps (n : Nat) (c : C) (es : List E) (c' : C) : Prop := M.run n c = (es, .inl c')

/-- The machine started in `c` emits `es` and halts with `r`. -/
def Halts (c : C) (es : List E) (r : R) : Prop := ∃ n, M.run n c = (es, .inr r)

/-- The machine started in `c` never halts. -/
def Diverges (c : C) : Prop := ∀ n, ∃ es c', M.Steps n c es c'

variable {M} {m n : Nat} {c c₁ c₂ : C} {es es₁ es₂ : List E} {r : R}

theorem steps_zero : M.Steps 0 c [] c := rfl

theorem steps_one (h : M.step c = (es, .inl c₁)) : M.Steps 1 c es c₁ := by
  simp [Steps, run, h]

theorem halts_one (h : M.step c = (es, .inr r)) : M.Halts c es r := by
  refine ⟨1, ?_⟩
  simp [run, h]

/-- A run continues from where its first part stops. -/
theorem run_add_of_steps (h : M.Steps m c es c₁) (n : Nat) :
    M.run (m + n) c = (es ++ (M.run n c₁).1, (M.run n c₁).2) := by
  induction m generalizing c es with
  | zero =>
    obtain ⟨rfl, rfl⟩ : es = [] ∧ c = c₁ := by simpa [Steps, run, eq_comm] using h
    simp
  | succ m ih =>
    simp only [Steps, run] at h
    rw [Nat.succ_add, run]
    split at h
    · next es₀ c₀ hstep =>
      obtain ⟨rfl, htail⟩ : es₀ ++ (M.run m c₀).1 = es ∧ (M.run m c₀).2 = .inl c₁ := by
        simpa using h
      have hrun : M.Steps m c₀ (M.run m c₀).1 c₁ := by rw [Steps, ← htail]
      simp [ih hrun]
    · simp at h

/-- A halted machine stays as it is. -/
theorem run_add_of_halted (h : M.run m c = (es, .inr r)) (n : Nat) :
    M.run (m + n) c = (es, .inr r) := by
  induction m generalizing c es with
  | zero => simp [run] at h
  | succ m ih =>
    simp only [run] at h
    rw [Nat.succ_add, run]
    split at h
    · next es₀ c₀ hstep =>
      obtain ⟨rfl, htail⟩ : es₀ ++ (M.run m c₀).1 = es ∧ (M.run m c₀).2 = .inr r := by
        simpa using h
      have hrun : M.run m c₀ = ((M.run m c₀).1, .inr r) := by rw [← htail]
      simp [ih hrun]
    · exact h

theorem Steps.trans (h₁ : M.Steps m c es₁ c₁) (h₂ : M.Steps n c₁ es₂ c₂) :
    M.Steps (m + n) c (es₁ ++ es₂) c₂ := by
  rw [Steps, run_add_of_steps h₁, h₂]

theorem Steps.halts (h₁ : M.Steps m c es₁ c₁) (h₂ : M.Halts c₁ es₂ r) :
    M.Halts c (es₁ ++ es₂) r := by
  obtain ⟨n, hn⟩ := h₂
  exact ⟨m + n, by rw [run_add_of_steps h₁, hn]⟩

/-- A machine halts in one way only. -/
theorem Halts.unique {r₁ r₂ : R} (h₁ : M.Halts c es₁ r₁) (h₂ : M.Halts c es₂ r₂) :
    es₁ = es₂ ∧ r₁ = r₂ := by
  obtain ⟨m, hm⟩ := h₁
  obtain ⟨n, hn⟩ := h₂
  have hboth := run_add_of_halted hm n
  rw [Nat.add_comm, run_add_of_halted hn m] at hboth
  simpa [eq_comm] using hboth

/-- A machine that halts within `n` steps does not take more than that. -/
theorem not_steps_of_halted {c' : C} (h : M.run n c = (es, .inr r)) (hle : n ≤ m) :
    ¬ M.Steps m c es₁ c' := by
  intro hs
  obtain ⟨k, rfl⟩ := Nat.exists_eq_add_of_le hle
  simp [Steps, run_add_of_halted h k] at hs

theorem diverges_iff : M.Diverges c ↔ ¬ ∃ es r, M.Halts c es r := by
  constructor
  · rintro hd ⟨es, r, n, hn⟩
    obtain ⟨es', c', hs⟩ := hd n
    exact not_steps_of_halted hn (Nat.le_refl n) hs
  · intro hnot n
    rcases hrun : M.run n c with ⟨es, c' | r⟩
    · exact ⟨es, c', hrun⟩
    · exact absurd ⟨es, r, n, hrun⟩ hnot

theorem events_mono (hle : m ≤ n) (c : C) : (M.run m c).1 <+: (M.run n c).1 := by
  obtain ⟨k, rfl⟩ := Nat.exists_eq_add_of_le hle
  rcases hrun : M.run m c with ⟨es, c' | r⟩
  · rw [run_add_of_steps hrun]
    exact List.prefix_append _ _
  · have hsame : M.run (m + k) c = (es, .inr r) := run_add_of_halted hrun k
    exact hsame ▸ List.prefix_rfl

/-! ## Lockstep -/

/-- A machine whose steps are the images of another machine's steps runs in lockstep
with it. -/
theorem run_image {N : Machine C' E R} {g : C → C'} {P : C → Prop}
    (hstep : ∀ c, P c → N.step (g c) = ((M.step c).1, (M.step c).2.map g id))
    (hP : ∀ c es c', P c → M.step c = (es, .inl c') → P c') (n : Nat) (hc : P c) :
    N.run n (g c) = ((M.run n c).1, (M.run n c).2.map g id) := by
  induction n generalizing c with
  | zero => rfl
  | succ n ih =>
    rw [run, run, hstep c hc]
    rcases hs : M.step c with ⟨es, c' | r⟩
    · have hih := ih (hP c es c' hc hs)
      simp [hih]
    · simp

/-- Machines in lockstep have the same results, the same divergence and the same events. -/
theorem same_of_image {N : Machine C' E R} {g : C → C'} {c : C}
    (h : ∀ n, N.run n (g c) = ((M.run n c).1, (M.run n c).2.map g id)) :
    (∀ es r, N.Halts (g c) es r ↔ M.Halts c es r) ∧
      (N.Diverges (g c) ↔ M.Diverges c) ∧ ∀ n, (N.run n (g c)).1 = (M.run n c).1 := by
  have hhalts : ∀ es r, N.Halts (g c) es r ↔ M.Halts c es r := by
    intro es r
    unfold Halts
    refine exists_congr fun n => ?_
    rw [h n]
    rcases M.run n c with ⟨es', c' | r'⟩ <;> simp
  refine ⟨hhalts, ?_, fun n => by rw [h n]⟩
  rw [diverges_iff, diverges_iff]
  simp only [hhalts]

/-! ## Interpreters that follow a machine -/

/-- An interpreter with a bound on its work: its events so far, and a result unless
the bound was too small. -/
abbrev Bounded (E R : Type) := Nat → List E × Option R

/-- The interpreter follows the machine: a result of its own is the machine's, and
when it runs out at bound `n` the machine takes at least `n` steps with the same events. -/
structure Follows (M : Machine C E R) (c : C) (f : Bounded E R) : Prop where
  halts : ∀ n es r, f n = (es, some r) → M.Halts c es r
  steps : ∀ n es, f n = (es, none) → ∃ m c', n ≤ m ∧ M.Steps m c es c'

variable {f : Bounded E R}

theorem Follows.halts_iff (h : M.Follows c f) :
    (∃ n, f n = (es, some r)) ↔ M.Halts c es r := by
  constructor
  · rintro ⟨n, hn⟩
    exact h.halts n es r hn
  · rintro ⟨n, hn⟩
    rcases hf : f n with ⟨es', _ | r'⟩
    · obtain ⟨m, c', hle, hs⟩ := h.steps n es' hf
      exact absurd hs (not_steps_of_halted hn hle)
    · obtain ⟨rfl, rfl⟩ := (h.halts n es' r' hf).unique ⟨n, hn⟩
      exact ⟨n, hf⟩

theorem Follows.diverges_iff (h : M.Follows c f) :
    (∀ n, (f n).2 = none) ↔ M.Diverges c := by
  rw [Machine.diverges_iff]
  constructor
  · rintro hnone ⟨es, r, hh⟩
    obtain ⟨n, hn⟩ := h.halts_iff.mpr hh
    have hn' := hnone n
    simp [hn] at hn'
  · intro hnot n
    rcases hf : f n with ⟨es, _ | r⟩
    · rfl
    · exact absurd ⟨es, r, h.halts n es r hf⟩ hnot

/-- What can be observed of the interpreter at some bound is what can be observed of
the machine after some number of steps. -/
theorem Follows.events_iff (h : M.Follows c f) :
    (∃ n, es <+: (f n).1) ↔ ∃ n, es <+: (M.run n c).1 := by
  constructor
  · rintro ⟨n, hp⟩
    rcases hf : f n with ⟨es', _ | r⟩
    · obtain ⟨m, c', _, hs⟩ := h.steps n es' hf
      refine ⟨m, ?_⟩
      rw [hs]
      simpa [hf] using hp
    · obtain ⟨m, hm⟩ := h.halts n es' r hf
      refine ⟨m, ?_⟩
      rw [hm]
      simpa [hf] using hp
  · rintro ⟨n, hp⟩
    refine ⟨n, hp.trans ?_⟩
    rcases hf : f n with ⟨es', _ | r⟩
    · obtain ⟨m, c', hle, hs⟩ := h.steps n es' hf
      have hmono := M.events_mono hle c
      rwa [hs] at hmono
    · obtain ⟨m, hm⟩ := h.halts n es' r hf
      have hmono := M.events_mono (Nat.le_add_left n m) c
      rwa [run_add_of_halted hm] at hmono

end Machine

end Mx.Core

/-!
# Runs under a condition

The states that a system reaches when every step meets a condition on the state before it.
-/

namespace Mx.Core

variable {σ α : Type}

/-- The states reached from a start by steps that all meet the condition. -/
inductive GuardedRun (next : σ → α → σ → Prop) (ok : σ → α → Prop) (start : σ → Prop) : σ → Prop
  | start {s : σ} : start s → GuardedRun next ok start s
  | step {s s' : σ} {a : α} : GuardedRun next ok start s → ok s a → next s a s' →
      GuardedRun next ok start s'

variable {next : σ → α → σ → Prop} {ok : σ → α → Prop} {start : σ → Prop} {s : σ}

/-- What holds at the start and is kept by every step that meets the condition holds throughout. -/
theorem GuardedRun.invariant {inv : σ → Prop} (h : GuardedRun next ok start s)
    (hstart : ∀ s, start s → inv s)
    (hstep : ∀ s a s', inv s → ok s a → next s a s' → inv s') : inv s := by
  induction h with
  | start h => exact hstart _ h
  | step _ hok hnext ih => exact hstep _ _ _ ih hok hnext

end Mx.Core

import Mathlib

/-!
# Readers of a view

A reader takes a view and a position, and gives a value and the position after it. It reads some
bytes as a value when it does so wherever they stand in a view, and refuses every view that ends
within them.
-/

namespace Mx.Core

open List

/-- A reader of views. -/
abbrev ViewReader (β ε α : Type) : Type := List β → Nat → Except ε (α × Nat)

namespace ViewReader

variable {β ε α γ : Type}

/-- The reader that reads nothing. -/
def pure (a : α) : ViewReader β ε α := fun _ pos => .ok (a, pos)

/-- One reader after another. -/
def bind (p : ViewReader β ε α) (q : α → ViewReader β ε γ) : ViewReader β ε γ := fun v pos =>
  match p v pos with
  | .error e => .error e
  | .ok (a, pos) => q a v pos

/-- The reader that refuses every view. -/
def fail (e : ε) : ViewReader β ε α := fun _ _ => .error e

theorem bind_ok_iff {p : ViewReader β ε α} {q : α → ViewReader β ε γ} {v : List β} {pos : Nat}
    {r : γ × Nat} :
    p.bind q v pos = .ok r ↔ ∃ a mid, p v pos = .ok (a, mid) ∧ q a v mid = .ok r := by
  rw [ViewReader.bind]
  rcases p v pos with e | ⟨a, mid⟩
  · constructor
    · intro h
      cases h
    · rintro ⟨_, _, h, -⟩
      cases h
  · constructor
    · intro h
      exact ⟨a, mid, rfl, h⟩
    · rintro ⟨a', mid', hfirst, hsecond⟩
      cases hfirst
      exact hsecond

/-- The reader reads the bytes as the value in every view of a bounded length, and fails with the
given error where the view ends within them. -/
structure Reads (bound : Nat) (bad : ε) (p : ViewReader β ε α) (bytes : List β) (a : α) :
    Prop where
  whole : ∀ front rest : List β, (front ++ (bytes ++ rest)).length ≤ bound →
    p (front ++ (bytes ++ rest)) front.length = .ok (a, (front ++ bytes).length)
  short : ∀ front part : List β, (front ++ part).length ≤ bound → part <+: bytes →
    part.length < bytes.length → p (front ++ part) front.length = .error bad

variable {bound : Nat} {bad : ε}

theorem Reads.pure (a : α) : Reads bound bad (ViewReader.pure (β := β) a) [] a where
  whole front rest _ := by simp [ViewReader.pure]
  short front part _ _ hlt := absurd hlt (Nat.not_lt_zero _)

/-- Two readers read what stands together. -/
theorem Reads.bind {p : ViewReader β ε α} {q : α → ViewReader β ε γ} {bytes bytes' : List β}
    {a : α} {c : γ} (hp : Reads bound bad p bytes a) (hq : Reads bound bad (q a) bytes' c) :
    Reads bound bad (p.bind q) (bytes ++ bytes') c where
  whole front rest hle := by
    have hfirst := hp.whole front (bytes' ++ rest) (by simpa using hle)
    have hsecond := hq.whole (front ++ bytes) rest (by simpa using hle)
    rw [append_assoc bytes, ViewReader.bind, hfirst]
    simpa using hsecond
  short front part hle hpart hlt := by
    by_cases hshort : part.length < bytes.length
    · have hinit : part <+: bytes :=
        prefix_of_prefix_length_le hpart (prefix_append _ _) (Nat.le_of_lt hshort)
      rw [ViewReader.bind, hp.short front part hle hinit hshort]
    · have hinit : bytes <+: part :=
        prefix_of_prefix_length_le (prefix_append _ _) hpart (Nat.not_lt.mp hshort)
      obtain ⟨part', rfl⟩ := hinit
      have hrest : part' <+: bytes' := (prefix_append_right_inj _).mp hpart
      rw [length_append, length_append] at hlt
      have hfirst := hp.whole front part' hle
      have hsecond := hq.short (front ++ bytes) part' (by simpa using hle) hrest (by omega)
      rw [ViewReader.bind, hfirst]
      rw [← append_assoc]
      exact hsecond

theorem Reads.map {p : ViewReader β ε α} {bytes : List β} {a : α}
    (hp : Reads bound bad p bytes a) (f : α → γ) :
    Reads bound bad (p.bind fun a => ViewReader.pure (f a)) bytes (f a) := by
  have hboth := hp.bind (q := fun a => ViewReader.pure (f a)) (Reads.pure (f a))
  rwa [append_nil] at hboth

/-! ## What a reader guarantees -/

/-- From the position the reader fails with the given error only, or else its value and the position
after it are as wanted. -/
def Yields (bad : ε) (p : ViewReader β ε α) (v : List β) (pos : Nat) (post : α → Nat → Prop) :
    Prop :=
  ∀ r, p v pos = r → (∀ e, r = .error e → e = bad) ∧ ∀ a mid, r = .ok (a, mid) → post a mid

section Yields

variable {p : ViewReader β ε α} {q : α → ViewReader β ε γ} {v : List β} {pos : Nat}
  {post post' : α → Nat → Prop} {post₂ : γ → Nat → Prop}

theorem Yields.of_error (h : p v pos = .error bad) : Yields bad p v pos post := by
  intro r hr
  rw [← hr, h]
  exact ⟨fun e he => (Except.error.inj he).symm, nofun⟩

theorem Yields.of_ok {a : α} {mid : Nat} (h : p v pos = .ok (a, mid)) (hpost : post a mid) :
    Yields bad p v pos post := by
  intro r hr
  rw [← hr, h]
  refine ⟨nofun, fun a' mid' heq => ?_⟩
  cases heq
  exact hpost

theorem Yields.ok (h : Yields bad p v pos post) {a : α} {mid : Nat}
    (heq : p v pos = .ok (a, mid)) : post a mid := (h _ rfl).2 a mid heq

theorem Yields.pure {a : α} (h : post a pos) : Yields bad (ViewReader.pure a) v pos post :=
  .of_ok rfl h

theorem Yields.mono (h : Yields bad p v pos post) (himp : ∀ a mid, post a mid → post' a mid) :
    Yields bad p v pos post' := fun r hr =>
  ⟨(h r hr).1, fun a mid heq => himp a mid ((h r hr).2 a mid heq)⟩

/-- What the second reader guarantees after what the first one read. -/
theorem Yields.bind (hp : Yields bad p v pos post)
    (hq : ∀ a mid, p v pos = .ok (a, mid) → post a mid → Yields bad (q a) v mid post₂) :
    Yields bad (p.bind q) v pos post₂ := by
  cases hfirst : p v pos with
  | error e =>
    obtain rfl := (hp _ hfirst).1 e rfl
    refine .of_error ?_
    rw [ViewReader.bind, hfirst]
  | ok r =>
    obtain ⟨a, mid⟩ := r
    have hsecond := hq a mid hfirst (hp.ok hfirst)
    have hboth : p.bind q v pos = q a v mid := by rw [ViewReader.bind, hfirst]
    intro r hr
    exact hsecond r (hboth ▸ hr)

end Yields

end ViewReader

end Mx.Core

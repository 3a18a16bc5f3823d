import Mathlib

/-!
# Descents

A descent is a computation over a state that reads its input from left to right: it may fail, look
at a place outside its input, or need more depth than it is given. A descent moves if it comes to an
end without the last two and never goes backward. It eats if in addition something of the input is
used up when it succeeds; recursion and loops behind that end in a depth bounded by what is left.
-/

namespace Mx.Core

/-- How a descent ends. -/
inductive Outcome (σ ε α : Type) where
  | ok (a : α) (s : σ)
  | failed (e : ε) (s : σ)
  | outOfRange
  | tooDeep

/-- A computation over a state that may fail. -/
def Descent (σ ε α : Type) := σ → Outcome σ ε α

namespace Descent

variable {σ ε α β γ : Type}

/-- One descent after the other; a failure ends both. -/
def andThen (p : Descent σ ε α) (f : α → Descent σ ε β) : Descent σ ε β := fun s =>
  match p s with
  | .ok a t => f a t
  | .failed e t => .failed e t
  | .outOfRange => .outOfRange
  | .tooDeep => .tooDeep

instance : Monad (Descent σ ε) where
  pure a := fun s => .ok a s
  bind := andThen

/-- The failing descent. -/
def fail (e : ε) : Descent σ ε α := fun s => .failed e s

/-- The current state. -/
def get : Descent σ ε σ := fun s => .ok s s

/-- A change of the state. -/
def modify (f : σ → σ) : Descent σ ε Unit := fun s => .ok () (f s)

/-- The descent whose failure is a value. -/
def attempt (p : Descent σ ε α) : Descent σ ε (Except ε α) := fun s =>
  match p s with
  | .ok a t => .ok (.ok a) t
  | .failed e t => .ok (.error e) t
  | .outOfRange => .outOfRange
  | .tooDeep => .tooDeep

/-- Turns until one says that it was the last. -/
def repeated (turn : β → Descent σ ε (ForInStep β)) : Nat → β → Descent σ ε β
  | 0, _ => fun _ => .tooDeep
  | depth + 1, b => do
    match ← turn b with
    | .yield b' => repeated turn depth b'
    | .done b' => pure b'

/-- The descent ends inside its input and its depth, with these outcomes. -/
def Ends (p : Descent σ ε α) (s : σ) (Q : α → σ → Prop) (E : σ → Prop) : Prop :=
  match p s with
  | .ok a t => Q a t
  | .failed _ t => E t
  | .outOfRange => False
  | .tooDeep => False

section Ends

variable {p : Descent σ ε α} {f : α → Descent σ ε β} {s : σ} {Q Q' : α → σ → Prop}
  {E E' : σ → Prop}

@[simp] theorem ends_pure {a : α} : Ends (pure a : Descent σ ε α) s Q E ↔ Q a s := Iff.rfl

@[simp] theorem ends_get {Q : σ → σ → Prop} : Ends (get : Descent σ ε σ) s Q E ↔ Q s s := Iff.rfl

@[simp] theorem ends_modify {g : σ → σ} {Q : Unit → σ → Prop} :
    Ends (modify g : Descent σ ε Unit) s Q E ↔ Q () (g s) := Iff.rfl

@[simp] theorem ends_bind {Q : β → σ → Prop} :
    Ends (p >>= f) s Q E ↔ Ends p s (fun a t => Ends (f a) t Q E) E := by
  change Ends (andThen p f) s Q E ↔ _
  unfold Ends andThen
  cases p s <;> rfl

@[simp] theorem ends_attempt {Q : Except ε α → σ → Prop} :
    Ends (attempt p) s Q E ↔
      match p s with
      | .ok a t => Q (.ok a) t
      | .failed e t => Q (.error e) t
      | .outOfRange => False
      | .tooDeep => False := by
  unfold Ends attempt
  cases p s <;> rfl

theorem Ends.mono (h : Ends p s Q E) (hQ : ∀ a t, Q a t → Q' a t) (hE : ∀ t, E t → E' t) :
    Ends p s Q' E' := by
  unfold Ends at h ⊢
  cases hp : p s with
  | ok a t => exact hQ a t (by simpa only [hp] using h)
  | failed e t => exact hE t (by simpa only [hp] using h)
  | outOfRange | tooDeep => simp only [hp] at h

/-- A descent that ends has succeeded or failed. -/
theorem Ends.cases (h : Ends p s Q E) :
    (∃ a t, p s = .ok a t ∧ Q a t) ∨ ∃ e t, p s = .failed e t ∧ E t := by
  unfold Ends at h
  cases hp : p s with
  | ok a t => exact .inl ⟨a, t, rfl, by simpa only [hp] using h⟩
  | failed e t => exact .inr ⟨e, t, rfl, by simpa only [hp] using h⟩
  | outOfRange | tooDeep => simp only [hp] at h

end Ends

end Descent

/-- States with a rest of the input that only gets shorter. -/
class Rest (σ : Type) where
  Valid : σ → Prop
  left : σ → Nat
  Onward : σ → σ → Prop
  refl {s : σ} : Valid s → Onward s s
  trans {s t u : σ} : Onward s t → Onward t u → Onward s u
  valid {s t : σ} : Onward s t → Valid t
  left_le {s t : σ} : Onward s t → left t ≤ left s
  left_pos {s : σ} : Valid s → 0 < left s

namespace Descent

open Rest

variable {σ ε α β γ : Type} [Rest σ] {P : σ → Prop} {k k' : Nat} {s t u : σ}

/-- Onward with something used up. -/
def Ahead (s t : σ) : Prop := Onward s t ∧ left t < left s

theorem Ahead.onward (h : Ahead s t) : Onward s t := h.1

theorem Ahead.trans (h : Ahead s t) (h' : Onward t u) : Ahead s u :=
  ⟨Rest.trans h.1 h', Nat.lt_of_le_of_lt (left_le h') h.2⟩

theorem ahead_trans (h : Onward s t) (h' : Ahead t u) : Ahead s u :=
  ⟨Rest.trans h h'.1, Nat.lt_of_lt_of_le h'.2 (left_le h)⟩

/-- From a state with this property and at most so much left the descent ends like this. -/
def Meets (P : σ → Prop) (k : Nat) (p : Descent σ ε α) (Q : α → σ → σ → Prop)
    (E : σ → σ → Prop) : Prop :=
  ∀ s, Valid s → P s → left s ≤ k → Ends p s (fun a => Q a s) (E s)

/-- The descent ends onward. -/
def MovesAt (P : σ → Prop) (k : Nat) (p : Descent σ ε α) : Prop :=
  Meets P k p (fun _ => Onward) Onward

/-- The descent moves, and if it succeeds something is used up. -/
def EatsAt (P : σ → Prop) (k : Nat) (p : Descent σ ε α) : Prop :=
  Meets P k p (fun _ => Ahead) Onward

/-- The descent moves, and something is used up also if it fails. -/
def LeavesAt (P : σ → Prop) (k : Nat) (p : Descent σ ε α) : Prop :=
  Meets P k p (fun _ => Ahead) Ahead

/-- The turn of a loop moves, and if it is not the last something is used up. -/
def TurnsAt (P : σ → Prop) (k : Nat) (p : Descent σ ε (ForInStep β)) : Prop :=
  Meets P k p (fun r s t => Onward s t ∧ ∀ b, r = .yield b → left t < left s) Onward

/-- Every state. -/
def anywhere (_ : σ) : Prop := True

/-- The descent moves from every state with at most so much left. -/
abbrev Moves (k : Nat) (p : Descent σ ε α) : Prop := MovesAt anywhere k p

/-- The descent eats from every state with at most so much left. -/
abbrev Eats (k : Nat) (p : Descent σ ε α) : Prop := EatsAt anywhere k p

/-- The turn turns from every state with at most so much left. -/
abbrev Turns (k : Nat) (p : Descent σ ε (ForInStep β)) : Prop := TurnsAt anywhere k p

section Rules

variable {p q : Descent σ ε α} {f : α → Descent σ ε β} {c : Prop} [Decidable c]

theorem MovesAt.pure (a : α) : MovesAt P k (pure a : Descent σ ε α) :=
  fun _ hs _ _ => Rest.refl hs

theorem MovesAt.fail (e : ε) : MovesAt P k (fail e : Descent σ ε α) :=
  fun _ hs _ _ => Rest.refl hs

theorem EatsAt.fail (e : ε) : EatsAt P k (Descent.fail e : Descent σ ε α) :=
  fun _ hs _ _ => Rest.refl hs

theorem MovesAt.mono (h : MovesAt P k p) (hk : k' ≤ k) : MovesAt P k' p :=
  fun s hs hP hle => h s hs hP (Nat.le_trans hle hk)

theorem EatsAt.mono (h : EatsAt P k p) (hk : k' ≤ k) : EatsAt P k' p :=
  fun s hs hP hle => h s hs hP (Nat.le_trans hle hk)

theorem MovesAt.at (h : Moves k p) : MovesAt P k p :=
  fun s hs _ hle => h s hs trivial hle

theorem EatsAt.at (h : Eats k p) : EatsAt P k p :=
  fun s hs _ hle => h s hs trivial hle

theorem EatsAt.moves (h : EatsAt P k p) : MovesAt P k p :=
  fun s hs hP hle => (h s hs hP hle).mono (fun _ _ h => h.1) fun _ h => h

theorem LeavesAt.eats (h : LeavesAt P k p) : EatsAt P k p :=
  fun s hs hP hle => (h s hs hP hle).mono (fun _ _ h => h) fun _ h => h.1

theorem MovesAt.bind (hp : MovesAt P k p) (hf : ∀ a, Moves k (f a)) : MovesAt P k (p >>= f) := by
  intro s hs hP hle
  refine ends_bind.2 ((hp s hs hP hle).mono (fun a t ht => ?_) fun _ h => h)
  have hend := hf a t (valid ht) trivial (Nat.le_trans (left_le ht) hle)
  exact hend.mono (fun _ _ h => Rest.trans ht h) fun _ h => Rest.trans ht h

theorem EatsAt.bind (hp : EatsAt P (k + 1) p) (hf : ∀ a, Moves k (f a)) :
    EatsAt P (k + 1) (p >>= f) := by
  intro s hs hP hle
  refine ends_bind.2 ((hp s hs hP hle).mono (fun a t ht => ?_) fun _ h => h)
  have hlt : left t < left s := ht.2
  have hend := hf a t (valid ht.1) trivial (by omega)
  exact hend.mono (fun _ _ h => ht.trans h) fun _ h => Rest.trans ht.1 h

theorem EatsAt.andThen (hp : EatsAt P k p) (hf : ∀ a, Moves k (f a)) : EatsAt P k (p >>= f) := by
  intro s hs hP hle
  refine ends_bind.2 ((hp s hs hP hle).mono (fun a t ht => ?_) fun _ h => h)
  have hend := hf a t (valid ht.1) trivial (Nat.le_trans (left_le ht.1) hle)
  exact hend.mono (fun _ _ h => ht.trans h) fun _ h => Rest.trans ht.1 h

theorem MovesAt.bind_eats (hp : MovesAt P k p) (hf : ∀ a, Eats k (f a)) :
    EatsAt P k (p >>= f) := by
  intro s hs hP hle
  refine ends_bind.2 ((hp s hs hP hle).mono (fun a t ht => ?_) fun _ h => h)
  have hend := hf a t (valid ht) trivial (Nat.le_trans (left_le ht) hle)
  exact hend.mono (fun _ _ h => ahead_trans ht h) fun _ h => Rest.trans ht h

theorem LeavesAt.andThen (hp : LeavesAt P k p) (hf : ∀ a, Moves k (f a)) :
    LeavesAt P k (p >>= f) := by
  intro s hs hP hle
  refine ends_bind.2 ((hp s hs hP hle).mono (fun a t ht => ?_) fun _ h => h)
  have hend := hf a t (valid ht.1) trivial (Nat.le_trans (left_le ht.1) hle)
  exact hend.mono (fun _ _ h => ht.trans h) fun _ h => ht.trans h

theorem LeavesAt.bind (hp : LeavesAt P (k + 1) p) (hf : ∀ a, Moves k (f a)) :
    LeavesAt P (k + 1) (p >>= f) := by
  intro s hs hP hle
  refine ends_bind.2 ((hp s hs hP hle).mono (fun a t ht => ?_) fun _ h => h)
  have hlt : left t < left s := ht.2
  have hend := hf a t (valid ht.1) trivial (by omega)
  exact hend.mono (fun _ _ h => ht.trans h) fun _ h => ht.trans h

theorem MovesAt.bind_meets {Q : β → σ → σ → Prop} (hp : MovesAt P k p)
    (hQ : ∀ b s t u, Onward s t → Q b t u → Q b s u)
    (hf : ∀ a, Meets anywhere k (f a) Q Onward) : Meets P k (p >>= f) Q Onward := by
  intro s hs hP hle
  refine ends_bind.2 ((hp s hs hP hle).mono (fun a t ht => ?_) fun _ h => h)
  have hend := hf a t (valid ht) trivial (Nat.le_trans (left_le ht) hle)
  exact hend.mono (fun b u h => hQ b s t u ht h) fun _ h => Rest.trans ht h

theorem MovesAt.zero : MovesAt P 0 p := by
  intro s hs _ hle
  have := left_pos hs
  omega

theorem MovesAt.ite (hp : MovesAt P k p) (hq : MovesAt P k q) :
    MovesAt P k (if c then p else q) := by
  split
  · exact hp
  · exact hq

end Rules

section Back

variable {p q : Descent σ ε α} {f : α → Descent σ ε β} {c : Prop} [Decidable c]

/-- From the states onward of this one the descent ends onward of it, though it may go back. -/
def MovesFrom (s : σ) (p : Descent σ ε α) : Prop :=
  ∀ t, Onward s t → Ends p t (fun _ => Onward s) (Onward s)

theorem MovesAt.from (h : Moves k p) (hk : left s ≤ k) : MovesFrom s p := by
  intro t ht
  have hend := h t (valid ht) trivial (Nat.le_trans (left_le ht) hk)
  exact hend.mono (fun _ _ h => Rest.trans ht h) fun _ h => Rest.trans ht h

theorem MovesFrom.pure (a : α) : MovesFrom s (pure a : Descent σ ε α) := fun _ ht => ht

theorem MovesFrom.bind (hp : MovesFrom s p) (hf : ∀ a, MovesFrom s (f a)) :
    MovesFrom s (p >>= f) :=
  fun t ht => ends_bind.2 ((hp t ht).mono (fun a u hu => hf a u hu) fun _ h => h)

theorem MovesFrom.ite (hp : MovesFrom s p) (hq : MovesFrom s q) :
    MovesFrom s (if c then p else q) := by
  split
  · exact hp
  · exact hq

/-- A descent that goes back no further than to the state it has saved. -/
theorem moves_get {f : σ → Descent σ ε β} (h : ∀ s, left s ≤ k → MovesFrom s (f s)) :
    MovesAt P k (get >>= f) :=
  fun s hs _ hle => h s hle s (Rest.refl hs)

end Back

section Loops

variable {p : Descent σ ε α} {f : α → Descent σ ε (ForInStep β)}
  {turn : β → Descent σ ε (ForInStep β)}

theorem TurnsAt.done (b : β) : TurnsAt P k (pure (.done b) : Descent σ ε (ForInStep β)) :=
  fun _ hs _ _ => ⟨Rest.refl hs, fun _ h => nomatch h⟩

theorem EatsAt.turns {p : Descent σ ε (ForInStep β)} (h : EatsAt P k p) : TurnsAt P k p :=
  fun s hs hP hle => (h s hs hP hle).mono (fun _ _ h => ⟨h.1, fun _ _ => h.2⟩) fun _ h => h

theorem MovesAt.bind_turns (hp : MovesAt P k p) (hf : ∀ a, Turns k (f a)) :
    TurnsAt P k (p >>= f) := by
  intro s hs hP hle
  refine ends_bind.2 ((hp s hs hP hle).mono (fun a t ht => ?_) fun _ h => h)
  have hend := hf a t (valid ht) trivial (Nat.le_trans (left_le ht) hle)
  refine hend.mono (fun r u h => ⟨Rest.trans ht h.1, fun b hb => ?_⟩) fun _ h => Rest.trans ht h
  exact Nat.lt_of_lt_of_le (h.2 b hb) (left_le ht)

/-- A loop whose turns keep an invariant and use something up ends in a depth of what is left. -/
theorem MovesAt.repeated {depth : Nat} (hk : k ≤ depth) (h : ∀ b, Meets P k (turn b)
      (fun r s t => Onward s t ∧ P t ∧ ∀ b, r = .yield b → left t < left s) Onward) (b : β) :
    MovesAt P k (repeated turn depth b) := by
  induction depth generalizing k b with
  | zero =>
    intro s hs _ hle
    have := left_pos hs
    omega
  | succ depth ih =>
    intro s hs hP hle
    refine ends_bind.2 ((h b s hs hP hle).mono (fun r t ht => ?_) fun _ h => h)
    obtain ⟨hst, hPt, hr⟩ := ht
    cases r with
    | done b' => exact hst
    | yield b' =>
      have hlt : left t < left s := hr b' rfl
      have hend := ih (k := left t) (by omega)
        (fun b u hu hPu hle' => h b u hu hPu (by omega)) b' t (valid hst) hPt le_rfl
      exact hend.mono (fun _ _ h => Rest.trans hst h) fun _ h => Rest.trans hst h

/-- A loop whose turns use something up ends in a depth of what is left. -/
theorem Moves.repeated {depth : Nat} (hk : k ≤ depth) (h : ∀ b, Turns k (turn b)) (b : β) :
    Moves k (repeated turn depth b) := by
  refine MovesAt.repeated hk (fun b s hs hP hle => ?_) b
  exact (h b s hs hP hle).mono (fun _ _ h => ⟨h.1, trivial, h.2⟩) fun _ h => h

end Loops

end Descent

end Mx.Core

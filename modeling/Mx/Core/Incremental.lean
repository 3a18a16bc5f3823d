import Mathlib

/-!
# Incremental machines

A machine that reads the front of a buffer as far as the bytes there decide what to do, and keeps
the rest until more arrive. It may also give up, which changes its state and reads nothing. As long
as it has not given up, how the input was cut into pieces does not matter.
-/

namespace Mx.Core

open List

/-- What a machine makes of the front of its buffer. -/
inductive Look (σ : Type) where
  /-- The bytes do not decide yet. -/
  | wait
  /-- So many bytes are read. -/
  | read (next : σ) (count : Nat)
  /-- The machine gives up on these bytes. -/
  | reject (last : σ)

/-- The state after a look that reads nothing. -/
def Look.after {σ : Type} (s : σ) : Look σ → σ
  | .reject last => last
  | _ => s

/-- A machine whose decisions depend on a front of the buffer only. -/
structure Incremental (σ β : Type) where
  look : σ → List β → Look σ
  count_le : ∀ {s b t n}, look s b = .read t n → n ≤ b.length
  look_append : ∀ {s b} (e : List β), look s b ≠ .wait → look s (b ++ e) = look s b

namespace Incremental

variable {σ β : Type} (m : Incremental σ β)

/-- All steps that the buffer allows, from a state and a buffer to the ones where none is left. -/
inductive Settles : σ → List β → σ → List β → Prop where
  | done {s b} (h : ∀ t n, m.look s b ≠ .read t n) : Settles s b s b
  | step {s b t n u r} (h : m.look s b = .read t n) (rest : Settles t (b.drop n) u r) :
      Settles s b u r

/-- The machine gives up on these bytes. -/
def Rejects (s : σ) (b : List β) : Prop := ∃ t r u, m.Settles s b t r ∧ m.look t r = .reject u

/-- More bytes are added to the buffer, and the machine goes on until it settles or gives up. -/
def Feeds (s : σ) (b chunk : List β) (s' : σ) (b' : List β) : Prop :=
  ∃ t, m.Settles s (b ++ chunk) t b' ∧ s' = (m.look t b').after t

/-- Chunks are fed one after another. -/
inductive FeedsAll : σ → List β → List (List β) → σ → List β → Prop where
  | nil {s b} : FeedsAll s b [] s b
  | cons {s b chunk chunks t r u q} (h : m.Feeds s b chunk t r) (rest : FeedsAll t r chunks u q) :
      FeedsAll s b (chunk :: chunks) u q

variable {m}

variable {b r b' chunk : List β} {s t u : σ}

theorem Settles.unique {t' : σ} {r' : List β} (h : m.Settles s b t r)
    (h' : m.Settles s b t' r') : t = t' ∧ r = r' := by
  induction h with
  | done hnone =>
    cases h' with
    | done _ => exact ⟨rfl, rfl⟩
    | step hsome _ => exact absurd hsome (hnone _ _)
  | step hsome _ ih =>
    cases h' with
    | done hnone => exact absurd hsome (hnone _ _)
    | step hsome' hrest' =>
      obtain ⟨rfl, rfl⟩ := Look.read.inj (hsome.symm.trans hsome')
      exact ih hrest'

/-- A step that can be taken is taken. -/
theorem Settles.of_read {n : Nat} (hlook : m.look s b = .read t n)
    (h : m.Settles s b u r) : m.Settles t (b.drop n) u r := by
  cases h with
  | done hnone => exact absurd hlook (hnone _ _)
  | step hsome hrest =>
    obtain ⟨rfl, rfl⟩ := Look.read.inj (hlook.symm.trans hsome)
    exact hrest

/-- What holds before the steps and is kept by each of them holds when the machine has settled. -/
theorem Settles.invariant {P : σ → List β → Prop}
    (hkeep : ∀ s b t n, P s b → m.look s b = .read t n → P t (b.drop n))
    (h : m.Settles s b t r) (hP : P s b) : P t r := by
  induction h with
  | done _ => exact hP
  | step hsome _ ih => exact ih (hkeep _ _ _ _ hP hsome)

/-- Bytes that arrive later are read after the machine has settled on those before them. -/
theorem Settles.append {q : List β} (h : m.Settles s b t r) {e : List β}
    (h' : m.Settles t (r ++ e) u q) : m.Settles s (b ++ e) u q := by
  induction h with
  | done _ => exact h'
  | step hsome _ ih =>
    have hlook := m.look_append e (by rw [hsome]; exact nofun)
    refine .step (hlook.trans hsome) ?_
    rw [drop_append_of_le_length (m.count_le hsome)]
    exact ih h'

theorem Settles.of_append {q : List β} (h : m.Settles s b t r) {e : List β}
    (h' : m.Settles s (b ++ e) u q) : m.Settles t (r ++ e) u q := by
  induction h with
  | done _ => exact h'
  | step hsome _ ih =>
    have hlook := m.look_append e (by rw [hsome]; exact nofun)
    have hrest := h'.of_read (hlook.trans hsome)
    rw [drop_append_of_le_length (m.count_le hsome)] at hrest
    exact ih hrest

/-- A machine that gives up has settled. -/
theorem Settles.of_reject (hlook : m.look s b = .reject u) :
    m.Settles s b s b :=
  .done fun _ _ hread => nomatch hlook.symm.trans hread

/-- A machine that gave up on some bytes gives up in the same way when there are more of them. -/
theorem Settles.append_of_reject (h : m.Settles s b t r)
    (hreject : m.look t r = .reject u) (e : List β) :
    m.Settles s (b ++ e) t (r ++ e) ∧ m.look t (r ++ e) = .reject u := by
  have hlook := m.look_append e (by rw [hreject]; exact nofun)
  rw [hreject] at hlook
  exact ⟨h.append (.of_reject hlook), hlook⟩

theorem Rejects.now (hlook : m.look s b = .reject u) : m.Rejects s b :=
  ⟨s, b, u, .of_reject hlook, hlook⟩

theorem Rejects.step {n : Nat} (hlook : m.look s b = .read t n)
    (h : m.Rejects t (b.drop n)) : m.Rejects s b := by
  obtain ⟨v, r, u, hsettle, hreject⟩ := h
  exact ⟨v, r, u, .step hlook hsettle, hreject⟩

theorem Rejects.append (h : m.Rejects s b) (e : List β) :
    m.Rejects s (b ++ e) := by
  obtain ⟨t, r, u, hsettle, hreject⟩ := h
  obtain ⟨hsettle', hreject'⟩ := hsettle.append_of_reject hreject e
  exact ⟨t, _, u, hsettle', hreject'⟩

theorem Feeds.unique {s' t' : σ} {r' : List β} (h : m.Feeds s b chunk s' b')
    (h' : m.Feeds s b chunk t' r') : s' = t' ∧ b' = r' := by
  obtain ⟨t, ht, rfl⟩ := h
  obtain ⟨u, hu, rfl⟩ := h'
  obtain ⟨rfl, rfl⟩ := ht.unique hu
  exact ⟨rfl, rfl⟩

/-- A machine that has not given up has only settled. -/
theorem Feeds.settles {s' : σ} (h : m.Feeds s b chunk s' b')
    (hlive : ¬ m.Rejects s (b ++ chunk)) : m.Settles s (b ++ chunk) s' b' := by
  obtain ⟨t, ht, rfl⟩ := h
  cases hlook : m.look t b' with
  | reject u => exact absurd ⟨t, b', u, ht, hlook⟩ hlive
  | wait => exact ht
  | read u n => exact ht

/-- A machine that has not given up after a chunk goes on as if the chunk had not ended there. -/
theorem Feeds.append {s' : σ} {e : List β} (h : m.Feeds s b chunk s' b')
    (hlive : ¬ m.Rejects s (b ++ chunk)) (h' : m.Feeds s' b' e t r) :
    m.Feeds s b (chunk ++ e) t r := by
  obtain ⟨v, hv, rfl⟩ := h'
  refine ⟨v, ?_, rfl⟩
  rw [← append_assoc]
  exact (h.settles hlive).append hv

/-- Giving up on what follows the chunk is giving up on both together. -/
theorem Feeds.rejects_iff {s' : σ} (h : m.Feeds s b chunk s' b')
    (hlive : ¬ m.Rejects s (b ++ chunk)) (e : List β) :
    m.Rejects s' (b' ++ e) ↔ m.Rejects s (b ++ (chunk ++ e)) := by
  rw [← append_assoc]
  constructor
  · rintro ⟨t, r, u, hsettle, hreject⟩
    exact ⟨t, r, u, (h.settles hlive).append hsettle, hreject⟩
  · rintro ⟨t, r, u, hsettle, hreject⟩
    exact ⟨t, r, u, (h.settles hlive).of_append hsettle, hreject⟩

/-- As long as the machine does not give up before the last chunk, the chunks are read like one. -/
theorem FeedsAll.feeds {q : List β} {chunks : List (List β)}
    (h : m.FeedsAll s b chunks u q) (hne : chunks ≠ [])
    (hlive : ¬ m.Rejects s (b ++ chunks.dropLast.flatten)) :
    m.Feeds s b chunks.flatten u q := by
  induction h with
  | nil => exact absurd rfl hne
  | @cons s b chunk chunks t r u q hfeed hrest ih =>
    cases chunks with
    | nil =>
      cases hrest
      simpa using hfeed
    | cons next chunks =>
      rw [dropLast_cons_of_ne_nil (cons_ne_nil _ _), flatten_cons] at hlive
      have hfirst : ¬ m.Rejects s (b ++ chunk) := by
        intro hreject
        refine hlive ?_
        rw [← append_assoc]
        exact hreject.append _
      have hlater : ¬ m.Rejects t (r ++ (next :: chunks).dropLast.flatten) :=
        fun hreject => hlive ((hfeed.rejects_iff hfirst _).mp hreject)
      exact hfeed.append hfirst (ih (cons_ne_nil _ _) hlater)

end Incremental

end Mx.Core

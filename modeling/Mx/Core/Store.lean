import Mathlib

/-!
# Blocks of memory under names

A memory of numbered blocks, and programs that reach it through names. Two names may stand for one
block. Two ways to give names their blocks cannot be told apart exactly if they start with the same
cells under all names, and no step changes a cell under a name that has other aliases in the other
way. A call binds the names of parameters to blocks: new ones with a copy of the argument, the block
of the argument itself, or a block that all activations of the procedure have in common.
-/

namespace Mx.Core

variable {V N : Type}

/-- The cells of numbered blocks. -/
abbrev Memory (V : Type) := Nat → Nat → V

/-- A cell is overwritten. -/
def Memory.write (m : Memory V) (block offset : Nat) (v : V) : Memory V :=
  fun b i => if b = block ∧ i = offset then v else m b i

theorem Memory.write_of_ne (m : Memory V) {b block : Nat} (h : b ≠ block) (offset : Nat) (v : V) :
    m.write block offset v b = m b := by
  funext i
  rw [Memory.write, if_neg fun h' => h h'.1]

theorem Memory.write_self_block (m : Memory V) (block offset : Nat) (v : V) :
    m.write block offset v block = fun i => if i = offset then v else m block i := by
  funext i
  simp [Memory.write]

theorem Memory.write_eq_self {m : Memory V} {block offset : Nat} {v : V}
    (h : m block offset = v) : m.write block offset v = m := by
  funext b i
  rw [Memory.write]
  split_ifs with heq
  · rw [heq.1, heq.2, h]
  · rfl

/-- A program over named variables: in every state it looks at their cells and overwrites one of
them, or it has ended. -/
structure Behaviour (V N : Type) where
  State : Type
  init : State
  step : State → (N → Nat → V) → Option (State × N × Nat × V)

namespace Behaviour

/-- What the variables hold. -/
def view (env : N → Nat) (m : Memory V) : N → Nat → V := fun x => m (env x)

/-- One step; a program that has ended stays as it is. -/
def next (b : Behaviour V N) (env : N → Nat) (s : b.State × Memory V) : b.State × Memory V :=
  match b.step s.1 (view env s.2) with
  | some (state, x, offset, v) => (state, s.2.write (env x) offset v)
  | none => s

/-- A number of steps. -/
def run (b : Behaviour V N) (env : N → Nat) (m : Memory V) (t : Nat) : b.State × Memory V :=
  (b.next env)^[t] (b.init, m)

theorem run_succ (b : Behaviour V N) (env : N → Nat) (m : Memory V) (t : Nat) :
    b.run env m (t + 1) = b.next env (b.run env m t) :=
  Function.iterate_succ_apply' _ _ _

/-- The step after `t` steps puts another value into a cell of the variable `x`. -/
def Changes (b : Behaviour V N) (env : N → Nat) (m : Memory V) (t : Nat) (x : N) : Prop :=
  ∃ state offset v,
    b.step (b.run env m t).1 (view env (b.run env m t).2) = some (state, x, offset, v) ∧
      (b.run env m t).2 (env x) offset ≠ v

end Behaviour

/-! ## Runs under two bindings of the names -/

/-- The program cannot tell two runs apart: it is in the same state, and all variables hold the
same. -/
def SameRun (b : Behaviour V N) (env env' : N → Nat) (m m' : Memory V) : Prop :=
  ∀ t, (b.run env m t).1 = (b.run env' m' t).1 ∧
    Behaviour.view env (b.run env m t).2 = Behaviour.view env' (b.run env' m' t).2

/-- The same names stand for the block of `x` in both bindings. -/
def SameAliases (env env' : N → Nat) (x : N) : Prop := ∀ y, env y = env x ↔ env' y = env' x

section Runs

variable {b : Behaviour V N} {env env' : N → Nat}

/-- A write through a name with the same aliases is seen alike. -/
theorem view_write_of_sameAliases {m m' : Memory V} {x : N} (hx : SameAliases env env' x)
    (hview : Behaviour.view env m = Behaviour.view env' m') (offset : Nat) (v : V) :
    Behaviour.view env (m.write (env x) offset v) =
      Behaviour.view env' (m'.write (env' x) offset v) := by
  funext y
  have hcell : m (env y) = m' (env' y) := congrFun hview y
  simp only [Behaviour.view]
  by_cases hy : env y = env x
  · have hy' : env' y = env' x := (hx y).mp hy
    rw [hy, hy'] at hcell
    rw [hy, hy', Memory.write_self_block, Memory.write_self_block, hcell]
  · have hy' : env' y ≠ env' x := fun heq => hy ((hx y).mpr heq)
    rw [Memory.write_of_ne _ hy, Memory.write_of_ne _ hy', hcell]

/-- A write of another value is seen alike only through a name with the same aliases. -/
theorem sameAliases_of_view_write {m m' : Memory V} {x : N} {offset : Nat} {v : V}
    (hview : Behaviour.view env m = Behaviour.view env' m') (hne : m (env x) offset ≠ v)
    (hwrite : Behaviour.view env (m.write (env x) offset v) =
      Behaviour.view env' (m'.write (env' x) offset v)) : SameAliases env env' x := by
  intro y
  have hcell : ∀ z, m (env z) = m' (env' z) := congrFun hview
  have hafter : m.write (env x) offset v (env y) offset =
      m'.write (env' x) offset v (env' y) offset := congrFun (congrFun hwrite y) offset
  constructor
  · intro hy
    by_contra hy'
    rw [Memory.write_of_ne _ hy', ← hcell y, hy, Memory.write_self_block] at hafter
    simp only [if_true] at hafter
    exact hne hafter.symm
  · intro hy'
    by_contra hy
    rw [Memory.write_of_ne _ hy, hcell y, hy', ← hcell x, Memory.write_self_block] at hafter
    simp only [if_true] at hafter
    exact hne hafter

/-- One step keeps the runs alike if it changes cells through names with the same aliases only. -/
theorem next_alike {s s' : b.State × Memory V} (hstate : s.1 = s'.1)
    (hview : Behaviour.view env s.2 = Behaviour.view env' s'.2)
    (halias : ∀ state x offset v,
      b.step s.1 (Behaviour.view env s.2) = some (state, x, offset, v) →
        s.2 (env x) offset ≠ v → SameAliases env env' x) :
    (b.next env s).1 = (b.next env' s').1 ∧
      Behaviour.view env (b.next env s).2 = Behaviour.view env' (b.next env' s').2 := by
  unfold Behaviour.next
  rw [← hstate, ← hview]
  cases hstep : b.step s.1 (Behaviour.view env s.2) with
  | none => exact ⟨hstate, hview⟩
  | some write =>
    obtain ⟨state, x, offset, v⟩ := write
    refine ⟨rfl, ?_⟩
    dsimp only
    by_cases hv : s.2 (env x) offset = v
    · have hcell : s.2 (env x) = s'.2 (env' x) := congrFun hview x
      have hv' : s'.2 (env' x) offset = v := by rw [← hcell, hv]
      rw [Memory.write_eq_self hv, Memory.write_eq_self hv', hview]
    · exact view_write_of_sameAliases (halias state x offset v hstep hv) hview offset v

/-- Two bindings cannot be told apart exactly if all names hold the same at the start, and every
change of a cell goes through a name that has the same aliases in both. -/
theorem sameRun_iff {m m' : Memory V} :
    SameRun b env env' m m' ↔
      Behaviour.view env m = Behaviour.view env' m' ∧
        ∀ t x, b.Changes env m t x → SameAliases env env' x := by
  constructor
  · intro h
    refine ⟨(h 0).2, ?_⟩
    rintro t x ⟨state, offset, v, hstep, hne⟩
    have hafter := (h (t + 1)).2
    rw [Behaviour.run_succ, Behaviour.run_succ, Behaviour.next, Behaviour.next, ← (h t).1,
      ← (h t).2, hstep] at hafter
    exact sameAliases_of_view_write (h t).2 hne hafter
  · rintro ⟨hview, hchange⟩ t
    induction t with
    | zero => exact ⟨rfl, hview⟩
    | succ t ih =>
      rw [Behaviour.run_succ, Behaviour.run_succ]
      exact next_alike ih.1 ih.2 fun state x offset v hstep hne =>
        hchange t x ⟨state, offset, v, hstep, hne⟩

end Runs

/-! ## Parameters -/

/-- Where a parameter is kept. -/
inductive Storage where
  /-- A block of its own, with a copy of the argument. -/
  | own
  /-- The block of the argument. -/
  | shared
  /-- One block for all activations of the procedure, with a copy of the argument. -/
  | static
  /-- The block of the argument, by a pointer that all activations have in common. -/
  | staticPointer
  /-- What is common to all activations does not get all of the parameter; the names lead to some
  block. -/
  | stray
  deriving DecidableEq, Repr

/-- All activations of the procedure see the binding of the last one. -/
def Storage.isStatic : Storage → Bool
  | .own | .shared => false
  | .static | .staticPointer | .stray => true

/-- The names of a procedure: its parameters and the variables that exist before the call. -/
abbrev CallName (k n : Nat) := Fin k ⊕ Fin n

/-- A call of a procedure with `k` parameters, where `n` variables exist. -/
structure Call (k n : Nat) where
  /-- The blocks of the variables. -/
  home : Fin n → Nat
  args : Fin k → Fin n
  /-- The same parameter of an activation that has not ended. -/
  suspended : Fin k → Option (Fin n)
  /-- Where stray names lead to. -/
  stray : Fin k → Nat

namespace Call

variable {k n : Nat} (c : Call k n) (storage : Fin k → Storage)

/-- The first block that no variable has. -/
def fresh : Nat := Finset.univ.sup fun x => c.home x + 1

theorem home_lt_fresh (x : Fin n) : c.home x < c.fresh :=
  Finset.le_sup (f := fun x => c.home x + 1) (Finset.mem_univ x)

/-- The block of a parameter during the call. -/
def paramBlock (i : Fin k) : Nat :=
  match storage i with
  | .own => c.fresh + i
  | .shared | .staticPointer => c.home (c.args i)
  | .static =>
    match c.suspended i with
    | some x => c.home x
    | none => c.fresh + i
  | .stray => c.stray i

/-- The block of a variable during the call: the static parameters of a suspended activation are
those of the new one. -/
def varBlock (x : Fin n) : Nat :=
  match (List.finRange k).find? fun i => (storage i).isStatic && c.suspended i == some x with
  | some i => c.paramBlock storage i
  | none => c.home x

/-- The blocks of the names during the call. -/
def env : CallName k n → Nat
  | .inl i => c.paramBlock storage i
  | .inr x => c.varBlock storage x

/-- The memory when the body starts: the arguments are copied to the parameters that are given a
copy. -/
def entry (m : Memory V) : Memory V := fun block =>
  match (List.finRange k).find? fun i =>
      (storage i == .own || storage i == .static) && c.paramBlock storage i == block with
  | some i => m (c.home (c.args i))
  | none => m block

/-- Where no parameter is static, the variables keep their blocks. -/
theorem varBlock_of_not_static (h : ∀ i, (storage i).isStatic = false) (x : Fin n) :
    c.varBlock storage x = c.home x := by
  have hnone : ((List.finRange k).find? fun i =>
      (storage i).isStatic && c.suspended i == some x) = none := by
    rw [List.find?_eq_none]
    intro i _
    simp [h i]
  rw [varBlock, hnone]

/-- The blocks of variables are not written when the body starts. -/
theorem entry_home (h : ∀ i, (storage i).isStatic = false) (m : Memory V) (x : Fin n) :
    c.entry storage m (c.home x) = m (c.home x) := by
  have hnone : ((List.finRange k).find? fun i =>
      (storage i == .own || storage i == .static) && c.paramBlock storage i == c.home x) =
        none := by
    rw [List.find?_eq_none]
    intro i _
    have hi := h i
    have hlt := c.home_lt_fresh x
    cases hs : storage i with
    | own =>
      have hne : c.fresh + i ≠ c.home x := by omega
      simp [hs, paramBlock, hne]
    | shared => simp
    | static => exact absurd hi (by simp [hs, Storage.isStatic])
    | staticPointer => simp
    | stray => simp
  rw [entry, hnone]

/-- A parameter with a block of its own starts with the argument. -/
theorem entry_own (h : ∀ i, (storage i).isStatic = false) (m : Memory V) {i : Fin k}
    (hi : storage i = .own) : c.entry storage m (c.fresh + i) = m (c.home (c.args i)) := by
  rw [entry]
  cases hfind : (List.finRange k).find? fun j =>
      (storage j == .own || storage j == .static) && c.paramBlock storage j == c.fresh + i with
  | none =>
    have hno := List.find?_eq_none.mp hfind i (List.mem_finRange i)
    simp [hi, paramBlock] at hno
  | some j =>
    have hj := List.find?_some hfind
    have hstatic := h j
    have hown : storage j = .own := by
      cases hs : storage j <;> simp [hs, Storage.isStatic] at hj hstatic ⊢
    have hji : j = i := by
      simpa [hown, paramBlock, Fin.ext_iff] using hj
    rw [hji]

/-- Where no parameter is static, the parameters start with their arguments, and the variables
keep what they hold. -/
theorem view_entry (h : ∀ i, (storage i).isStatic = false) (m : Memory V) :
    Behaviour.view (c.env storage) (c.entry storage m) =
      Sum.elim (fun i => m (c.home (c.args i))) fun x => m (c.home x) := by
  funext y
  cases y with
  | inr x => simp only [Behaviour.view, env, c.varBlock_of_not_static storage h, Sum.elim_inr,
      c.entry_home storage h]
  | inl i =>
    simp only [Behaviour.view, env, Sum.elim_inl]
    cases hi : storage i with
    | own =>
      have hblock : c.paramBlock storage i = c.fresh + i := by simp only [paramBlock, hi]
      rw [hblock, c.entry_own storage h m hi]
    | shared =>
      have hblock : c.paramBlock storage i = c.home (c.args i) := by simp only [paramBlock, hi]
      rw [hblock, c.entry_home storage h]
    | static => exact absurd (h i) (by simp [hi, Storage.isStatic])
    | staticPointer => exact absurd (h i) (by simp [hi, Storage.isStatic])
    | stray => exact absurd (h i) (by simp [hi, Storage.isStatic])

end Call

end Mx.Core

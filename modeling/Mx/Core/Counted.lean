import Mx.Core.Machine

/-!
# Counted loops

The numbers that a counted loop goes through, and a machine that goes through them: where every
round moves a counter by the same step, the rounds are exactly the ones counted and the machine
comes to the end of the loop if and only if every test of the loop finds out whether the limit is
passed.
-/

namespace Mx.Core

open List

/-! ## Counting -/

/-- A value lies beyond the limit, in the direction of the step. -/
def Passes (limit step v : Int) : Prop := if step < 0 then v < limit else limit < v

instance (limit step v : Int) : Decidable (Passes limit step v) := by
  unfold Passes
  infer_instance

/-- How many of `start`, `start + step`, … do not pass the limit. -/
def countTo (start limit step : Int) : Nat := ((limit - start).fdiv step + 1).toNat

/-- The values `start`, `start + step`, … that do not pass the limit. -/
def valuesTo (start limit step : Int) : List Int :=
  (List.range (countTo start limit step)).map fun k : Nat => start + (k : Int) * step

theorem lt_fdiv_add_one_iff {d step k : Int} (h : step ≠ 0) :
    k < d.fdiv step + 1 ↔ if step < 0 then d ≤ k * step else k * step ≤ d := by
  rw [Int.lt_add_one_iff]
  split
  next hneg =>
    have heq : d.fdiv step = (-d).fdiv (-step) := (Int.neg_fdiv_neg d step).symm
    have hpos : 0 < -step := by omega
    rw [heq, Int.fdiv_eq_ediv_of_nonneg (-d) (Int.le_of_lt hpos), Int.le_ediv_iff_mul_le hpos,
      Int.mul_neg, Int.neg_le_neg_iff]
  next hneg =>
    have hpos : 0 < step := by omega
    rw [Int.fdiv_eq_ediv_of_nonneg d (Int.le_of_lt hpos), Int.le_ediv_iff_mul_le hpos]

theorem lt_countTo_iff {start limit step : Int} (h : step ≠ 0) {k : Nat} :
    k < countTo start limit step ↔ ¬ Passes limit step (start + k * step) := by
  have hk : k < countTo start limit step ↔ (k : Int) < (limit - start).fdiv step + 1 := by
    rw [countTo]
    omega
  rw [hk, lt_fdiv_add_one_iff h, Passes]
  split
  · constructor <;> intro hle <;> omega
  · constructor <;> intro hle <;> omega

theorem countTo_eq_zero {start limit step : Int} (h : step ≠ 0) (hp : Passes limit step start) :
    countTo start limit step = 0 := by
  by_contra hne
  have hlt := (lt_countTo_iff h).mp (Nat.pos_of_ne_zero hne)
  apply hlt
  simpa using hp

theorem countTo_eq_succ {start limit step : Int} (h : step ≠ 0) (hp : ¬ Passes limit step start) :
    countTo start limit step = countTo (start + step) limit step + 1 := by
  have hshift : ∀ k : Nat, start + step + k * step = start + ((k + 1 : Nat) : Int) * step := by
    intro k
    push_cast
    ring
  have hiff : ∀ k : Nat, k < countTo start limit step ↔
      k < countTo (start + step) limit step + 1 := by
    intro k
    cases k with
    | zero =>
      rw [lt_countTo_iff h]
      simpa using hp
    | succ k => rw [Nat.add_lt_add_iff_right, lt_countTo_iff h, lt_countTo_iff h, hshift]
  have hle := (hiff (countTo (start + step) limit step)).mpr (Nat.lt_succ_self _)
  have hge : ¬ countTo (start + step) limit step + 1 < countTo start limit step := by
    rw [hiff]
    exact Nat.lt_irrefl _
  omega

theorem valuesTo_eq_nil {start limit step : Int} (h : step ≠ 0) (hp : Passes limit step start) :
    valuesTo start limit step = [] := by
  rw [valuesTo, countTo_eq_zero h hp]
  rfl

theorem valuesTo_eq_cons {start limit step : Int} (h : step ≠ 0) (hp : ¬ Passes limit step start) :
    valuesTo start limit step = start :: valuesTo (start + step) limit step := by
  rw [valuesTo, countTo_eq_succ h hp, range_succ_eq_map, map_cons, map_map, valuesTo]
  congr 1
  · simp
  · apply map_congr_left
    intro k _
    rw [Function.comp_apply]
    push_cast
    ring

example : valuesTo 1 6 2 = [1, 3, 5] ∧ valuesTo 5 1 (-2) = [5, 3, 1] ∧ valuesTo 2 1 1 = [] := by
  decide

/-! ## Visits -/

namespace Machine

variable {C E R : Type} (M : Machine C E R)

/-- The configurations satisfying `p` that a run of `n` steps starts a step in. -/
def visited (p : C → Bool) : Nat → C → List C
  | 0, _ => []
  | n + 1, c =>
    (if p c then [c] else []) ++
      match M.step c with
      | (_, .inl c') => visited p n c'
      | (_, .inr _) => []

/-- The first `n` configurations from `c` on do not satisfy `p`. -/
def Clear (p : C → Bool) (n : Nat) (c : C) : Prop :=
  ∀ m es d, m < n → M.Steps m c es d → p d = false

/-- The first configuration after `c` that satisfies `p` is `c'`. -/
def FirstReach (p : C → Bool) (c c' : C) : Prop :=
  ∃ es c₁ n es', M.step c = (es, .inl c₁) ∧ M.Steps n c₁ es' c' ∧ p c' = true ∧ M.Clear p n c₁

/-- From `c` the machine comes to its first configuration with `done`, and the counter has the
values `vs` at the visits on the way. -/
def Counts (p done : C → Bool) (counter : C → Int) (c : C) (vs : List Int) : Prop :=
  ∃ n es c', M.Steps n c es c' ∧ done c' = true ∧ M.Clear done n c ∧
    (M.visited p n c).map counter = vs

variable {M} {p q : C → Bool} {m n : Nat} {c c' c₁ : C} {es es₁ : List E}

theorem steps_succ_iff : M.Steps (n + 1) c es c' ↔
    ∃ es₁ es₂ c₁, es = es₁ ++ es₂ ∧ M.step c = (es₁, .inl c₁) ∧ M.Steps n c₁ es₂ c' := by
  constructor
  · intro h
    rw [Steps, run] at h
    split at h
    · next es₁ c₁ hstep =>
      have htail : (M.run n c₁).2 = .inl c' := congrArg Prod.snd h
      have hes : es₁ ++ (M.run n c₁).1 = es := congrArg Prod.fst h
      exact ⟨es₁, (M.run n c₁).1, c₁, hes.symm, hstep, by rw [Steps, ← htail]⟩
    · cases h
  · rintro ⟨es₁, es₂, c₁, rfl, hstep, hrest⟩
    rw [Steps, run, hstep]
    dsimp only
    rw [hrest]

/-- The steps of a run lead to one configuration. -/
theorem Steps.unique {d : C} (h : M.Steps n c es c') (h' : M.Steps n c es₁ d) : c' = d := by
  have heq := h.symm.trans h'
  simpa using (congrArg Prod.snd heq)

theorem Steps.of_le {d : C} (h : M.Steps m c es c') (h' : M.Steps n c es₁ d) (hle : m ≤ n) :
    ∃ es₂, M.Steps (n - m) c' es₂ d := by
  obtain ⟨k, rfl⟩ := Nat.exists_eq_add_of_le hle
  rw [Nat.add_sub_cancel_left]
  have hrun := run_add_of_steps h k
  have hsnd : (M.run k c').2 = .inl d := congrArg Prod.snd (hrun.symm.trans h')
  exact ⟨(M.run k c').1, by rw [Steps, ← hsnd]⟩

theorem visited_add (h : M.Steps m c es c') (n : Nat) :
    M.visited p (m + n) c = M.visited p m c ++ M.visited p n c' := by
  induction m generalizing c es with
  | zero =>
    obtain ⟨-, rfl⟩ : es = [] ∧ c = c' := by simpa [Steps, run, eq_comm] using h
    rw [Nat.zero_add]
    rfl
  | succ m ih =>
    obtain ⟨es₁, es₂, c₁, -, hstep, hrest⟩ := steps_succ_iff.mp h
    rw [Nat.succ_add, visited, visited, hstep]
    dsimp only
    rw [ih hrest, append_assoc]

theorem visited_one (c : C) : M.visited p 1 c = if p c then [c] else [] := by
  rw [visited]
  rcases M.step c with ⟨es, c' | r⟩ <;> simp [visited]

/-- A run whose configurations do not satisfy `p` has no visits. -/
theorem Clear.visited (h : M.Steps n c es c') (hclear : M.Clear p n c) :
    M.visited p n c = [] := by
  induction n generalizing c es with
  | zero => rfl
  | succ n ih =>
    obtain ⟨es₁, es₂, c₁, -, hstep, hrest⟩ := steps_succ_iff.mp h
    have hc : p c = false := hclear 0 [] c (Nat.succ_pos n) steps_zero
    have htail : M.visited p n c₁ = [] := by
      apply ih hrest
      intro m es' d hm hd
      exact hclear (m + 1) _ d (Nat.succ_lt_succ hm) (steps_succ_iff.mpr ⟨_, _, _, rfl, hstep, hd⟩)
    rw [Machine.visited, hstep, hc]
    exact htail

theorem Clear.mono (h : M.Clear p n c) (hqp : ∀ d, q d = true → p d = true) : M.Clear q n c := by
  intro m es d hm hd
  have hp := h m es d hm hd
  cases hq : q d with
  | false => rfl
  | true => exact absurd ((hqp d hq).symm.trans hp) (by decide)

theorem clear_one (h : p c = false) : M.Clear p 1 c := by
  intro m es d hm hd
  obtain rfl : m = 0 := by omega
  obtain rfl : c = d := Steps.unique steps_zero hd
  exact h

theorem Clear.add (h : M.Steps m c es c') (hm : M.Clear p m c) (hn : M.Clear p n c') :
    M.Clear p (m + n) c := by
  intro k es' d hk hd
  by_cases hlt : k < m
  · exact hm k es' d hlt hd
  · obtain ⟨es₂, hrest⟩ := h.of_le hd (by omega)
    exact hn (k - m) es₂ d (by omega) hrest

/-- On the way to the first configuration of a kind there is no other one, the start apart. -/
theorem FirstReach.steps (h : M.FirstReach p c c') :
    ∃ n es, M.Steps n c es c' ∧ ∀ q : C → Bool, (∀ d, q d = true → p d = true) →
      M.visited q n c = (if q c then [c] else []) ∧ (q c = false → M.Clear q n c) := by
  obtain ⟨es, c₁, n, es', hstep, hrest, -, hclear⟩ := h
  have hone := steps_one hstep
  refine ⟨1 + n, es ++ es', hone.trans hrest, fun q hqp => ?_⟩
  have hclear' := hclear.mono hqp
  constructor
  · rw [visited_add hone, hclear'.visited hrest, append_nil, visited_one]
  · intro hq
    exact (clear_one hq).add hone hclear'

/-- There is one first configuration. -/
theorem FirstReach.unique {d : C} (h : M.FirstReach p c c') (h' : M.FirstReach p c d) :
    c' = d := by
  obtain ⟨es, c₁, n, esn, hstep, hn, hc', hclear⟩ := h
  obtain ⟨es', c₁', m, esm, hstep', hm, hd, hclear'⟩ := h'
  obtain rfl : c₁ = c₁' := by
    have heq := hstep.symm.trans hstep'
    simpa using congrArg Prod.snd heq
  rcases Nat.lt_trichotomy n m with hlt | rfl | hlt
  · exact absurd ((hclear' n esn c' hlt hn).symm.trans hc') (by decide)
  · exact hn.unique hm
  · exact absurd ((hclear m esm d hlt hm).symm.trans hd) (by decide)

section Counts

variable {done : C → Bool} {counter : C → Int} {vs : List Int}

/-- The visits on the way to a later configuration come first. -/
theorem counts_iff_of_steps (h : M.Steps n c es c') (hclear : M.Clear done n c) :
    M.Counts p done counter c vs ↔
      ∃ rest, vs = (M.visited p n c).map counter ++ rest ∧ M.Counts p done counter c' rest := by
  constructor
  · rintro ⟨k, es', d, hk, hd, hkclear, rfl⟩
    have hle : n ≤ k := by
      by_contra hlt
      exact absurd ((hclear k es' d (by omega) hk).symm.trans hd) (by decide)
    obtain ⟨es₂, hrest⟩ := h.of_le hk hle
    obtain ⟨j, rfl⟩ := Nat.exists_eq_add_of_le hle
    rw [Nat.add_sub_cancel_left] at hrest
    refine ⟨(M.visited p j c').map counter, ?_, j, es₂, d, hrest, hd, ?_, rfl⟩
    · rw [visited_add h, map_append]
    · intro m es₃ e hm he
      exact hkclear (n + m) _ e (by omega) (h.trans he)
  · rintro ⟨rest, rfl, j, es', d, hj, hd, hjclear, rfl⟩
    refine ⟨n + j, es ++ es', d, h.trans hj, hd, hclear.add h hjclear, ?_⟩
    rw [visited_add h, map_append]

/-- Steps without visits change nothing. -/
theorem counts_iff_of_silent (h : M.Steps n c es c') (hclear : M.Clear done n c)
    (hnone : M.visited p n c = []) :
    M.Counts p done counter c vs ↔ M.Counts p done counter c' vs := by
  rw [counts_iff_of_steps h hclear, hnone]
  simp

theorem counts_done (h : done c = true) : M.Counts p done counter c vs ↔ vs = [] := by
  constructor
  · rintro ⟨n, es, d, hn, hd, hclear, rfl⟩
    cases n with
    | zero => rfl
    | succ n => exact absurd ((hclear 0 [] c (Nat.succ_pos n) steps_zero).symm.trans h) (by decide)
  · rintro rfl
    refine ⟨0, [], c, steps_zero, h, ?_, rfl⟩
    intro m _ _ hm
    exact absurd hm (Nat.not_lt_zero m)

end Counts

/-! ## Rounds -/

/-- A loop on a counter. From a header the test decides whether another round is made: it visits
the counter's value, and if the limit is not passed it leads to the next header and a counter that
has moved by a step. Without another round the loop is done. -/
structure CountedLoop (M : Machine C E R) (p done : C → Bool) (counter : C → Int)
    (limit step : Int) (header test : C → Prop) (next : C → C → Prop) : Prop where
  step_ne : step ≠ 0
  visit : ∀ c, header c → test c → ∃ n es c' v, M.Steps n c es c' ∧ M.Clear done n c ∧
    M.visited p n c = [v]
  round : ∀ c, header c → test c → ¬ Passes limit step (counter c) →
    ∃ n es c', M.Steps n c es c' ∧ M.Clear done n c ∧
      (M.visited p n c).map counter = [counter c] ∧ next c c' ∧ header c' ∧
        counter c' = counter c + step
  leave : ∀ c, header c → ¬ test c → ∃ n es c', M.Steps n c es c' ∧ M.Clear done n c ∧
    M.visited p n c = [] ∧ done c' = true
  next_test : ∀ c c', header c → next c c' → test c
  next_unique : ∀ c c' d, next c c' → next c d → c' = d

namespace CountedLoop

variable {done : C → Bool} {counter : C → Int} {limit step : Int} {header test : C → Prop}
  {next : C → C → Prop}

/-- If the rounds are the counted ones, the test at the header is right. -/
theorem test_iff (h : M.CountedLoop p done counter limit step header test next) (hc : header c)
    (hcounts : M.Counts p done counter c (valuesTo (counter c) limit step)) :
    test c ↔ ¬ Passes limit step (counter c) := by
  constructor
  · intro ht hp
    obtain ⟨n, es, c', v, hsteps, hclear, hvisit⟩ := h.visit c hc ht
    obtain ⟨rest, heq, -⟩ := (counts_iff_of_steps hsteps hclear).mp hcounts
    rw [valuesTo_eq_nil h.step_ne hp, hvisit] at heq
    exact nomatch heq
  · intro hp
    by_contra ht
    obtain ⟨n, es, c', hsteps, hclear, hnone, hdone⟩ := h.leave c hc ht
    have hnil := (counts_done hdone).mp ((counts_iff_of_silent hsteps hclear hnone).mp hcounts)
    rw [valuesTo_eq_cons h.step_ne hp] at hnil
    exact nomatch hnil

/-- A round goes on to the next header with the values that are left. -/
theorem counts_next (h : M.CountedLoop p done counter limit step header test next)
    (hc : header c) (ht : test c) (hp : ¬ Passes limit step (counter c)) :
    ∃ c', next c c' ∧ header c' ∧ counter c' = counter c + step ∧
      (M.Counts p done counter c (valuesTo (counter c) limit step) ↔
        M.Counts p done counter c' (valuesTo (counter c') limit step)) := by
  obtain ⟨n, es, c', hsteps, hclear, hvisit, hnext, hheader, hcounter⟩ := h.round c hc ht hp
  refine ⟨c', hnext, hheader, hcounter, ?_⟩
  rw [counts_iff_of_steps hsteps hclear, hvisit, hcounter, valuesTo_eq_cons h.step_ne hp]
  simp

/-- The rounds are the counted ones, and the machine comes to the end of the loop, if and only if
the test is right at every header on the way. -/
theorem counts_iff (h : M.CountedLoop p done counter limit step header test next) (hc : header c) :
    M.Counts p done counter c (valuesTo (counter c) limit step) ↔
      ∀ d, Relation.ReflTransGen next c d → header d →
        (test d ↔ ¬ Passes limit step (counter d)) := by
  constructor
  · intro hcounts d hd
    induction hd using Relation.ReflTransGen.head_induction_on with
    | refl => exact fun _ => h.test_iff hc hcounts
    | @head c c₁ hnext _ ih =>
      have ht := h.next_test c c₁ hc hnext
      have hp := (h.test_iff hc hcounts).mp ht
      obtain ⟨c', hnext', hheader, -, hiff⟩ := h.counts_next hc ht hp
      obtain rfl := h.next_unique c c₁ c' hnext hnext'
      exact ih hheader (hiff.mp hcounts)
  · intro hright
    -- on the number of rounds that are left
    induction hk : countTo (counter c) limit step generalizing c with
    | zero =>
      have hp : Passes limit step (counter c) := by
        by_contra hnot
        have hlt := (lt_countTo_iff (k := 0) h.step_ne).mpr (by simpa using hnot)
        omega
      have ht : ¬ test c := fun ht => (hright c .refl hc).mp ht hp
      obtain ⟨n, es, c', hsteps, hclear, hnone, hdone⟩ := h.leave c hc ht
      rw [counts_iff_of_silent hsteps hclear hnone, counts_done hdone, valuesTo_eq_nil h.step_ne hp]
    | succ k ih =>
      have hp : ¬ Passes limit step (counter c) := by
        intro hp
        rw [countTo_eq_zero h.step_ne hp] at hk
        exact nomatch hk
      obtain ⟨c', hnext, hheader, hcounter, hiff⟩ :=
        h.counts_next hc ((hright c .refl hc).mpr hp) hp
      apply hiff.mpr
      apply ih hheader
      · exact fun d hd => hright d (.head hnext hd)
      · rw [countTo_eq_succ h.step_ne hp] at hk
        rw [hcounter]
        omega

/-- While the test is right, the loop goes from header to header. -/
theorem header_of_reach (h : M.CountedLoop p done counter limit step header test next)
    (hc : header c)
    (hright : ∀ d, Relation.ReflTransGen next c d → header d →
      (test d ↔ ¬ Passes limit step (counter d))) {d : C} (hd : Relation.ReflTransGen next c d) :
    header d := by
  induction hd with
  | refl => exact hc
  | @tail c₁ c₂ hreach hnext ih =>
    have ht := h.next_test c₁ c₂ ih hnext
    obtain ⟨c', hnext', hheader, -, -⟩ := h.counts_next ih ht ((hright c₁ hreach ih).mp ht)
    obtain rfl := h.next_unique c₁ c₂ c' hnext hnext'
    exact hheader

end CountedLoop

end Machine

end Mx.Core

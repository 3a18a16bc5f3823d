import Mx.Futures.Order

/-!
# A full queue

A promise whose continuations do not all fit the queue is settled all the same. Those that are left
stay attached to it: to settle it again does not reach them, so they are never executed.
-/

namespace Mx.Futures

open List

/-! ## Pumping until the queue is empty -/

/-- The scheduler is pumped until its queue is empty and all callbacks have returned, whatever they
return, and executes these continuations. -/
inductive Pumped : State → List Nat → State → Prop
  | empty {s} : s.queue = [] → s.running = [] → Pumped s [] s
  | pump {s c queue cs s'} : s.queue = c :: queue → Pumped s.pump cs s' → Pumped s (c :: cs) s'
  | finish {s outRes cs s'} : s.running ≠ [] → Pumped (s.finish outRes) cs s' → Pumped s cs s'

/-- Settling is repeated until it does not return `OutOfMemory`. -/
inductive Retried (p : Nat) (res : Result) : State → State → Prop
  | last {s} : (s.settleWith p res).2 ≠ .outOfMemory → Retried p res s (s.settleWith p res).1
  | again {s s'} : (s.settleWith p res).2 = .outOfMemory →
      Retried p res (s.settleWith p res).1 s' → Retried p res s s'

namespace State

/-- If settling returns `OutOfMemory`, pumping, repeating it and pumping again executes all
continuations once. -/
def LosesNone (s : State) (p : Nat) (res : Result) : Prop :=
  (s.settleWith p res).2 = .outOfMemory → ∀ cs₁ s₁ s₂ cs₂ s₃,
    Pumped (s.settleWith p res).1 cs₁ s₁ → Retried p res s₁ s₂ → Pumped s₂ cs₂ s₃ →
      ∀ c ∈ (s.sh p).conts, (cs₁ ++ cs₂).count c = 1

/-- A shared state is settled, or its continuations fit the queue. -/
def Takes (s : State) (p : Nat) : Prop :=
  (s.sh p).fate ≠ .pending ∨ (s.sh p).conts.length ≤ s.cap - s.queue.length

/-- Only the pool has continuations, and each one is attached once and not queued. -/
structure Apart (s : State) : Prop where
  pool : ∀ q, poolSh ≤ q → (s.sh q).conts = []
  nodup : ∀ q, (s.sh q).conts.Nodup
  once : ∀ q, ∀ c ∈ (s.sh q).conts, c ∉ s.queue ∧ ∀ q', c ∈ (s.sh q').conts → q' = q

/-- How many continuations are queued or attached. -/
def load (s : State) : Nat := s.queue.length + ∑ q ∈ Finset.range poolSh, (s.sh q).conts.length

/-- Continuations of shared states that are settled now are queued, and no others. -/
structure Moves (s s' : State) : Prop where
  stays : ∀ q, (s.sh q).fate ≠ .pending → (s.sh q).conts ≠ [] →
    (s'.sh q).fate ≠ .pending ∧ (s'.sh q).conts = (s.sh q).conts
  sub : ∀ q, (s'.sh q).conts ⊆ (s.sh q).conts
  queue : ∃ taken, s'.queue = s.queue ++ taken ∧
    ∀ c ∈ taken, ∃ q, (s.sh q).fate = .pending ∧ c ∈ (s.sh q).conts
  load : (∀ q, poolSh ≤ q → (s.sh q).conts = []) → s'.load ≤ s.load

/-- A continuation is attached to a shared state that is settled, and to no other. -/
structure Stuck (s : State) (p c : Nat) : Prop where
  fate : (s.sh p).fate ≠ .pending
  mem : c ∈ (s.sh p).conts
  queue : c ∉ s.queue
  once : ∀ q, c ∈ (s.sh q).conts → q = p

end State

section Moves

variable {s s' : State} {p c : Nat}

theorem State.Inv.apart (hi : s.Inv []) : s.Apart where
  pool q hq := eq_nil_iff_forall_not_mem.mpr fun c hc => by
    obtain ⟨hlive, -, hin⟩ := hi.attached q c hc
    have hlt := ((hi.ends c hlive).2 q (.inl hin.symm)).1
    omega
  nodup := hi.contsNodup
  once q c hc := by
    obtain ⟨-, hqueue, hin⟩ := hi.attached q c hc
    exact ⟨fun hmem => hqueue (mem_append_left _ hmem),
      fun q' hc' => (hi.attached q' c hc').2.2.symm.trans hin⟩

theorem State.Moves.refl (s : State) : s.Moves s :=
  ⟨fun _ hfate _ => ⟨hfate, rfl⟩, fun _ => List.Subset.refl _,
    ⟨[], (append_nil _).symm, fun _ hc => absurd hc not_mem_nil⟩, fun _ => le_rfl⟩

theorem State.Moves.trans {s'' : State} (h : s.Moves s') (h' : s'.Moves s'') : s.Moves s'' where
  stays q hfate hconts := by
    obtain ⟨hfate', hconts'⟩ := h.stays q hfate hconts
    rw [← hconts'] at hconts ⊢
    exact h'.stays q hfate' hconts
  sub q := List.Subset.trans (h'.sub q) (h.sub q)
  queue := by
    obtain ⟨taken, hqueue, htaken⟩ := h.queue
    obtain ⟨taken', hqueue', htaken'⟩ := h'.queue
    refine ⟨taken ++ taken', by rw [hqueue', hqueue, append_assoc], fun c hc => ?_⟩
    rcases mem_append.mp hc with hc | hc
    · exact htaken c hc
    · obtain ⟨q, hfate, hmem⟩ := htaken' c hc
      have hmem' := h.sub q hmem
      refine ⟨q, Decidable.byContradiction fun hne => ?_, hmem'⟩
      exact (h.stays q hne (ne_nil_of_mem hmem')).1 hfate
  load hpool := by
    refine (h'.load fun q hq => ?_).trans (h.load hpool)
    exact subset_nil.mp (hpool q hq ▸ h.sub q)

/-- Nothing is queued, and the fate changes only where nothing is attached. -/
theorem State.Moves.of_same (hqueue : s'.queue = s.queue)
    (hconts : ∀ q, (s'.sh q).conts = (s.sh q).conts)
    (hfate : ∀ q, (s'.sh q).fate = (s.sh q).fate ∨ (s.sh q).conts = []) : s.Moves s' where
  stays q hset hne := ⟨(hfate q).resolve_right hne ▸ hset, hconts q⟩
  sub q := hconts q ▸ List.Subset.refl _
  queue := ⟨[], by rw [hqueue, append_nil], fun _ hc => absurd hc not_mem_nil⟩
  load _ := by simp only [State.load, hqueue, hconts, le_refl]

theorem State.Moves.modSh {f : Shared → Shared} (hconts : (f (s.sh p)).conts = (s.sh p).conts)
    (hfate : (f (s.sh p)).fate = (s.sh p).fate) : s.Moves (s.modSh p f) :=
  .of_same rfl (modSh_keeps Shared.conts hconts) fun q => .inl (modSh_keeps Shared.fate hfate q)

theorem State.Moves.settleWith (s : State) (p : Nat) (res : Result) :
    s.Moves (s.settleWith p res).1 := by
  rw [State.settleWith]
  split
  · exact .refl s
  rename_i hpending
  have hpending := not_not.mp hpending
  obtain ⟨taken, rest, hconts, heq⟩ :=
    drainConts_eq (s.modSh p fun x => { x with fate := res.fate, res := res }) p
  rw [modSh_sh_self] at hconts
  rw [heq]
  simp only [State.modSh, Function.update_self, Function.update_idem]
  have hself : (Function.update s.sh p
      { s.sh p with fate := res.fate, res := res, conts := rest } p).conts = rest := by
    rw [Function.update_self]
  have hother : ∀ q, q ≠ p → Function.update s.sh p
      { s.sh p with fate := res.fate, res := res, conts := rest } q = s.sh q :=
    fun q hq => Function.update_of_ne hq _ _
  refine ⟨fun q hset _ => ?_, fun q => ?_,
    ⟨taken, rfl, fun c hc => ⟨p, hpending, hconts ▸ mem_append_left _ hc⟩⟩, fun hpool => ?_⟩
  · have hq : q ≠ p := by
      rintro rfl
      exact hset hpending
    simp only [hother q hq]
    exact ⟨hset, trivial⟩
  · by_cases hq : q = p
    · simp only [hq, hself]
      exact hconts ▸ subset_append_right _ _
    · simp only [hother q hq]
      exact List.Subset.refl _
  · by_cases hp : p < poolSh
    · have hmem := Finset.mem_range.mpr hp
      simp only [State.load, length_append]
      rw [← Finset.add_sum_erase _ _ hmem, ← Finset.add_sum_erase _ _ hmem, hself, hconts,
        length_append, Finset.sum_congr rfl fun q hq => by
          rw [hother q (Finset.ne_of_mem_erase hq)]]
      omega
    · have hnil := hpool p (Nat.le_of_not_lt hp)
      rw [hconts] at hnil
      obtain ⟨rfl, rfl⟩ := append_eq_nil_iff.mp hnil
      simp only [State.load, append_nil]
      refine Nat.add_le_add_left (Finset.sum_le_sum fun q hq => ?_) _
      rw [hother q fun heq => hp (heq ▸ Finset.mem_range.mp hq)]

theorem State.Moves.settleOut (s : State) (r : Running) (outRes : Result) :
    s.Moves (s.settleOut r outRes) := by
  obtain ⟨comb, heq⟩ := settleOut_cases s r outRes
  have hset : s.Moves (s.modSh r.output fun x => { x with comb := comb }) := .modSh rfl rfl
  obtain heq | ⟨res, heq⟩ := heq
  · rw [heq]
    exact hset
  · rw [heq]
    exact hset.trans (.settleWith _ _ _)

theorem State.Moves.tryReclaim (s : State) (p : Nat) : s.Moves (s.tryReclaim p) := by
  rw [State.tryReclaim]
  split
  · exact .refl s
  split
  · exact .refl s
  · rename_i hconts
    have hnil := not_not.mp hconts
    let f (x : Shared) : Shared :=
      { x with fate := .pending, conts := [], refCount := 0, comb := .none }
    refine .of_same rfl (modSh_keeps (f := f) Shared.conts hnil.symm) fun q => ?_
    by_cases hq : q = p
    · exact .inr (hq ▸ hnil)
    · exact .inl (congrArg Shared.fate (modSh_sh_of_ne hq f))

theorem State.Moves.finish (s : State) (outRes : Result) : s.Moves (s.finish outRes) := by
  rw [State.finish]
  split
  · exact .refl s
  rename_i r rs _
  have hrelease : ∀ t : State, t.Moves (t.release r.output) := by
    intro t
    rw [State.release]
    split
    · exact .refl t
    · exact (State.Moves.modSh rfl rfl).trans (.tryReclaim _ _)
  have hfree : s.Moves ((s.settleOut r outRes).freeCont r.cont) :=
    (State.Moves.settleOut s r outRes).trans (.of_same rfl (fun _ => rfl) fun _ => .inl rfl)
  have hclean : s.Moves ((s.settleOut r outRes).cleanup r) :=
    hfree.trans ((hrelease _).trans (.tryReclaim _ _))
  exact hclean.trans (.of_same rfl (fun _ => rfl) fun _ => .inl rfl)

/-- A step of the scheduler moves continuations behind the one that it takes. -/
theorem State.Moves.pump {queue : List Nat} (h : s.queue = c :: queue) :
    { s with queue := queue }.Moves s.pump := by
  rw [State.pump, h]
  simp only [State.executeCont]
  have hstart (running : List Running) :
      { s with queue := queue }.Moves { s with queue := queue, running := running } :=
    .of_same rfl (fun _ => rfl) fun _ => .inl rfl
  split
  · exact hstart _
  · exact (hstart _).trans (.finish _ _)

end Moves

section Run

variable {s s' : State} {p c : Nat} {res : Result}

/-- Whatever is pumped and returned by callbacks, the queue can be pumped empty. -/
theorem exists_pumped (hpool : ∀ q, poolSh ≤ q → (s.sh q).conts = []) :
    ∃ cs s', Pumped s cs s' := by
  induction hn : 2 * s.load + s.running.length using Nat.strong_induction_on generalizing s with
  | _ n ih =>
  have hnext {t t' : State} (hmoves : t.Moves t') (hpool : ∀ q, poolSh ≤ q → (t.sh q).conts = []) :
      ∀ q, poolSh ≤ q → (t'.sh q).conts = [] :=
    fun q hq => subset_nil.mp (hpool q hq ▸ hmoves.sub q)
  by_cases hrunning : s.running = []
  · cases hqueue : s.queue with
    | nil => exact ⟨[], s, .empty hqueue hrunning⟩
    | cons c queue =>
      have hmoves := State.Moves.pump hqueue
      have hload := hmoves.load hpool
      have hlen : s.pump.running.length ≤ 1 := by
        rw [State.pump, hqueue]
        simp only [State.executeCont]
        split
        · simp [hrunning]
        · simp [State.finish, hrunning]
      have hless : { s with queue := queue }.load + 1 = s.load := by
        simp only [State.load, hqueue, length_cons]
        omega
      obtain ⟨cs, s', hpumped⟩ := ih _ (by omega) (hnext hmoves hpool) rfl
      exact ⟨c :: cs, s', .pump hqueue hpumped⟩
  · have hmoves := State.Moves.finish s initResult
    have hload := hmoves.load hpool
    have hlen : (s.finish initResult).running.length < s.running.length := by
      rw [State.finish]
      split
      · contradiction
      · rename_i hcons
        rw [hcons]
        exact Nat.lt_succ_self _
    obtain ⟨cs, s', hpumped⟩ := ih _ (by omega) (hnext hmoves hpool) rfl
    exact ⟨cs, s', .finish hrunning hpumped⟩

theorem Pumped.ends {cs : List Nat} (h : Pumped s cs s') : s'.queue = [] ∧ s'.running = [] := by
  induction h with
  | empty hqueue hrunning => exact ⟨hqueue, hrunning⟩
  | pump _ _ ih => exact ih
  | finish _ _ ih => exact ih

theorem State.Stuck.moves (h : s.Stuck p c) (hmoves : s.Moves s') : s'.Stuck p c := by
  obtain ⟨hfate, hconts⟩ := hmoves.stays p h.fate (ne_nil_of_mem h.mem)
  refine ⟨hfate, hconts ▸ h.mem, fun hc => ?_, fun q hc => h.once q (hmoves.sub q hc)⟩
  obtain ⟨taken, hqueue, htaken⟩ := hmoves.queue
  rw [hqueue, mem_append] at hc
  obtain ⟨q, hpending, hmem⟩ := htaken c (hc.resolve_left h.queue)
  rw [h.once q hmem] at hpending
  exact h.fate hpending

/-- A continuation that is stuck is not executed, however long the scheduler is pumped. -/
theorem State.Stuck.pumped {cs : List Nat} (hrun : Pumped s cs s') (h : s.Stuck p c) :
    c ∉ cs ∧ s'.Stuck p c := by
  induction hrun with
  | empty => exact ⟨not_mem_nil, h⟩
  | @pump s _ queue _ _ hqueue _ ih =>
    have hout := h.queue
    rw [hqueue, mem_cons, not_or] at hout
    have hrest : { s with queue := queue }.Stuck p c := ⟨h.fate, h.mem, hout.2, h.once⟩
    obtain ⟨hnot, hstuck⟩ := ih (hrest.moves (.pump hqueue))
    exact ⟨fun hmem => (mem_cons.mp hmem).elim hout.1 hnot, hstuck⟩
  | finish _ _ ih => exact ih (h.moves (.finish _ _))

theorem settleWith_eq_outOfMemory : (s.settleWith p res).2 = .outOfMemory ↔ ¬ s.Takes p := by
  rw [State.settleWith, State.Takes]
  split
  · rename_i hset
    simp [hset]
  · rename_i hpending
    have hall := enqueueAll_snd_eq_nil (s.sh p).conts
      ((s.modSh p fun x => { x with fate := res.fate, res := res }).modSh p
        fun x => { x with conts := [] })
    rw [State.drainConts, modSh_sh_self, or_iff_right hpending]
    refine Iff.trans ?_ (not_congr hall)
    simp only
    split
    · rename_i hnil
      exact iff_of_false (by simp) (not_not.mpr hnil)
    · rename_i hleft
      exact iff_of_true rfl hleft

/-- Without room, a continuation is stuck. -/
theorem exists_stuck (res : Result) (hs : s.Apart) (h : ¬ s.Takes p) :
    ∃ c ∈ (s.sh p).conts, (s.settleWith p res).1.Stuck p c := by
  rw [State.Takes, not_or, not_not] at h
  obtain ⟨taken, rest, hconts, heq⟩ := enqueueAll_eq (s.sh p).conts
    ((s.modSh p fun x => { x with fate := res.fate, res := res }).modSh p
      fun x => { x with conts := [] })
  have hrest : rest ≠ [] := by
    rintro rfl
    have hfits := (enqueueAll_snd_eq_nil _ _).mp (congrArg Prod.snd heq)
    exact h.2 hfits
  have hsettle : (s.settleWith p res).1 =
      { s.modSh p fun x => { x with fate := res.fate, res := res, conts := rest } with
        queue := s.queue ++ taken } := by
    rw [State.settleWith, if_neg (not_not.mpr h.1), State.drainConts, modSh_sh_self, heq]
    simp only [hrest, ↓reduceIte, State.modSh, Function.update_self, Function.update_idem]
  obtain ⟨c, tail, rfl⟩ := exists_cons_of_ne_nil hrest
  have hc : c ∈ (s.sh p).conts := hconts ▸ mem_append_right _ mem_cons_self
  obtain ⟨hqueue, honly⟩ := hs.once p c hc
  refine ⟨c, hc, ?_⟩
  rw [hsettle]
  constructor
  · simp only [modSh_sh_self]
    exact fate_ne_pending res
  · simp only [modSh_sh_self]
    exact mem_cons_self
  · intro hmem
    have hnodup := hs.nodup p
    rw [hconts] at hnodup
    exact (mem_append.mp hmem).elim hqueue fun htaken =>
      (nodup_append.mp hnodup).2.2 c htaken c mem_cons_self rfl
  · intro q hmem
    by_cases hq : q = p
    · exact hq
    · simp only [modSh_sh_of_ne hq] at hmem
      exact honly q hmem

theorem State.Apart.not_losesNone (hs : s.Apart) (h : ¬ s.Takes p) : ¬ s.LosesNone p res := by
  intro hnone
  obtain ⟨c, hc, hstuck⟩ := exists_stuck res hs h
  have hpool : ∀ q, poolSh ≤ q → ((s.settleWith p res).1.sh q).conts = [] :=
    fun q hq => subset_nil.mp (hs.pool q hq ▸ (State.Moves.settleWith s p res).sub q)
  obtain ⟨cs, s', hrun⟩ := exists_pumped hpool
  obtain ⟨hnot, hstuck'⟩ := hstuck.pumped hrun
  have hagain : s'.settleWith p res = (s', .alreadySettled) := if_pos hstuck'.fate
  have hretry : Retried p res s' (s'.settleWith p res).1 := .last (by rw [hagain]; exact nofun)
  rw [hagain] at hretry
  have hcount := hnone (settleWith_eq_outOfMemory.mpr h) cs s' s' [] s' hrun hretry
    (.empty hrun.ends.1 hrun.ends.2) c hc
  rw [append_nil, count_eq_zero.mpr hnot] at hcount
  cases hcount

/-- Settling a promise loses no continuation exactly if it was settled before, or the queue has
room for all its continuations. -/
theorem losesNone_iff (hs : s.Apart) : s.LosesNone p res ↔ s.Takes p := by
  constructor
  · intro hnone
    exact by_contra fun h => hs.not_losesNone h hnone
  · intro htakes hfull
    exact absurd htakes (settleWith_eq_outOfMemory.mp hfull)

/-- Two continuations of one promise, and a queue for one. -/
theorem exists_not_takes :
    ∃ s, Reached State.Ok 1 s ∧ 255 ∈ s.handles ∧ ¬ s.Takes 255 := by
  have hrun : ((State.init 1).runIf (fun s op => decide (s.Ok op))
      [.promiseCreate, .map 255 none, .map 255 none]).map (fun s => (s.handles, (s.sh 255).fate,
        (s.sh 255).conts.length, s.cap - s.queue.length)) =
      some ([253, 254, 255], .pending, 2, 1) := by
    decide +kernel
  obtain ⟨s, hs, hfields⟩ := Option.map_eq_some_iff.mp hrun
  simp only [Prod.mk.injEq] at hfields
  obtain ⟨hhandles, hfate, hconts, hroom⟩ := hfields
  refine ⟨s, reached_runIf (fun _ _ => of_decide_eq_true) _ (.start rfl) hs, ?_, ?_⟩
  · rw [hhandles]
    decide
  · rw [State.Takes, hfate, hconts, hroom]
    decide

theorem losesNone_iff_two : ∃ s : State, 255 ∈ s.handles ∧ ¬ s.Takes 255 ∧
    (s.LosesNone 255 (.value ⟨1, .nil⟩) ↔ s.Takes 255) := by
  obtain ⟨s, hs, hmem, hfull⟩ := exists_not_takes
  exact ⟨s, hmem, hfull, losesNone_iff (inv_of_reached hs).apart⟩

/-- A promise with two continuations is resolved, with a queue for one. -/
theorem not_losesNone_full : ¬ ∀ cap s, Reached State.Ok cap s → ∀ p ∈ s.handles, ∀ res,
    s.LosesNone p res := by
  intro hall
  obtain ⟨s, hs, hmem, hfull⟩ := exists_not_takes
  exact (inv_of_reached hs).apart.not_losesNone hfull (hall 1 s hs 255 hmem (.value ⟨1, .nil⟩))

end Run

example : (State.init 8).queue = [] := by decide +kernel

end Mx.Futures

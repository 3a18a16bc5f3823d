import Mx.Futures.Pools

/-!
# Chaining calls that fail

What a call leaves behind when a slot for its output or for a continuation is missing. `All` and
`Race` free the continuations that they got in a loop, the bound of which wraps around when there
are none.
-/

namespace Mx.Futures

open Function List

/-! ## Calls -/

/-- The calls that chain a future to others. -/
inductive Chaining where
  | map (f : Nat) (fn : Option Nat)
  | onReject (f : Nat) (fn : Option Nat)
  | onSettle (f : Nat) (fn : Option Nat)
  | all (fs : List Nat)
  | race (fs : List Nat)
  deriving DecidableEq, Repr

/-- The number of continuations that a call allocates. -/
def Chaining.needs : Chaining → Nat
  | .map _ _ | .onReject _ _ | .onSettle _ _ => 1
  | .all fs | .race fs => fs.length

/-- The call is `All` or `Race`. -/
def Chaining.combines : Chaining → Bool
  | .map _ _ | .onReject _ _ | .onSettle _ _ => false
  | .all _ | .race _ => true

namespace State

/-- The call is made. -/
def call (s : State) : Chaining → State × Status × Option Nat
  | .map f fn => s.map f fn
  | .onReject f fn => s.onReject f fn
  | .onSettle f fn => s.onSettle f fn
  | .all fs => s.all fs
  | .race fs => s.race fs

/-- A slot that the call needs cannot be allocated. -/
def LacksSlot (s : State) (c : Chaining) : Prop :=
  s.shFree = [] ∨ s.cnFree.length < c.needs

/-- The same slots are free, each of them as often as before, every future has its continuations,
and no pointer was followed that was never set. -/
structure SameSlots (s s' : State) : Prop where
  shFree : s'.shFree.Perm s.shFree
  cnFree : s'.cnFree.Perm s.cnFree
  conts : ∀ p, p ∉ s.shFree → (s'.sh p).conts = (s.sh p).conts
  notBroken : s'.broken = false

/-- If the call fails for want of a slot, it gives no handle and leaves the pools as they were. -/
def FailsCleanly (s : State) (c : Chaining) : Prop :=
  (s.call c).2.1 = .outOfMemory → s.LacksSlot c →
    (s.call c).2.2 = none ∧ s.SameSlots (s.call c).1

end State

/-! ## What is undone -/

section Undone

variable {s s' t : State} {out : Nat}

theorem promiseCreate_eq_none : s.promiseCreate = none ↔ s.shFree = [] := by
  rw [State.promiseCreate, Option.map_eq_none_iff, State.allocShared]
  cases s.shFree with
  | nil => exact ⟨fun _ => rfl, fun _ => rfl⟩
  | cons p free => exact iff_of_false (by simp) (List.cons_ne_nil _ _)

/-- What is created is a free slot with one reference. -/
theorem of_promiseCreate (h : s.promiseCreate = some (out, s')) :
    ∃ free x, s.shFree = out :: free ∧ x.conts = [] ∧ x.refCount = 1 ∧
      s' = { s with sh := update s.sh out x, shFree := free,
                    handles := out :: s.handles } := by
  rw [State.promiseCreate, State.allocShared] at h
  cases hfree : s.shFree with
  | nil =>
    rw [hfree] at h
    cases h
  | cons p free =>
    rw [hfree] at h
    obtain ⟨rfl, rfl⟩ := Prod.mk.inj (Option.some.inj h)
    exact ⟨free, _, rfl, rfl, rfl, rfl⟩

/-- Without another reference and without continuations, its release frees the slot. -/
theorem releaseHandle_unused (out : Nat) (hconts : (t.sh out).conts = [])
    (hcount : (t.sh out).refCount = 1) :
    ∃ x, t.releaseHandle out = { t with sh := update t.sh out x,
                                        shFree := out :: t.shFree,
                                        handles := t.handles.erase out } := by
  obtain ⟨hkeeps, hzero⟩ := decRef_fields t out out
  rw [hconts] at hkeeps
  rw [hcount, if_pos rfl] at hzero
  rw [State.releaseHandle, release_eq (by omega), State.tryReclaim, if_neg (by omega),
    if_neg (not_not.mpr hkeeps), State.freeShared, State.decRef]
  simp only [State.modSh, update_idem]
  exact ⟨_, rfl⟩

theorem freeConts_eq (cs : List Nat) :
    ∀ s : State, s.freeConts cs = { s with cnFree := cs.reverse ++ s.cnFree } := by
  induction cs with
  | nil => exact fun _ => rfl
  | cons c cs ih =>
    intro s
    rw [State.freeConts, ih, State.freeCont, reverse_cons, append_assoc]
    rfl

/-- The loop that allocates stops with all slots there are. -/
theorem allocConts_short (n : Nat) : ∀ {s : State}, s.cnFree.length < n →
    s.allocConts n = ({ s with cnFree := [] }, s.cnFree, false) := by
  induction n with
  | zero => exact fun h => absurd h (Nat.not_lt_zero _)
  | succ n ih =>
    intro s h
    rw [State.allocConts, State.allocCont]
    cases hfree : s.cnFree with
    | nil =>
      have hsame : { s with cnFree := [] } = s := by rw [← hfree]
      rw [hsame]
    | cons c free =>
      rw [hfree, length_cons] at h
      simp only
      rw [ih (s := { s with cnFree := free }) (Nat.lt_of_succ_lt_succ h)]

/-- A chaining call that lacks its continuation. -/
theorem chain_lacking (kind : ContKind) (f : Nat) (fn : Option Nat) (hout : s.shFree ≠ [])
    (hcn : s.cnFree = []) :
    ∃ out x, out ∈ s.shFree ∧ s.chain kind f fn =
      ({ s with sh := update s.sh out x }, .outOfMemory, none) := by
  cases hcreate : s.promiseCreate with
  | none => exact absurd (promiseCreate_eq_none.mp hcreate) hout
  | some r =>
    obtain ⟨out, s₁⟩ := r
    obtain ⟨free, x, hfree, hconts, hcount, rfl⟩ := of_promiseCreate hcreate
    rw [State.chain, hcreate]
    simp only [State.allocCont, hcn]
    obtain ⟨y, hy⟩ := releaseHandle_unused out
      (t := { s with sh := update s.sh out x, shFree := free, cnFree := [],
                     handles := out :: s.handles })
      (by simpa using hconts) (by simpa using hcount)
    refine ⟨out, y, by rw [hfree]; exact mem_cons_self, ?_⟩
    rw [hy, ← hfree]
    simp only [update_idem, erase_cons_head]

/-- A combining call that lacks a continuation: it frees those it got in the opposite order. -/
theorem combine_lacking (kind : ContKind) (comb : Comb) (fs : List Nat)
    (hsize : ¬ (fs.length = 0 ∨ fs.length > maxAllSize)) (hout : s.shFree ≠ [])
    (hcn : s.cnFree.length < fs.length) :
    ∃ out x, out ∈ s.shFree ∧ s.combine kind comb fs =
      ({ s with sh := update s.sh out x, cnFree := s.cnFree.reverse,
                broken := s.broken || s.cnFree.isEmpty }, .outOfMemory, none) := by
  cases hcreate : s.promiseCreate with
  | none => exact absurd (promiseCreate_eq_none.mp hcreate) hout
  | some r =>
    obtain ⟨out, s₁⟩ := r
    obtain ⟨free, x, hfree, hconts, hcount, rfl⟩ := of_promiseCreate hcreate
    rw [State.combine, if_neg hsize, hcreate]
    simp only [State.modSh, update_self, update_idem]
    have halloc := allocConts_short fs.length
      (s := { s with sh := update s.sh out { x with comb := comb }, shFree := free,
                     handles := out :: s.handles }) hcn
    rw [halloc]
    simp only [Bool.false_eq_true, if_false, freeConts_eq, append_nil, update_self,
      update_idem]
    obtain ⟨y, hy⟩ := releaseHandle_unused out
      (t := { s with sh := update s.sh out { x with comb := .none }, shFree := free,
                     handles := out :: s.handles, cnFree := s.cnFree.reverse,
                     broken := s.broken || s.cnFree.isEmpty })
      (by simpa using hconts) (by simpa using hcount)
    refine ⟨out, y, by rw [hfree]; exact mem_cons_self, ?_⟩
    rw [hy, ← hfree]
    simp only [update_idem, erase_cons_head]

end Undone

/-! ## When a failure is clean -/

/-- `All` or `Race` gets a slot for its output, but no continuation at all. -/
def State.Exhausted (s : State) (c : Chaining) : Prop :=
  c.combines = true ∧ 0 < c.needs ∧ c.needs ≤ maxAllSize ∧ s.shFree ≠ [] ∧ s.cnFree = []

section Calls

variable {s : State} {c : Chaining}

theorem call_chain (hc : c.combines = false) :
    c.needs = 1 ∧ ∃ kind f fn, s.call c = s.chain kind f fn := by
  cases c with
  | map f fn | onReject f fn | onSettle f fn => exact ⟨rfl, _, _, _, rfl⟩
  | all fs | race fs => cases hc

theorem call_combine (hc : c.combines = true) :
    ∃ kind comb fs, c.needs = fs.length ∧ s.call c = s.combine kind comb fs := by
  cases c with
  | map f fn | onReject f fn | onSettle f fn => cases hc
  | all fs | race fs => exact ⟨_, _, fs, rfl, rfl⟩

theorem State.SameSlots.update {out : Nat} {x : Shared} {cn : List Nat} {b : Bool}
    (hout : out ∈ s.shFree) (hcn : cn.Perm s.cnFree) (hb : b = false) :
    s.SameSlots { s with sh := update s.sh out x, cnFree := cn, broken := b } where
  shFree := .refl _
  cnFree := hcn
  conts p hp := by
    have hne : p ≠ out := fun heq => hp (heq ▸ hout)
    simp only [update_of_ne hne]
  notBroken := hb

/-- What is wrong when there is no continuation at all. -/
theorem State.Exhausted.not_failsCleanly (h : s.Exhausted c) : ¬ s.FailsCleanly c := by
  obtain ⟨hc, hpos, hle, hout, hcn⟩ := h
  obtain ⟨kind, comb, fs, hneeds, heq⟩ := call_combine (s := s) hc
  rw [hneeds] at hpos hle
  obtain ⟨out, x, -, hx⟩ := combine_lacking kind comb fs (by omega) hout
    (by rw [hcn]; exact hpos)
  rw [hx] at heq
  intro hclean
  have hbroken := (hclean (by rw [heq]) (.inr (by rw [hcn, hneeds]; exact hpos))).2.notBroken
  rw [heq, hcn] at hbroken
  simp at hbroken

theorem failsCleanly_of_not_exhausted (hs : s.broken = false) (h : ¬ s.Exhausted c) :
    s.FailsCleanly c := by
  intro hstatus hlacks
  by_cases hout : s.shFree = []
  · have hcreate := promiseCreate_eq_none.mpr hout
    have hsame : s.SameSlots s := ⟨.refl _, .refl _, fun _ _ => rfl, hs⟩
    cases hc : c.combines with
    | false =>
      obtain ⟨-, kind, f, fn, heq⟩ := call_chain (s := s) hc
      rw [heq, State.chain, hcreate]
      exact ⟨rfl, hsame⟩
    | true =>
      obtain ⟨kind, comb, fs, -, heq⟩ := call_combine (s := s) hc
      rw [heq, State.combine, hcreate]
      split
      · exact ⟨rfl, hsame⟩
      · exact ⟨rfl, hsame⟩
  · have hshort := hlacks.resolve_left hout
    cases hc : c.combines with
    | false =>
      obtain ⟨hneeds, kind, f, fn, heq⟩ := call_chain (s := s) hc
      rw [hneeds, Nat.lt_one_iff, length_eq_zero_iff] at hshort
      obtain ⟨out, x, hmem, hx⟩ := chain_lacking kind f fn hout hshort
      rw [heq, hx]
      exact ⟨rfl, .update hmem (.refl _) hs⟩
    | true =>
      obtain ⟨kind, comb, fs, hneeds, heq⟩ := call_combine (s := s) hc
      by_cases hsize : fs.length = 0 ∨ fs.length > maxAllSize
      · rw [heq, State.combine, if_pos hsize] at hstatus
        cases hstatus
      · have hne : s.cnFree ≠ [] := fun hnil => h ⟨hc, by omega, by omega, hout, hnil⟩
        rw [hneeds] at hshort
        obtain ⟨out, x, hmem, hx⟩ := combine_lacking kind comb fs hsize hout hshort
        rw [heq, hx]
        refine ⟨rfl, .update hmem (reverse_perm _) ?_⟩
        rw [hs, isEmpty_eq_false_iff.mpr hne]
        rfl

/-- A call that fails for want of a slot leaves the pools as they were, unless it is `All` or `Race`
with a slot for its output and no continuation at all. -/
theorem failsCleanly_iff (hs : s.broken = false) : s.FailsCleanly c ↔ ¬ s.Exhausted c :=
  ⟨fun h hexhausted => hexhausted.not_failsCleanly h, failsCleanly_of_not_exhausted hs⟩

/-- `All` of two futures with one free continuation. -/
theorem failsCleanly_one : ({ State.init 8 with cnFree := [5] }.call (.all [0, 1])).2.1 =
      .outOfMemory ∧ { State.init 8 with cnFree := [5] }.LacksSlot (.all [0, 1]) ∧
    { State.init 8 with cnFree := [5] }.FailsCleanly (.all [0, 1]) :=
  ⟨by decide +kernel, .inr (by decide), (failsCleanly_iff rfl).mpr fun h => nomatch h.2.2.2.2⟩

/-- `All` of a future to which all continuations are attached. -/
theorem not_failsCleanly_exhausted :
    ¬ ∀ cap s c, Reached (fun _ _ => True) cap s → s.FailsCleanly c := by
  intro hall
  have hrun : ((State.init 8).runIf (fun _ _ => true)
      (.promiseCreate :: List.replicate 16 (.all (List.replicate 32 255)))).map
      (fun s => (s.shFree.isEmpty, s.cnFree)) = some (false, []) := by
    decide +kernel
  obtain ⟨s, hs, hfields⟩ := Option.map_eq_some_iff.mp hrun
  obtain ⟨hfree, hcn⟩ := Prod.mk.inj hfields
  have hreached : Reached (fun _ _ => True) 8 s :=
    reached_runIf (fun _ _ _ => trivial) _ (.start rfl) hs
  refine State.Exhausted.not_failsCleanly ⟨rfl, ?_, ?_, ?_, hcn⟩ (hall 8 s (.all [255]) hreached)
  · decide
  · decide
  · exact isEmpty_eq_false_iff.mp hfree

end Calls

example : (State.init 8).shFree.length = poolSh := by decide +kernel

end Mx.Futures

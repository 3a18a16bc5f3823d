import Mx.Core.Machine
import Mx.Futures.Promise

/-!
# The pools of promises

Which slots of the pools are free and which are used, and by what: a shared state by its handle and
by the continuations that settle it, but not by those that read it. So a shared state is freed too
early when its last reference goes while a continuation for it is queued. In runs without such
releases no slot is freed while it is used, or freed twice.
-/

namespace Mx.Futures

open Mx.Core Function List

/-! ## The invariant -/

namespace State

/-- A slot for a continuation that is neither free nor reserved. -/
def Live (s : State) (reserved : List Nat) (c : Nat) : Prop :=
  c < poolCn ∧ c ∉ s.cnFree ∧ c ∉ reserved

/-- The continuations that hold a reference to a shared state. -/
def holders (s : State) (reserved : List Nat) (p : Nat) : Finset Nat :=
  (Finset.range poolCn).filter fun c => c ∉ s.cnFree ∧ c ∉ reserved ∧ (s.cn c).output = p

/-- The continuations that are executed. -/
def executed (s : State) : List Nat := s.running.map Running.cont

/-- A continuation that is queued or executed reads a shared state. -/
def Awaited (s : State) (p : Nat) : Prop :=
  ∃ c ∈ s.queue ++ s.executed, (s.cn c).input = p

/-- Where the slots are, and what refers to the shared states. Reserved continuations are allocated,
but not yet attached. -/
structure Inv (s : State) (reserved : List Nat) : Prop where
  shNodup : s.shFree.Nodup
  shLt : ∀ p ∈ s.shFree, p < poolSh
  located : (reserved ++ (s.cnFree ++ (s.queue ++ s.executed))).Nodup
  locatedLt : ∀ c ∈ reserved ++ (s.cnFree ++ (s.queue ++ s.executed)), c < poolCn
  attached : ∀ p, ∀ c ∈ (s.sh p).conts,
    s.Live reserved c ∧ c ∉ s.queue ++ s.executed ∧ (s.cn c).input = p
  contsNodup : ∀ p, (s.sh p).conts.Nodup
  placed : ∀ c, s.Live reserved c →
    c ∈ s.queue ++ s.executed ∨ c ∈ (s.sh (s.cn c).input).conts
  runs : ∀ r ∈ s.running, (s.cn r.cont).input = r.input ∧ (s.cn r.cont).output = r.output
  free : ∀ p ∈ s.shFree, (s.sh p).conts = [] ∧ (s.sh p).refCount = 0 ∧ p ∉ s.handles
  ends : ∀ c, s.Live reserved c → (s.cn c).input ≠ (s.cn c).output ∧
    ∀ p, p = (s.cn c).input ∨ p = (s.cn c).output → p < poolSh ∧ p ∉ s.shFree
  handlesLt : ∀ h ∈ s.handles, h < poolSh
  count : ∀ p, (s.sh p).refCount = s.handles.count p + (s.holders reserved p).card
  awaited : ∀ p, s.Awaited p → 0 < (s.sh p).refCount
  notBroken : s.broken = false

end State

open State

section Basics

variable {s : State} {reserved : List Nat} {p c h : Nat}

@[simp] theorem modSh_sh_self (s : State) (p : Nat) (f : Shared → Shared) :
    (s.modSh p f).sh p = f (s.sh p) := update_self _ _ _

theorem modSh_sh_of_ne {q : Nat} (hq : q ≠ p) (f : Shared → Shared) :
    (s.modSh p f).sh q = s.sh q := update_of_ne hq _ _

/-- What a change keeps of a shared state, it keeps of all of them. -/
theorem modSh_keeps {α : Type} (g : Shared → α) {f : Shared → Shared}
    (h : g (f (s.sh p)) = g (s.sh p)) (q : Nat) : g ((s.modSh p f).sh q) = g (s.sh q) := by
  by_cases hq : q = p
  · rw [hq, modSh_sh_self, h]
  · rw [modSh_sh_of_ne hq]

/-- A continuation that is queued or executed is live. -/
theorem State.Inv.live (hi : s.Inv reserved) (hc : c ∈ s.queue ++ s.executed) :
    s.Live reserved c := by
  have hnodup := nodup_append.mp hi.located
  have hfree := nodup_append.mp hnodup.2.1
  exact ⟨hi.locatedLt c (mem_append_right _ (mem_append_right _ hc)),
    fun hmem => hfree.2.2 c hmem c hc rfl,
    fun hmem => hnodup.2.2 c hmem c (mem_append_right _ hc) rfl⟩

/-- A handle is not free, and has a reference. -/
theorem State.Inv.handle (hi : s.Inv reserved) (hh : h ∈ s.handles) :
    h < poolSh ∧ h ∉ s.shFree ∧ 0 < (s.sh h).refCount := by
  refine ⟨hi.handlesLt h hh, fun hfree => (hi.free h hfree).2.2 hh, ?_⟩
  have hcount := count_pos_iff.mpr hh
  rw [hi.count h]
  omega

/-- Fields other than the continuations and the number of references do not matter. -/
theorem State.Inv.modSh (hi : s.Inv reserved) {f : Shared → Shared}
    (hconts : (f (s.sh p)).conts = (s.sh p).conts)
    (hcount : (f (s.sh p)).refCount = (s.sh p).refCount) : (s.modSh p f).Inv reserved := by
  have hsame : ∀ q, ((s.modSh p f).sh q).conts = (s.sh q).conts ∧
      ((s.modSh p f).sh q).refCount = (s.sh q).refCount :=
    fun q => ⟨modSh_keeps Shared.conts hconts q, modSh_keeps Shared.refCount hcount q⟩
  exact
    { hi with
      attached := fun q c hc => hi.attached q c ((hsame q).1 ▸ hc)
      contsNodup := fun q => (hsame q).1 ▸ hi.contsNodup q
      placed := fun c hc => by
        rw [(hsame _).1]
        exact hi.placed c hc
      free := fun q hq => by
        rw [(hsame q).1, (hsame q).2]
        exact hi.free q hq
      count := fun q => (hsame q).2.trans (hi.count q)
      awaited := fun q hq => by
        rw [(hsame q).2]
        exact hi.awaited q hq }

/-- Continuations can be moved between the reserved and the free ones. -/
theorem State.Inv.perm {reserved' cnFree' : List Nat} (hi : s.Inv reserved)
    (hperm : (reserved' ++ cnFree').Perm (reserved ++ s.cnFree)) :
    { s with cnFree := cnFree' }.Inv reserved' := by
  have hmem : ∀ c, (c ∉ cnFree' ∧ c ∉ reserved') ↔ (c ∉ s.cnFree ∧ c ∉ reserved) := by
    intro c
    have hsame := hperm.mem_iff (a := c)
    rw [mem_append, mem_append] at hsame
    tauto
  have hlive : ∀ c, { s with cnFree := cnFree' }.Live reserved' c ↔ s.Live reserved c :=
    fun c => and_congr_right fun _ => hmem c
  have hholders : ∀ p, { s with cnFree := cnFree' }.holders reserved' p = s.holders reserved p := by
    intro p
    apply Finset.filter_congr
    intro c _
    rw [← and_assoc, ← and_assoc]
    exact and_congr_left fun _ => hmem c
  have hall : (reserved' ++ (cnFree' ++ (s.queue ++ s.executed))).Perm
      (reserved ++ (s.cnFree ++ (s.queue ++ s.executed))) := by
    rw [← append_assoc, ← append_assoc reserved]
    exact hperm.append_right _
  refine
    { hi with
      located := ?_
      locatedLt := ?_
      attached := ?_
      placed := ?_
      ends := ?_
      count := ?_ }
  · exact hall.nodup_iff.mpr hi.located
  · exact fun c hc => hi.locatedLt c (hall.mem_iff.mp hc)
  · exact fun p c hc => ⟨(hlive c).mpr (hi.attached p c hc).1, (hi.attached p c hc).2⟩
  · exact fun c hc => hi.placed c ((hlive c).mp hc)
  · exact fun c hc => hi.ends c ((hlive c).mp hc)
  · intro p
    rw [hholders]
    exact hi.count p

end Basics

/-! ## Reclaiming -/

section Reclaim

variable {s : State} {reserved : List Nat} {p : Nat}

/-- A shared state without references and continuations can be freed. -/
theorem State.Inv.freeShared (hi : s.Inv reserved) (hlt : p < poolSh) (hused : p ∉ s.shFree)
    (hcount : (s.sh p).refCount = 0) (hconts : (s.sh p).conts = []) :
    (s.freeShared p).Inv reserved := by
  have hzero := hi.count p
  rw [hcount] at hzero
  have hhandles : p ∉ s.handles := count_eq_zero.mp (by omega)
  have hholders : s.holders reserved p = ∅ := Finset.card_eq_zero.mp (by omega)
  have hsame : ∀ q, ((s.freeShared p).sh q).conts = (s.sh q).conts ∧
      ((s.freeShared p).sh q).refCount = (s.sh q).refCount :=
    let f (x : Shared) : Shared :=
      { x with fate := .pending, conts := [], refCount := 0, comb := .none }
    fun q => ⟨modSh_keeps (f := f) Shared.conts hconts.symm q,
      modSh_keeps (f := f) Shared.refCount hcount.symm q⟩
  refine
    { hi with
      shNodup := nodup_cons.mpr ⟨hused, hi.shNodup⟩
      shLt := fun q hq => ?_
      attached := fun q c hc => hi.attached q c ((hsame q).1 ▸ hc)
      contsNodup := fun q => (hsame q).1 ▸ hi.contsNodup q
      placed := fun c hc => ?_
      free := fun q hq => ?_
      ends := fun c hc => ⟨(hi.ends c hc).1, fun q hq => ⟨((hi.ends c hc).2 q hq).1, ?_⟩⟩
      count := fun q => (hsame q).2.trans (hi.count q)
      awaited := fun q hq => ?_ }
  · rcases mem_cons.mp hq with rfl | hq
    · exact hlt
    · exact hi.shLt q hq
  · rw [(hsame _).1]
    exact hi.placed c hc
  · rw [(hsame q).1, (hsame q).2]
    rcases mem_cons.mp hq with rfl | hq
    · exact ⟨hconts, hcount, hhandles⟩
    · exact hi.free q hq
  · intro hfree
    rcases mem_cons.mp hfree with rfl | hfree
    · rcases hq with hin | hout
      · -- A live continuation reads it: it is attached, or waits with a reference to it.
        rcases hi.placed c hc with hwaits | hattached
        · have hpos := hi.awaited q ⟨c, hwaits, hin.symm⟩
          omega
        · have hin : q = (s.cn c).input := hin
          rw [← hin, hconts] at hattached
          cases hattached
      · have hmem : c ∈ s.holders reserved q :=
          Finset.mem_filter.mpr ⟨Finset.mem_range.mpr hc.1, hc.2.1, hc.2.2, hout.symm⟩
        rw [hholders] at hmem
        cases hmem
    · exact ((hi.ends c hc).2 q hq).2 hfree
  · rw [(hsame q).2]
    exact hi.awaited q hq

theorem State.Inv.tryReclaim (hi : s.Inv reserved) (hlt : p < poolSh) (hused : p ∉ s.shFree) :
    (s.tryReclaim p).Inv reserved := by
  rw [State.tryReclaim]
  split
  · exact hi
  · rename_i hcount
    split
    · exact hi
    · rename_i hconts
      exact hi.freeShared hlt hused (Nat.eq_zero_of_not_pos hcount) (not_not.mp hconts)

/-- A shared state has one reference less. -/
def State.decRef (s : State) (p : Nat) : State :=
  s.modSh p fun x => { x with refCount := x.refCount - 1 }

theorem decRef_fields (s : State) (p q : Nat) :
    ((s.decRef p).sh q).conts = (s.sh q).conts ∧
      ((s.decRef p).sh q).refCount = (s.sh q).refCount - if q = p then 1 else 0 := by
  by_cases hq : q = p
  · rw [if_pos hq, hq, State.decRef, modSh_sh_self]
    exact ⟨rfl, rfl⟩
  · rw [if_neg hq, State.decRef, modSh_sh_of_ne hq]
    exact ⟨rfl, rfl⟩

theorem tryReclaim_handles (s : State) (p : Nat) (handles : List Nat) :
    { s.tryReclaim p with handles := handles } = { s with handles := handles }.tryReclaim p := by
  simp only [State.tryReclaim]
  split
  · rfl
  split
  · rfl
  · rfl

theorem tryReclaim_running (s : State) (p : Nat) (running : List Running) :
    { s.tryReclaim p with running := running } = { s with running := running }.tryReclaim p := by
  simp only [State.tryReclaim]
  split
  · rfl
  split
  · rfl
  · rfl

theorem release_eq (h : 0 < (s.sh p).refCount) : s.release p = (s.decRef p).tryReclaim p :=
  if_neg (Nat.pos_iff_ne_zero.mp h)

/-- A handle that is not the last reference of an awaited shared state can be released. -/
theorem State.Inv.releaseHandle (hi : s.Inv reserved) (hp : p ∈ s.handles)
    (hlast : (s.sh p).refCount = 1 → ¬ s.Awaited p) : (s.releaseHandle p).Inv reserved := by
  obtain ⟨hlt, hused, hpos⟩ := hi.handle hp
  rw [State.releaseHandle, release_eq hpos, tryReclaim_handles]
  refine State.Inv.tryReclaim ?_ hlt hused
  have hfields := decRef_fields s p
  refine
    { hi with
      attached := fun q c hc => hi.attached q c ((hfields q).1 ▸ hc)
      contsNodup := fun q => (hfields q).1 ▸ hi.contsNodup q
      placed := fun c hc => ?_
      free := fun q hq => ?_
      handlesLt := fun h hh => hi.handlesLt h (mem_of_mem_erase hh)
      count := fun q => ?_
      awaited := fun q hq => ?_ }
  · simp only [(hfields _).1]
    exact hi.placed c hc
  · obtain ⟨hconts, hcount, hhandles⟩ := hi.free q hq
    simp only [hfields q, hconts, hcount, Nat.zero_sub]
    exact ⟨trivial, trivial, fun hmem => hhandles (mem_of_mem_erase hmem)⟩
  · simp only [(hfields q).2]
    have hcount := hi.count q
    by_cases hq : q = p
    · rw [if_pos hq, hq, count_erase_self]
      have hone := count_pos_iff.mpr hp
      rw [hq] at hcount
      change _ = _ + (s.holders reserved p).card
      omega
    · rw [if_neg hq, Nat.sub_zero, count_erase_of_ne hq]
      exact hcount
  · simp only [(hfields q).2]
    have hwaits : 0 < (s.sh q).refCount := hi.awaited q hq
    by_cases heq : q = p
    · rw [if_pos heq]
      rw [heq] at hwaits hq ⊢
      have hne : (s.sh p).refCount ≠ 1 := fun hone => hlast hone hq
      omega
    · rw [if_neg heq]
      omega

end Reclaim

/-! ## Creating -/

section Create

variable {s s' : State} {reserved : List Nat} {out c : Nat}

/-- No continuation that is live reads a shared state. -/
def State.Unread (s : State) (reserved : List Nat) (p : Nat) : Prop :=
  ∀ c, s.Live reserved c → (s.cn c).input ≠ p

theorem State.Unread.not_awaited {p : Nat} (h : s.Unread reserved p) (hi : s.Inv reserved) :
    ¬ s.Awaited p := by
  rintro ⟨c, hc, hin⟩
  exact h c (hi.live hc) hin

/-- A new shared state has a handle, and nothing reads it. -/
theorem State.Inv.promiseCreate (hi : s.Inv reserved) (h : s.promiseCreate = some (out, s')) :
    s'.Inv reserved ∧ s'.handles = out :: s.handles ∧ out ∉ s.handles ∧
      s'.Unread reserved out := by
  rw [State.promiseCreate, State.allocShared] at h
  split at h
  · cases h
  · rename_i p free hfree
    obtain ⟨rfl, rfl⟩ := Prod.mk.inj (Option.some.inj h)
    have hmem : p ∈ s.shFree := by
      rw [hfree]
      exact mem_cons_self
    obtain ⟨hconts, hcount, hhandles⟩ := hi.free p hmem
    have hnodup := hi.shNodup
    rw [hfree, nodup_cons] at hnodup
    have hrest : ∀ q ∈ free, q ∈ s.shFree ∧ q ≠ p := by
      intro q hq
      refine ⟨by rw [hfree]; exact mem_cons_of_mem p hq, ?_⟩
      rintro rfl
      exact hnodup.1 hq
    have hself : update s.sh p ⟨.pending, initResult, [], 1, .none⟩ p =
        ⟨.pending, initResult, [], 1, .none⟩ := update_self _ _ _
    have hother : ∀ q, q ≠ p →
        update s.sh p ⟨.pending, initResult, [], 1, .none⟩ q = s.sh q :=
      fun q hq => update_of_ne hq _ _
    have hends : ∀ c, s.Live reserved c → (s.cn c).input ≠ p ∧ (s.cn c).output ≠ p := by
      intro c hc
      have hboth := (hi.ends c hc).2
      exact ⟨fun heq => (hboth p (.inl heq.symm)).2 hmem,
        fun heq => (hboth p (.inr heq.symm)).2 hmem⟩
    refine ⟨?_, rfl, hhandles, fun c hc => (hends c hc).1⟩
    refine
      { hi with
        shNodup := hnodup.2
        shLt := fun q hq => hi.shLt q (hrest q hq).1
        attached := fun q c hc => ?_
        contsNodup := fun q => ?_
        placed := fun c hc => ?_
        free := fun q hq => ?_
        ends := fun c hc => ⟨(hi.ends c hc).1, fun q hq => ⟨((hi.ends c hc).2 q hq).1,
          fun hin => ((hi.ends c hc).2 q hq).2 (hrest q hin).1⟩⟩
        handlesLt := fun q hq => ?_
        count := fun q => ?_
        awaited := fun q hq => ?_ }
    · by_cases hq : q = p
      · rw [hq] at hc
        change c ∈ (update s.sh p _ p).conts at hc
        rw [hself] at hc
        cases hc
      · change c ∈ (update s.sh p _ q).conts at hc
        rw [hother q hq] at hc
        exact hi.attached q c hc
    · change (update s.sh p _ q).conts.Nodup
      by_cases hq : q = p
      · rw [hq, hself]
        exact nodup_nil
      · rw [hother q hq]
        exact hi.contsNodup q
    · change _ ∨ c ∈ (update s.sh p _ (s.cn c).input).conts
      rw [hother _ (hends c hc).1]
      exact hi.placed c hc
    · change (update s.sh p _ q).conts = [] ∧
        (update s.sh p _ q).refCount = 0 ∧ q ∉ p :: s.handles
      obtain ⟨hqfree, hqne⟩ := hrest q hq
      obtain ⟨hqconts, hqcount, hqhandles⟩ := hi.free q hqfree
      rw [hother q hqne]
      exact ⟨hqconts, hqcount, fun hin => (mem_cons.mp hin).elim hqne hqhandles⟩
    · rcases mem_cons.mp hq with rfl | hq
      · exact hi.shLt q hmem
      · exact hi.handlesLt q hq
    · change (update s.sh p _ q).refCount = (p :: s.handles).count q +
        (s.holders reserved q).card
      by_cases hq : q = p
      · have hzero := hi.count p
        rw [hq, hself, count_cons_self]
        simp only
        omega
      · rw [hother q hq, count_cons_of_ne (Ne.symm hq)]
        exact hi.count q
    · change 0 < (update s.sh p _ q).refCount
      obtain ⟨c, hc, hin⟩ := hq
      have hne : q ≠ p := fun heq => (hends c (hi.live hc)).1 (hin.trans heq)
      rw [hother q hne]
      exact hi.awaited q ⟨c, hc, hin⟩

/-- An allocated continuation is reserved. -/
theorem State.Inv.allocCont (hi : s.Inv reserved) (h : s.allocCont = some (c, s')) :
    s'.Inv (c :: reserved) ∧ s'.handles = s.handles ∧
      ∀ p, s.Unread reserved p → s'.Unread (c :: reserved) p := by
  rw [State.allocCont] at h
  split at h
  · cases h
  · rename_i c' free hfree
    obtain ⟨rfl, rfl⟩ := Prod.mk.inj (Option.some.inj h)
    refine ⟨hi.perm ?_, rfl, fun p hp c hc => hp c ⟨hc.1, ?_, ?_⟩⟩
    · rw [hfree, cons_append]
      exact perm_middle.symm
    · rw [hfree]
      intro hmem
      rcases mem_cons.mp hmem with rfl | hmem
      · exact hc.2.2 mem_cons_self
      · exact hc.2.1 hmem
    · exact fun hmem => hc.2.2 (mem_cons_of_mem _ hmem)

/-- A reserved continuation can be freed. -/
theorem State.Inv.freeCont (hi : s.Inv (c :: reserved)) :
    (s.freeCont c).Inv reserved ∧ ∀ p, s.Unread (c :: reserved) p →
      (s.freeCont c).Unread reserved p := by
  refine ⟨hi.perm perm_middle, fun p hp c' hc' => hp c' ⟨hc'.1, ?_, ?_⟩⟩
  · exact fun hmem => hc'.2.1 (mem_cons_of_mem _ hmem)
  · intro hmem
    rcases mem_cons.mp hmem with rfl | hmem
    · exact hc'.2.1 mem_cons_self
    · exact hc'.2.2 hmem

theorem State.Inv.freeConts (cs : List Nat) :
    ∀ {s : State}, s.Inv (cs ++ reserved) →
      (s.freeConts cs).Inv reserved ∧ (s.freeConts cs).handles = s.handles ∧
        ∀ p, s.Unread (cs ++ reserved) p → (s.freeConts cs).Unread reserved p := by
  induction cs with
  | nil => exact fun hi => ⟨hi, rfl, fun _ hp => hp⟩
  | cons c cs ih =>
    intro s hi
    obtain ⟨hfree, hunread⟩ := State.Inv.freeCont hi
    obtain ⟨hrest, hhandles, hall⟩ := ih hfree
    exact ⟨hrest, hhandles, fun p hp => hall p (hunread p hp)⟩

end Create

/-! ## Attaching -/

section Attach

variable {s s' : State} {reserved : List Nat} {c : Nat} {x : Cont}

/-- The fields of a reserved continuation can be set. -/
theorem State.Inv.setCn (hi : s.Inv (c :: reserved)) :
    { s with cn := update s.cn c x }.Inv (c :: reserved) ∧
      ∀ p, s.Unread (c :: reserved) p →
        { s with cn := update s.cn c x }.Unread (c :: reserved) p := by
  have hcn : ∀ c', s.Live (c :: reserved) c' → update s.cn c x c' = s.cn c' := by
    intro c' hc'
    refine update_of_ne (fun heq => ?_) _ _
    rw [heq] at hc'
    exact hc'.2.2 mem_cons_self
  have hholders : ∀ p, { s with cn := update s.cn c x }.holders (c :: reserved) p =
      s.holders (c :: reserved) p := by
    intro p
    apply Finset.filter_congr
    intro c' _
    refine and_congr_right fun hfree => and_congr_right fun hres => ?_
    have hne : c' ≠ c := fun heq => hres (heq ▸ mem_cons_self)
    change (update s.cn c x c').output = p ↔ _
    rw [update_of_ne hne]
  refine ⟨?_, fun p hp c' hc' => ?_⟩
  · refine
      { hi with
        attached := fun p c' hc' => ?_
        placed := fun c' hc' => ?_
        runs := fun r hr => ?_
        ends := fun c' hc' => ?_
        count := fun p => ?_
        awaited := fun p hp => ?_ }
    · obtain ⟨hlive, hnot, hin⟩ := hi.attached p c' hc'
      refine ⟨hlive, hnot, ?_⟩
      change (update s.cn c x c').input = p
      rw [hcn c' hlive]
      exact hin
    · change _ ∨ c' ∈ (s.sh (update s.cn c x c').input).conts
      rw [hcn c' hc']
      exact hi.placed c' hc'
    · have hlive := hi.live (mem_append_right s.queue (mem_map_of_mem hr))
      change (update s.cn c x r.cont).input = _ ∧
        (update s.cn c x r.cont).output = _
      rw [hcn r.cont hlive]
      exact hi.runs r hr
    · change (update s.cn c x c').input ≠ (update s.cn c x c').output ∧
        ∀ p, p = (update s.cn c x c').input ∨
          p = (update s.cn c x c').output → _
      rw [hcn c' hc']
      exact hi.ends c' hc'
    · rw [hholders]
      exact hi.count p
    · obtain ⟨c', hc', hin⟩ := hp
      have hin : (update s.cn c x c').input = p := hin
      rw [hcn c' (hi.live hc')] at hin
      exact hi.awaited p ⟨c', hc', hin⟩
  · change (update s.cn c x c').input ≠ p
    rw [hcn c' hc']
    exact hp c' hc'

/-- The shared states at the ends of a continuation are used and different, and the input has a
reference. -/
structure State.Fits (s : State) (x : Cont) : Prop where
  input : x.input < poolSh ∧ x.input ∉ s.shFree ∧ 0 < (s.sh x.input).refCount
  output : x.output < poolSh ∧ x.output ∉ s.shFree
  ne : x.input ≠ x.output

theorem retain_fields (s : State) (p q : Nat) :
    ((s.retain p).sh q).conts = (s.sh q).conts ∧
      ((s.retain p).sh q).refCount = (s.sh q).refCount + if q = p then 1 else 0 := by
  by_cases hq : q = p
  · rw [if_pos hq, hq, State.retain, modSh_sh_self]
    exact ⟨rfl, rfl⟩
  · rw [if_neg hq, State.retain, modSh_sh_of_ne hq]
    exact ⟨rfl, rfl⟩

/-- A reserved continuation becomes live. -/
theorem live_of_reserved (hi : s.Inv (c :: reserved)) :
    (∀ c', s.Live reserved c' ↔ c' = c ∨ s.Live (c :: reserved) c') ∧
      c ∉ s.queue ++ s.executed ∧ c ∉ reserved ++ s.cnFree := by
  have hnodup := hi.located
  rw [cons_append, nodup_cons, ← append_assoc, mem_append, not_or] at hnodup
  refine ⟨fun c' => ⟨fun h => ?_, fun h => ?_⟩, hnodup.1.2, hnodup.1.1⟩
  · by_cases heq : c' = c
    · exact .inl heq
    · refine .inr ⟨h.1, h.2.1, fun hmem => ?_⟩
      rcases mem_cons.mp hmem with hc | hmem
      · exact heq hc
      · exact h.2.2 hmem
  · rcases h with rfl | h
    · refine ⟨hi.locatedLt c' mem_cons_self, fun hmem => ?_, fun hmem => ?_⟩
      · exact hnodup.1.1 (mem_append_right _ hmem)
      · exact hnodup.1.1 (mem_append_left _ hmem)
    · exact ⟨h.1, h.2.1, fun hmem => h.2.2 (mem_cons_of_mem c hmem)⟩

/-- It then holds its reference. -/
theorem card_holders_of_reserved (hi : s.Inv (c :: reserved)) (p : Nat) :
    (s.holders reserved p).card =
      (s.holders (c :: reserved) p).card + if p = (s.cn c).output then 1 else 0 := by
  obtain ⟨hlive, -, -⟩ := live_of_reserved hi
  have hmem : ∀ (res : List Nat) (c' : Nat),
      c' ∈ s.holders res p ↔ s.Live res c' ∧ (s.cn c').output = p := by
    intro res c'
    rw [State.holders, Finset.mem_filter, Finset.mem_range, State.Live, and_assoc, and_assoc]
  have hnot : c ∉ s.holders (c :: reserved) p := by
    rw [hmem]
    exact fun h => h.1.2.2 mem_cons_self
  by_cases hp : p = (s.cn c).output
  · rw [if_pos hp, ← Finset.card_insert_of_notMem hnot]
    refine congrArg Finset.card (Finset.ext fun c' => ?_)
    rw [Finset.mem_insert, hmem, hmem, hlive]
    constructor
    · rintro ⟨rfl | h, hout⟩
      · exact .inl rfl
      · exact .inr ⟨h, hout⟩
    · rintro (rfl | ⟨h, hout⟩)
      · exact ⟨.inl rfl, hp.symm⟩
      · exact ⟨.inr h, hout⟩
  · rw [if_neg hp, Nat.add_zero]
    refine congrArg Finset.card (Finset.ext fun c' => ?_)
    rw [hmem, hmem, hlive]
    constructor
    · rintro ⟨rfl | h, hout⟩
      · exact absurd hout.symm hp
      · exact ⟨h, hout⟩
    · exact fun ⟨h, hout⟩ => ⟨.inr h, hout⟩

/-- A continuation that is attached is live. -/
theorem State.Inv.attach (hi : s.Inv (c :: reserved)) (hx : s.cn c = x) (hfits : s.Fits x)
    (h : (s.retain x.output).attach c x.input = some s') :
    s'.Inv reserved ∧ s'.handles = s.handles ∧ s'.shFree = s.shFree ∧
      ∀ p, p ≠ x.input → s.Unread (c :: reserved) p → s'.Unread reserved p := by
  obtain ⟨hlive, hnot, hnotFree⟩ := live_of_reserved hi
  have hfields := retain_fields s x.output
  have hcard := card_holders_of_reserved hi
  rw [hx] at hcard
  have hunread : ∀ p, p ≠ x.input → s.Unread (c :: reserved) p →
      ∀ c', s.Live reserved c' → (s.cn c').input ≠ p := by
    intro p hp hnone c' hc'
    rcases (hlive c').mp hc' with rfl | hc'
    · rw [hx]
      exact Ne.symm hp
    · exact hnone c' hc'
  have hends : ∀ c', s.Live reserved c' → (s.cn c').input ≠ (s.cn c').output ∧
      ∀ p, p = (s.cn c').input ∨ p = (s.cn c').output → p < poolSh ∧ p ∉ s.shFree := by
    intro c' hc'
    rcases (hlive c').mp hc' with rfl | hc'
    · rw [hx]
      refine ⟨hfits.ne, fun p hp => ?_⟩
      rcases hp with rfl | rfl
      · exact ⟨hfits.input.1, hfits.input.2.1⟩
      · exact hfits.output
    · exact hi.ends c' hc'
  have hperm : (reserved ++ (s.cnFree ++ ((s.queue ++ [c]) ++ s.executed))).Perm
      ((c :: reserved) ++ (s.cnFree ++ (s.queue ++ s.executed))) := by
    rw [append_assoc s.queue, singleton_append, ← append_assoc s.cnFree, ← append_assoc reserved]
    refine perm_middle.trans ?_
    rw [append_assoc reserved, append_assoc s.cnFree, cons_append]
  have hcount : ∀ p, ((s.retain x.output).sh p).refCount =
      s.handles.count p + (s.holders reserved p).card := by
    intro p
    rw [(hfields p).2, hi.count p, hcard p, Nat.add_assoc]
  have hpos : ∀ p, 0 < (s.sh p).refCount → 0 < ((s.retain x.output).sh p).refCount := by
    intro p hp
    rw [(hfields p).2]
    omega
  have hfree : ∀ p ∈ s.shFree, ((s.retain x.output).sh p).conts = [] ∧
      ((s.retain x.output).sh p).refCount = 0 ∧ p ∉ s.handles := by
    intro p hp
    have hne : p ≠ x.output := fun heq => hfits.output.2 (heq ▸ hp)
    rw [(hfields p).1, (hfields p).2, if_neg hne, Nat.add_zero]
    exact hi.free p hp
  rw [State.attach] at h
  split at h
  · -- The input is settled, and the continuation is queued.
    rw [State.enqueue] at h
    split at h
    · cases h
    obtain rfl := Option.some.inj h
    refine ⟨?_, rfl, rfl, hunread⟩
    refine
      { hi with
        located := hperm.nodup_iff.mpr hi.located
        locatedLt := fun c' hc' => hi.locatedLt c' (hperm.mem_iff.mp hc')
        attached := fun p c' hc' => ?_
        contsNodup := fun p => ?_
        placed := fun c' hc' => ?_
        free := hfree
        ends := hends
        count := hcount
        awaited := fun p hp => ?_ }
    · have hc' : c' ∈ (s.sh p).conts := (hfields p).1 ▸ hc'
      obtain ⟨hl, hn, hin⟩ := hi.attached p c' hc'
      refine ⟨(hlive c').mpr (.inr hl), fun hmem => ?_, hin⟩
      rw [append_assoc, singleton_append] at hmem
      rcases mem_cons.mp (perm_middle.mem_iff.mp hmem) with rfl | hmem
      · exact hl.2.2 mem_cons_self
      · exact hn hmem
    · simp only [(hfields p).1]
      exact hi.contsNodup p
    · rw [append_assoc, singleton_append]
      rcases (hlive c').mp hc' with rfl | hc'
      · exact .inl (perm_middle.mem_iff.mpr mem_cons_self)
      · rcases hi.placed c' hc' with hmem | hmem
        · exact .inl (perm_middle.mem_iff.mpr (mem_cons_of_mem c hmem))
        · refine .inr ?_
          rw [(hfields _).1]
          exact hmem
    · obtain ⟨c', hc', hin⟩ := hp
      apply hpos
      rw [append_assoc, singleton_append] at hc'
      rcases mem_cons.mp (perm_middle.mem_iff.mp hc') with rfl | hmem
      · have hin : (s.cn c').input = p := hin
        rw [hx] at hin
        rw [← hin]
        exact hfits.input.2.2
      · exact hi.awaited p ⟨c', hmem, hin⟩
  · -- The input is pending, and the continuation is appended to its chain.
    obtain rfl := Option.some.inj h
    have hconts : ∀ p, (((s.retain x.output).appendCont x.input c).sh p).conts =
        (s.sh p).conts ++ if p = x.input then [c] else [] := by
      intro p
      by_cases hp : p = x.input
      · rw [if_pos hp, hp, State.appendCont, modSh_sh_self, (hfields _).1]
      · rw [if_neg hp, State.appendCont, modSh_sh_of_ne hp, (hfields _).1, append_nil]
    have href : ∀ p, (((s.retain x.output).appendCont x.input c).sh p).refCount =
        ((s.retain x.output).sh p).refCount := modSh_keeps Shared.refCount rfl
    have hsub : (reserved ++ (s.cnFree ++ (s.queue ++ s.executed))).Sublist
        ((c :: reserved) ++ (s.cnFree ++ (s.queue ++ s.executed))) :=
      (sublist_cons_self c reserved).append_right _
    refine ⟨?_, rfl, rfl, hunread⟩
    refine
      { hi with
        located := hi.located.sublist hsub
        locatedLt := fun c' hc' => hi.locatedLt c' (hsub.subset hc')
        attached := fun p c' hc' => ?_
        contsNodup := fun p => ?_
        placed := fun c' hc' => ?_
        free := fun p hp => ?_
        ends := hends
        count := fun p => (href p).trans (hcount p)
        awaited := fun p hp => ?_ }
    · rw [hconts p] at hc'
      rcases mem_append.mp hc' with hold | hnew
      · obtain ⟨hl, hn, hin⟩ := hi.attached p c' hold
        exact ⟨(hlive c').mpr (.inr hl), hn, hin⟩
      · split at hnew
        · rename_i hp
          rw [mem_singleton] at hnew
          rw [hnew]
          refine ⟨(hlive c).mpr (.inl rfl), hnot, ?_⟩
          change (s.cn c).input = p
          rw [hx, hp]
        · cases hnew
    · rw [hconts p]
      split
      · have hfresh : c ∉ (s.sh p).conts :=
          fun hmem => (hi.attached p c hmem).1.2.2 mem_cons_self
        rw [nodup_append]
        refine ⟨hi.contsNodup p, nodup_singleton c, fun a ha b hb heq => ?_⟩
        rw [mem_singleton] at hb
        rw [heq, hb] at ha
        exact hfresh ha
      · rw [append_nil]
        exact hi.contsNodup p
    · rw [hconts]
      rcases (hlive c').mp hc' with rfl | hc'
      · refine .inr (mem_append_right _ ?_)
        change c' ∈ if (s.cn c').input = x.input then [c'] else []
        rw [hx, if_pos rfl]
        exact mem_singleton_self c'
      · rcases hi.placed c' hc' with hmem | hmem
        · exact .inl hmem
        · exact .inr (mem_append_left _ hmem)
    · have hne : p ≠ x.input := fun heq => hfits.input.2.1 (heq ▸ hp)
      obtain ⟨hnil, hzero, hhandles⟩ := hi.free p hp
      rw [hconts, href, (hfree p hp).2.1, hnil, if_neg hne]
      exact ⟨rfl, rfl, hhandles⟩
    · rw [href]
      exact hpos p (hi.awaited p hp)

end Attach

/-! ## Chaining and combining -/

section Chain

variable {s s' : State} {reserved : List Nat} {kind : ContKind} {f out c : Nat} {fn : Option Nat}

/-- A reference that was taken and is not the last one can be given back. -/
theorem release_retain {p : Nat} (h : 0 < (s.sh p).refCount) : (s.retain p).release p = s := by
  have hcount : ((s.retain p).sh p).refCount = (s.sh p).refCount + 1 := by
    rw [(retain_fields s p p).2, if_pos rfl]
  have hback : (s.retain p).decRef p = s := by
    rw [State.decRef, State.retain, State.modSh, State.modSh]
    simp only [update_self, update_idem, Nat.add_sub_cancel,
      update_eq_self]
  rw [release_eq (by omega), hback, State.tryReclaim, if_pos h]

/-- What is left of a continuation that could not be queued. -/
theorem State.Inv.undo (hi : s.Inv (c :: reserved)) (hout : out ∈ s.handles)
    (hunread : s.Unread (c :: reserved) out) {x : Cont} (hx : x.output = out) :
    (((s.setCont c x).release out).freeCont c).Inv reserved ∧
      out ∈ (((s.setCont c x).release out).freeCont c).handles ∧
      (((s.setCont c x).release out).freeCont c).Unread reserved out := by
  obtain ⟨hset, hkeep⟩ := State.Inv.setCn (x := x) hi
  have hback : (s.setCont c x).release out = { s with cn := update s.cn c x } := by
    rw [State.setCont, hx]
    exact release_retain (hi.handle hout).2.2
  rw [hback]
  obtain ⟨hfree, hread⟩ := State.Inv.freeCont hset
  exact ⟨hfree, hout, hread out (hkeep out hunread)⟩

/-- The handle of a shared state that nothing reads can be released. -/
theorem State.Inv.dropHandle (hi : s.Inv reserved) (hout : out ∈ s.handles)
    (hunread : s.Unread reserved out) : (s.releaseHandle out).Inv reserved :=
  hi.releaseHandle hout fun _ => hunread.not_awaited hi

theorem State.Inv.chain (hi : s.Inv []) (hf : f ∈ s.handles) : (s.chain kind f fn).1.Inv [] := by
  rw [State.chain]
  cases hcreate : s.promiseCreate with
  | none => exact hi
  | some r =>
    obtain ⟨out, s₁⟩ := r
    obtain ⟨hi₁, hhandles₁, hfresh, hunread₁⟩ := hi.promiseCreate hcreate
    have hout₁ : out ∈ s₁.handles := by
      rw [hhandles₁]
      exact mem_cons_self
    have hne : f ≠ out := fun heq => hfresh (heq ▸ hf)
    simp only
    cases halloc : s₁.allocCont with
    | none => exact hi₁.dropHandle hout₁ hunread₁
    | some r =>
      obtain ⟨c, s₂⟩ := r
      obtain ⟨hi₂, hhandles₂, hread⟩ := hi₁.allocCont halloc
      have hunread₂ := hread out hunread₁
      rw [← hhandles₂] at hout₁
      have hf₂ : f ∈ s₂.handles := by
        rw [hhandles₂, hhandles₁]
        exact mem_cons_of_mem out hf
      simp only
      cases hattach : (s₂.setCont c ⟨kind, fn, f, out, 0⟩).attach c f with
      | none =>
        obtain ⟨hi₃, hout₃, hunread₃⟩ := hi₂.undo hout₁ hunread₂
          (x := ⟨kind, fn, f, out, 0⟩) rfl
        exact hi₃.dropHandle hout₃ hunread₃
      | some s₃ =>
        obtain ⟨hset, -⟩ := State.Inv.setCn (x := ⟨kind, fn, f, out, 0⟩) hi₂
        have hoathandle := hi₂.handle hout₁
        exact (hset.attach (update_self _ _ _)
          ⟨hi₂.handle hf₂, ⟨hoathandle.1, hoathandle.2.1⟩, hne⟩ hattach).1

/-- The order of the reserved continuations does not matter. -/
theorem State.Inv.reorder {reserved' : List Nat} (hi : s.Inv reserved)
    (hperm : reserved'.Perm reserved) :
    s.Inv reserved' ∧ ∀ p, s.Unread reserved p → s.Unread reserved' p :=
  ⟨hi.perm (hperm.append_right _),
    fun _ hp c hc => hp c ⟨hc.1, hc.2.1, fun hmem => hc.2.2 (hperm.mem_iff.mpr hmem)⟩⟩

/-- The loop that allocates reserves what it gets. -/
theorem State.Inv.allocConts (n : Nat) :
    ∀ {s s' : State} {reserved cs : List Nat} {all : Bool}, s.Inv reserved →
      s.allocConts n = (s', cs, all) →
      s'.Inv (cs ++ reserved) ∧ s'.handles = s.handles ∧
        (∀ p, s.Unread reserved p → s'.Unread (cs ++ reserved) p) ∧
        (all = true → cs.length = n) ∧ (all = false → s.cnFree ≠ [] → cs ≠ []) := by
  induction n with
  | zero =>
    intro s s' reserved cs all hi h
    cases h
    exact ⟨hi, rfl, fun _ hp => hp, fun _ => rfl, fun hfalse => absurd hfalse (by decide)⟩
  | succ n ih =>
    intro s s' reserved cs all hi h
    rw [State.allocConts] at h
    cases halloc : s.allocCont with
    | none =>
      rw [halloc] at h
      cases h
      refine ⟨hi, rfl, fun _ hp => hp, fun hfalse => absurd hfalse (by decide),
        fun _ hne => ?_⟩
      rw [State.allocCont] at halloc
      split at halloc
      · rename_i hnil
        exact absurd hnil hne
      · cases halloc
    | some r =>
      obtain ⟨c, s₁⟩ := r
      rw [halloc] at h
      obtain ⟨hi₁, hhandles₁, hread₁⟩ := hi.allocCont halloc
      rcases hrest : s₁.allocConts n with ⟨s₂, cs₂, all₂⟩
      simp only [hrest] at h
      cases h
      obtain ⟨hi₂, hhandles₂, hread₂, hlen, -⟩ := ih hi₁ hrest
      have hperm : (c :: cs₂ ++ reserved).Perm (cs₂ ++ c :: reserved) := perm_middle.symm
      obtain ⟨hi₃, hread₃⟩ := hi₂.reorder hperm
      exact ⟨hi₃, hhandles₂.trans hhandles₁, fun p hp => hread₃ p (hread₂ p (hread₁ p hp)),
        fun htrue => congrArg Nat.succ (hlen htrue), fun _ _ => cons_ne_nil _ _⟩

/-- The loop that attaches leaves nothing reserved. -/
theorem State.Inv.attachEach (cs : List Nat) :
    ∀ {s : State} {i : Nat} {fs : List Nat}, s.Inv (cs ++ []) → cs.length = fs.length →
      out ∈ s.handles → (∀ f ∈ fs, f ∈ s.handles ∧ f ≠ out) → s.Unread (cs ++ []) out →
      (State.attachEach kind out s i cs fs).1.Inv [] := by
  induction cs with
  | nil =>
    intro s i fs hi _ _ _ _
    rw [State.attachEach]
    · exact hi
    · intro _ _ _ _ hnil
      cases hnil
  | cons c cs ih =>
    intro s i fs hi hlen hout hfs hunread
    cases fs with
    | nil => cases hlen
    | cons f fs =>
      obtain ⟨hf, hne⟩ := hfs f mem_cons_self
      rw [State.attachEach]
      cases hattach : (s.setCont c ⟨kind, none, f, out, i⟩).attach c f with
      | none =>
        obtain ⟨hi₁, hout₁, hunread₁⟩ := hi.undo hout hunread (x := ⟨kind, none, f, out, i⟩) rfl
        obtain ⟨hi₂, hhandles₂, hread₂⟩ := State.Inv.freeConts cs hi₁
        simp only
        refine hi₂.dropHandle ?_ (hread₂ out hunread₁)
        rw [hhandles₂]
        exact hout₁
      | some s₁ =>
        obtain ⟨hset, hkeep⟩ := State.Inv.setCn (x := ⟨kind, none, f, out, i⟩) hi
        have houthandle := hi.handle hout
        obtain ⟨hi₁, hhandles₁, -, hread₁⟩ := hset.attach (update_self _ _ _)
          ⟨hi.handle hf, ⟨houthandle.1, houthandle.2.1⟩, hne⟩ hattach
        have hhandles₁ : s₁.handles = s.handles := hhandles₁
        refine ih hi₁ (Nat.succ.inj hlen) ?_ (fun f' hf' => ?_)
          (hread₁ out (Ne.symm hne) (hkeep out hunread))
        · rw [hhandles₁]
          exact hout
        · rw [hhandles₁]
          exact hfs f' (mem_cons_of_mem f hf')

/-- `All` and `Race` keep the invariant, if they get a continuation at all. -/
theorem State.Inv.combine {comb : Comb} {fs : List Nat} (hi : s.Inv [])
    (hfs : ∀ f ∈ fs, f ∈ s.handles)
    (hfree : fs.length = 0 ∨ fs.length > maxAllSize ∨ s.shFree = [] ∨ s.cnFree ≠ []) :
    (s.combine kind comb fs).1.Inv [] := by
  rw [State.combine]
  split
  · exact hi
  rename_i hsize
  rw [not_or] at hsize
  cases hcreate : s.promiseCreate with
  | none => exact hi
  | some r =>
    obtain ⟨out, s₁⟩ := r
    obtain ⟨hi₁, hhandles₁, hfresh, hunread₁⟩ := hi.promiseCreate hcreate
    have hcnFree : s.cnFree ≠ [] := by
      rcases hfree with hzero | hlarge | hnil | hne
      · exact absurd hzero hsize.1
      · exact absurd hlarge hsize.2
      · rw [State.promiseCreate, State.allocShared, hnil] at hcreate
        cases hcreate
      · exact hne
    have hcn : s₁.cnFree = s.cnFree := by
      rw [State.promiseCreate, State.allocShared] at hcreate
      split at hcreate
      · cases hcreate
      · obtain ⟨-, rfl⟩ := Prod.mk.inj (Option.some.inj hcreate)
        rfl
    have hcomb : (s₁.modSh out fun x => { x with comb := comb }).Inv [] := hi₁.modSh rfl rfl
    simp only
    rcases halloc : (s₁.modSh out fun x => { x with comb := comb }).allocConts fs.length with
      ⟨s₂, cs, all⟩
    obtain ⟨hi₂, hhandles₂, hread₂, hlen, hsome⟩ := hcomb.allocConts fs.length halloc
    have hunread₂ := hread₂ out hunread₁
    have hhandles₂ : s₂.handles = out :: s.handles := hhandles₂.trans hhandles₁
    have hout₂ : out ∈ s₂.handles := by
      rw [hhandles₂]
      exact mem_cons_self
    cases all with
    | true =>
      simp only [if_true]
      refine hi₂.attachEach cs (hlen rfl) hout₂ (fun f hf => ⟨?_, fun heq => ?_⟩) hunread₂
      · rw [hhandles₂]
        exact mem_cons_of_mem out (hfs f hf)
      · exact hfresh (heq ▸ hfs f hf)
    | false =>
      have hne : cs ≠ [] := hsome rfl (by rw [← hcn] at hcnFree; exact hcnFree)
      obtain ⟨hi₃, hhandles₃, hread₃⟩ := State.Inv.freeConts cs hi₂
      have hnot : (s₂.broken || cs.isEmpty) = s₂.broken := by
        rw [isEmpty_eq_false_iff.mpr hne, Bool.or_false]
      have hsame : { s₂.freeConts cs with broken := s₂.broken || cs.isEmpty }.Inv [] :=
        { hi₃ with
          notBroken := hnot.trans hi₂.notBroken }
      simp only [Bool.false_eq_true, if_false]
      have hcombNone := State.Inv.modSh (p := out) (f := fun x => { x with comb := .none })
        hsame rfl rfl
      refine hcombNone.dropHandle ?_ (hread₃ out hunread₂)
      change out ∈ (s₂.freeConts cs).handles
      rw [hhandles₃]
      exact hout₂

end Chain

/-! ## Settling -/

section Settle

variable {s s' : State} {p : Nat}

/-- What settling a shared state can change. -/
structure State.Settles (s s' : State) (p : Nat) : Prop where
  inv : s'.Inv []
  running : s'.running = s.running
  shFree : s'.shFree = s.shFree
  handles : s'.handles = s.handles
  refCount : ∀ q, (s'.sh q).refCount = (s.sh q).refCount
  conts : (s.sh p).conts = [] → (s'.sh p).conts = []
  awaited : ∀ q, s'.Awaited q → s.Awaited q ∨ q = p ∧ (s.sh p).conts ≠ []

theorem State.Settles.refl (hi : s.Inv []) (p : Nat) : s.Settles s p :=
  ⟨hi, rfl, rfl, rfl, fun _ => rfl, fun h => h, fun _ hq => .inl hq⟩

theorem State.Settles.trans {s'' : State} (h : s.Settles s' p) (h' : s'.Settles s'' p) :
    s.Settles s'' p where
  inv := h'.inv
  running := h'.running.trans h.running
  shFree := h'.shFree.trans h.shFree
  handles := h'.handles.trans h.handles
  refCount q := (h'.refCount q).trans (h.refCount q)
  conts hnil := h'.conts (h.conts hnil)
  awaited q hq := by
    rcases h'.awaited q hq with hq | ⟨rfl, hne⟩
    · exact h.awaited q hq
    · exact .inr ⟨rfl, fun hnil => hne (h.conts hnil)⟩

/-- Other fields of a shared state can be set. -/
theorem State.Settles.modSh (hi : s.Inv []) {f : Shared → Shared}
    (hconts : (f (s.sh p)).conts = (s.sh p).conts)
    (hcount : (f (s.sh p)).refCount = (s.sh p).refCount) : s.Settles (s.modSh p f) p where
  inv := hi.modSh hconts hcount
  running := rfl
  shFree := rfl
  handles := rfl
  refCount := modSh_keeps Shared.refCount hcount
  conts hnil := by rw [modSh_sh_self, hconts, hnil]
  awaited _ hq := .inl hq

theorem enqueueAll_eq (cs : List Nat) : ∀ s : State, ∃ taken rest, cs = taken ++ rest ∧
    s.enqueueAll cs = ({ s with queue := s.queue ++ taken }, rest) := by
  induction cs with
  | nil =>
    intro s
    refine ⟨[], [], rfl, ?_⟩
    rw [State.enqueueAll, append_nil]
  | cons c cs ih =>
    intro s
    rw [State.enqueueAll, State.enqueue]
    split
    · rename_i hnone
      split at hnone
      · refine ⟨[], c :: cs, rfl, ?_⟩
        rw [append_nil]
      · cases hnone
    · rename_i s' hsome
      split at hsome
      · cases hsome
      · obtain rfl := Option.some.inj hsome
        obtain ⟨taken, rest, hcs, heq⟩ := ih { s with queue := s.queue ++ [c] }
        refine ⟨c :: taken, rest, by rw [hcs]; rfl, ?_⟩
        rw [heq, append_assoc]
        rfl

theorem enqueueAll_snd_eq_nil (cs : List Nat) : ∀ s : State,
    (s.enqueueAll cs).2 = [] ↔ cs.length ≤ s.cap - s.queue.length := by
  induction cs with
  | nil =>
    intro s
    simp [State.enqueueAll]
  | cons c cs ih =>
    intro s
    rw [State.enqueueAll, State.enqueue, length_cons]
    by_cases hfull : s.queue.length ≥ s.cap
    · rw [if_pos hfull]
      simp only [cons_ne_nil, false_iff]
      omega
    · rw [if_neg hfull]
      refine (ih _).trans ?_
      simp only [length_append, length_singleton]
      omega

theorem drainConts_eq (s : State) (p : Nat) : ∃ taken rest, (s.sh p).conts = taken ++ rest ∧
    (s.drainConts p).1 =
      { s.modSh p fun x => { x with conts := rest } with queue := s.queue ++ taken } := by
  obtain ⟨taken, rest, hcs, heq⟩ :=
    enqueueAll_eq (s.sh p).conts (s.modSh p fun x => { x with conts := [] })
  refine ⟨taken, rest, hcs, ?_⟩
  rw [State.drainConts, heq]
  by_cases hrest : rest = []
  · rw [hrest, if_pos rfl]
    rfl
  · rw [if_neg hrest]
    simp only [State.modSh, update_self, update_idem]

/-- Draining keeps the invariant: what is queued now reads a shared state with a reference. -/
theorem State.Settles.drainConts (hi : s.Inv []) (hp : 0 < (s.sh p).refCount) :
    s.Settles (s.drainConts p).1 p := by
  obtain ⟨taken, rest, hconts, heq⟩ := drainConts_eq s p
  rw [heq]
  have hsh : ∀ q, ((s.modSh p fun x => { x with conts := rest }).sh q).conts =
      if q = p then rest else (s.sh q).conts := by
    intro q
    by_cases hq : q = p
    · rw [if_pos hq, hq, modSh_sh_self]
    · rw [if_neg hq, modSh_sh_of_ne hq]
  have href : ∀ q, ((s.modSh p fun x => { x with conts := rest }).sh q).refCount =
      (s.sh q).refCount := modSh_keeps Shared.refCount rfl
  have hsub : ∀ q, ∀ c ∈ ((s.modSh p fun x => { x with conts := rest }).sh q).conts,
      c ∈ (s.sh q).conts ∧ c ∉ taken := by
    intro q c hc
    rw [hsh q] at hc
    split at hc
    · rename_i hq
      rw [hq, hconts]
      have hnodup := hi.contsNodup p
      rw [hconts] at hnodup
      exact ⟨mem_append_right _ hc,
        fun hmem => (nodup_append.mp hnodup).2.2 c hmem c hc rfl⟩
    · rename_i hq
      refine ⟨hc, fun hmem => ?_⟩
      have hin := (hi.attached q c hc).2.2
      have htaken := (hi.attached p c (hconts ▸ mem_append_left _ hmem)).2.2
      exact hq (hin.symm.trans htaken)
  have hmem : ∀ c, c ∈ (s.queue ++ taken) ++ s.executed ↔
      c ∈ taken ∨ c ∈ s.queue ++ s.executed := by
    intro c
    rw [mem_append, mem_append, mem_append]
    tauto
  have htakenOf : ∀ c ∈ taken, c ∈ (s.sh p).conts := fun c hc =>
    hconts ▸ mem_append_left _ hc
  have hperm : (s.cnFree ++ ((s.queue ++ taken) ++ s.executed)).Perm
      (taken ++ (s.cnFree ++ (s.queue ++ s.executed))) := by
    rw [append_assoc s.queue, ← append_assoc s.cnFree, ← append_assoc s.cnFree s.queue]
    refine (perm_append_comm_assoc _ _ _).trans ?_
    exact .refl _
  have hdisjoint : (taken ++ (s.cnFree ++ (s.queue ++ s.executed))).Nodup := by
    rw [nodup_append]
    have hnodup := hi.contsNodup p
    rw [hconts] at hnodup
    refine ⟨(nodup_append.mp hnodup).1, hi.located, fun a ha b hb heq => ?_⟩
    obtain ⟨hl, hn, -⟩ := hi.attached p a (htakenOf a ha)
    rw [← heq] at hb
    rcases mem_append.mp hb with hfree | hrest
    · exact hl.2.1 hfree
    · exact hn hrest
  have hawaited : ∀ q, (∃ c ∈ (s.queue ++ taken) ++ s.executed, (s.cn c).input = q) →
      s.Awaited q ∨ q = p ∧ (s.sh p).conts ≠ [] := by
    rintro q ⟨c, hc, hin⟩
    rcases (hmem c).mp hc with htaken | hold
    · have hcont := htakenOf c htaken
      refine .inr ⟨hin.symm.trans (hi.attached p c hcont).2.2, fun hnil => ?_⟩
      rw [hnil] at hcont
      cases hcont
    · exact .inl ⟨c, hold, hin⟩
  refine ⟨?_, rfl, rfl, rfl, href, fun hnil => ?_, hawaited⟩
  · refine
      { hi with
        located := hperm.nodup_iff.mpr hdisjoint
        locatedLt := fun c hc => ?_
        attached := fun q c hc => ?_
        contsNodup := fun q => ?_
        placed := fun c hc => ?_
        free := fun q hq => ?_
        count := fun q => (href q).trans (hi.count q)
        awaited := fun q hq => ?_ }
    · rcases mem_append.mp (hperm.mem_iff.mp hc) with htaken | hold
      · exact (hi.attached p c (htakenOf c htaken)).1.1
      · exact hi.locatedLt c hold
    · obtain ⟨hc, hnot⟩ := hsub q c hc
      obtain ⟨hl, hn, hin⟩ := hi.attached q c hc
      exact ⟨hl, fun hin' => ((hmem c).mp hin').elim hnot hn, hin⟩
    · rw [hsh q]
      split
      · have hnodup := hi.contsNodup p
        rw [hconts] at hnodup
        exact (nodup_append.mp hnodup).2.1
      · exact hi.contsNodup q
    · rcases hi.placed c hc with hold | hattached
      · exact .inl ((hmem c).mpr (.inr hold))
      · rw [hsh]
        change _ ∨ c ∈ if (s.cn c).input = p then rest else _
        by_cases hin : (s.cn c).input = p
        · rw [hin, hconts] at hattached
          rw [if_pos hin]
          rcases mem_append.mp hattached with htaken | hrest
          · exact .inl ((hmem c).mpr (.inl htaken))
          · exact .inr hrest
        · rw [if_neg hin]
          exact .inr hattached
    · obtain ⟨hnil, hzero, hhandles⟩ := hi.free q hq
      have hne : q ≠ p := by
        rintro rfl
        omega
      rw [hsh q, href q, if_neg hne]
      exact ⟨hnil, hzero, hhandles⟩
    · rw [href q]
      rcases hawaited q hq with hold | ⟨rfl, -⟩
      · exact hi.awaited q hold
      · exact hp
  · change ((s.modSh p fun x => { x with conts := rest }).sh p).conts = []
    rw [hsh p, if_pos rfl]
    rw [hnil] at hconts
    exact (append_eq_nil_iff.mp hconts.symm).2

theorem State.Settles.settleWith (hi : s.Inv []) (hp : 0 < (s.sh p).refCount) (res : Result) :
    s.Settles (s.settleWith p res).1 p := by
  rw [State.settleWith]
  split
  · exact .refl hi p
  · have hset : s.Settles (s.modSh p fun x => { x with fate := res.fate, res := res }) p :=
      .modSh hi rfl rfl
    refine hset.trans (.drainConts hset.inv ?_)
    rw [hset.refCount p]
    exact hp

/-- The output of a continuation is settled or left, after a change of what it owns for `All` or
`Race`. -/
theorem settleOut_cases (s : State) (r : Running) (outRes : Result) : ∃ comb,
    s.settleOut r outRes = s.modSh r.output (fun x => { x with comb := comb }) ∨
      ∃ res, s.settleOut r outRes =
        ((s.modSh r.output fun x => { x with comb := comb }).settleWith r.output res).1 := by
  have hself : s.modSh r.output (fun x => { x with comb := (s.sh r.output).comb }) = s := by
    rw [State.modSh, update_eq_self]
  rw [State.settleOut]
  split
  · exact ⟨_, .inr ⟨outRes, by rw [hself]⟩⟩
  · exact ⟨_, .inr ⟨outRes, by rw [hself]⟩⟩
  · exact ⟨_, .inr ⟨r.inRes, by rw [hself]⟩⟩
  · rw [State.handleAll]
    split
    · split
      · exact ⟨_, .inl hself.symm⟩
      split
      · simp only
        split
        · exact ⟨_, .inr ⟨_, rfl⟩⟩
        · exact ⟨_, .inl rfl⟩
      · exact ⟨_, .inr ⟨_, rfl⟩⟩
    · exact ⟨_, .inl hself.symm⟩
  · rw [State.handleRace]
    split
    · split
      · exact ⟨_, .inl hself.symm⟩
      · exact ⟨_, .inr ⟨_, rfl⟩⟩
    · exact ⟨_, .inl hself.symm⟩

/-- Settling the output of a continuation, which has a reference. -/
theorem State.Settles.settleOut (hi : s.Inv []) {r : Running}
    (hp : 0 < (s.sh r.output).refCount) (outRes : Result) :
    s.Settles (s.settleOut r outRes) r.output := by
  obtain ⟨comb, heq⟩ := settleOut_cases s r outRes
  have hset : s.Settles (s.modSh r.output fun x => { x with comb := comb }) r.output :=
    .modSh hi rfl rfl
  obtain heq | ⟨res, heq⟩ := heq
  · rw [heq]
    exact hset
  · rw [heq]
    refine hset.trans (.settleWith hset.inv ?_ res)
    rw [hset.refCount]
    exact hp

end Settle

/-! ## Executing -/

section Execute

variable {s : State} {r : Running} {rs : List Running}

/-- An executed continuation can end: if it has the last reference to its output, nothing reads
that. -/
def State.CanFinish (s : State) (r : Running) : Prop :=
  (s.sh r.output).refCount = 1 → (s.sh r.output).conts = [] ∧ ¬ s.Awaited r.output

/-- An executed continuation, the ends of which are used. -/
theorem State.Inv.executedCont (hi : s.Inv []) (hrun : s.running = r :: rs) :
    s.Live [] r.cont ∧ r.input ≠ r.output ∧ (r.input < poolSh ∧ r.input ∉ s.shFree) ∧
      (r.output < poolSh ∧ r.output ∉ s.shFree) ∧ r.cont ∈ s.holders [] r.output := by
  have hmem : r ∈ s.running := by
    rw [hrun]
    exact mem_cons_self
  have hlive := hi.live (mem_append_right s.queue (mem_map_of_mem hmem))
  obtain ⟨hin, hout⟩ := hi.runs r hmem
  obtain ⟨hne, hends⟩ := hi.ends r.cont hlive
  rw [hin, hout] at hne hends
  refine ⟨hlive, hne, hends r.input (.inl rfl), hends r.output (.inr rfl), ?_⟩
  exact Finset.mem_filter.mpr ⟨Finset.mem_range.mpr hlive.1, hlive.2.1, hlive.2.2, hout⟩

/-- The continuation is freed, and its reference is given back. -/
theorem State.Inv.freeExecuted (hi : s.Inv []) (hrun : s.running = r :: rs)
    (hlast : (s.sh r.output).refCount = 1 → ¬ s.Awaited r.output) :
    { (s.freeCont r.cont).decRef r.output with running := rs }.Inv [] := by
  obtain ⟨hlive, -, -, hout, hholder⟩ := hi.executedCont hrun
  have hfields := decRef_fields (s.freeCont r.cont) r.output
  have hexecuted : s.executed = r.cont :: rs.map Running.cont := by
    rw [State.executed, hrun]
    rfl
  have hperm : (r.cont :: s.cnFree ++ (s.queue ++ rs.map Running.cont)).Perm
      (s.cnFree ++ (s.queue ++ s.executed)) := by
    rw [hexecuted, ← append_assoc, ← append_assoc s.cnFree]
    exact perm_middle.symm
  have hliveOf : ∀ c, s.Live [] c → c ≠ r.cont → (s.freeCont r.cont).Live [] c :=
    fun c hc hne => ⟨hc.1, fun hmem => (mem_cons.mp hmem).elim hne hc.2.1, hc.2.2⟩
  have hliveBack : ∀ c, (s.freeCont r.cont).Live [] c → s.Live [] c ∧ c ≠ r.cont :=
    fun c hc => ⟨⟨hc.1, fun hmem => hc.2.1 (mem_cons_of_mem _ hmem), hc.2.2⟩,
      fun heq => hc.2.1 (heq ▸ mem_cons_self)⟩
  have hholders : ∀ q, (s.freeCont r.cont).holders [] q = (s.holders [] q).erase r.cont := by
    intro q
    refine Finset.ext fun c => ?_
    rw [Finset.mem_erase, State.holders, State.holders, Finset.mem_filter, Finset.mem_filter]
    constructor
    · rintro ⟨hrange, hfree, hrest⟩
      exact ⟨fun heq => hfree (heq ▸ mem_cons_self), hrange,
        fun hmem => hfree (mem_cons_of_mem _ hmem), hrest⟩
    · rintro ⟨hne, hrange, hfree, hrest⟩
      exact ⟨hrange, fun hmem => (mem_cons.mp hmem).elim hne hfree, hrest⟩
  have hsub : ∀ c ∈ s.queue ++ rs.map Running.cont, c ∈ s.queue ++ s.executed := by
    intro c hc
    rw [hexecuted]
    rcases mem_append.mp hc with hq | hr
    · exact mem_append_left _ hq
    · exact mem_append_right _ (mem_cons_of_mem _ hr)
  refine
    { hi with
      located := hperm.nodup_iff.mpr hi.located
      locatedLt := fun c hc => hi.locatedLt c (hperm.mem_iff.mp hc)
      attached := fun q c hc => ?_
      contsNodup := fun q => ?_
      placed := fun c hc => ?_
      runs := fun r' hr' => ?_
      free := fun q hq => ?_
      ends := fun c hc => hi.ends c (hliveBack c hc).1
      count := fun q => ?_
      awaited := fun q hq => ?_ }
  · have hc : c ∈ (s.sh q).conts := (hfields q).1 ▸ hc
    obtain ⟨hl, hn, hin⟩ := hi.attached q c hc
    refine ⟨hliveOf c hl fun heq => hn ?_, fun hmem => hn (hsub c hmem), hin⟩
    rw [heq, hexecuted]
    exact mem_append_right _ mem_cons_self
  · simp only [(hfields q).1]
    exact hi.contsNodup q
  · obtain ⟨hl, hne⟩ := hliveBack c hc
    simp only [(hfields _).1]
    rcases hi.placed c hl with hmem | hmem
    · left
      rw [hexecuted] at hmem
      rcases mem_append.mp hmem with hq | hr
      · exact mem_append_left _ hq
      · exact mem_append_right _ ((mem_cons.mp hr).resolve_left hne)
    · exact .inr hmem
  · refine hi.runs r' ?_
    rw [hrun]
    exact mem_cons_of_mem r hr'
  · obtain ⟨hconts, hcount, hhandles⟩ := hi.free q hq
    have hconts : ((s.freeCont r.cont).sh q).conts = [] := hconts
    have hcount : ((s.freeCont r.cont).sh q).refCount = 0 := hcount
    simp only [hfields q, hconts, hcount, Nat.zero_sub]
    exact ⟨trivial, trivial, hhandles⟩
  · simp only [(hfields q).2]
    change (s.sh q).refCount - _ = s.handles.count q + ((s.freeCont r.cont).holders [] q).card
    have hcount := hi.count q
    rw [hholders q]
    by_cases hq : q = r.output
    · rw [← hq] at hholder
      have hpos := Finset.card_pos.mpr ⟨_, hholder⟩
      rw [if_pos hq, Finset.card_erase_of_mem hholder]
      omega
    · have hnot : r.cont ∉ s.holders [] q := by
        intro hmem
        have hthis := (Finset.mem_filter.mp hmem).2.2.2
        have hthat := (Finset.mem_filter.mp hholder).2.2.2
        exact hq (hthis.symm.trans hthat)
      rw [if_neg hq, Finset.erase_eq_of_notMem hnot, Nat.sub_zero]
      exact hcount
  · simp only [(hfields q).2]
    change 0 < (s.sh q).refCount - _
    obtain ⟨c, hc, hin⟩ := hq
    have hold : s.Awaited q := ⟨c, hsub c hc, hin⟩
    have hpos := hi.awaited q hold
    by_cases heq : q = r.output
    · rw [if_pos heq]
      rw [heq] at hold hpos ⊢
      have hne : (s.sh r.output).refCount ≠ 1 := fun hone => hlast hone hold
      omega
    · rw [if_neg heq]
      exact hpos

theorem tryReclaim_shFree (s : State) (p : Nat) :
    ∀ q ∈ (s.tryReclaim p).shFree, q = p ∨ q ∈ s.shFree := by
  rw [State.tryReclaim]
  split
  · exact fun q hq => .inr hq
  split
  · exact fun q hq => .inr hq
  · exact fun q hq => mem_cons.mp hq

/-- The last executed continuation ends. -/
theorem State.Inv.finish (hi : s.Inv []) (hrun : s.running = r :: rs) (hcan : s.CanFinish r)
    (outRes : Result) : (s.finish outRes).Inv [] := by
  have hpos : 0 < (s.sh r.output).refCount := by
    have hholder := (hi.executedCont hrun).2.2.2.2
    have hcard := Finset.card_pos.mpr ⟨_, hholder⟩
    rw [hi.count r.output]
    omega
  have hsettle : s.Settles (s.settleOut r outRes) r.output := .settleOut hi hpos outRes
  have heq : s.finish outRes =
      { (s.settleOut r outRes).cleanup r with running := rs } := by
    rw [State.finish, hrun]
  rw [heq]
  generalize s.settleOut r outRes = s₁ at hsettle
  have hrun₁ : s₁.running = r :: rs := hsettle.running.trans hrun
  have hpos₁ : 0 < ((s₁.freeCont r.cont).sh r.output).refCount := by
    change 0 < (s₁.sh r.output).refCount
    rw [hsettle.refCount]
    exact hpos
  obtain ⟨-, hne, hin, hout, -⟩ := hsettle.inv.executedCont hrun₁
  rw [State.cleanup, release_eq hpos₁, tryReclaim_running, tryReclaim_running]
  have hfreed := hsettle.inv.freeExecuted hrun₁ fun hone hawaited => by
    rw [hsettle.refCount] at hone
    obtain ⟨hnil, hnot⟩ := hcan hone
    rcases hsettle.awaited _ hawaited with hold | ⟨-, hconts⟩
    · exact hnot hold
    · exact hconts hnil
  refine (hfreed.tryReclaim hout.1 hout.2).tryReclaim hin.1 fun hmem => ?_
  rcases tryReclaim_shFree _ _ _ hmem with heq | hold
  · exact hne heq
  · exact hin.2 hold

/-- The head of the queue is executed. -/
theorem State.Inv.startCont (hi : s.Inv []) {c : Nat} {queue : List Nat}
    (hqueue : s.queue = c :: queue) :
    { s with queue := queue, running := s.runningOf c :: s.running }.Inv [] := by
  have hperm : (queue ++ c :: s.executed).Perm (s.queue ++ s.executed) := by
    rw [hqueue]
    exact perm_middle
  refine
    { hi with
      located := (hperm.append_left s.cnFree).nodup_iff.mpr hi.located
      locatedLt := fun c' hc' => hi.locatedLt c' ((hperm.append_left s.cnFree).mem_iff.mp hc')
      attached := fun p c' hc' => ?_
      placed := fun c' hc' => ?_
      runs := fun r' hr' => ?_
      awaited := fun p hp => ?_ }
  · obtain ⟨hl, hn, hin⟩ := hi.attached p c' hc'
    exact ⟨hl, fun hmem => hn (hperm.mem_iff.mp hmem), hin⟩
  · rcases hi.placed c' hc' with hmem | hmem
    · exact .inl (hperm.mem_iff.mpr hmem)
    · exact .inr hmem
  · rcases mem_cons.mp hr' with rfl | hr'
    · exact ⟨rfl, rfl⟩
    · exact hi.runs r' hr'
  · obtain ⟨c', hc', hin⟩ := hp
    exact hi.awaited p ⟨c', hperm.mem_iff.mp hc', hin⟩

end Execute

/-! ## Runs -/

/-- No slot is free twice or while it is used, and the free lists fit their arrays. -/
structure State.Sound (s : State) : Prop where
  once : s.shFree.Nodup
  tops : s.shFree.length ≤ poolSh ∧ s.cnFree.length ≤ poolCn
  unused : ∀ p ∈ s.shFree, p ∉ s.handles ∧
    ∀ c, (c ∈ s.queue ∨ ∃ q, c ∈ (s.sh q).conts) → (s.cn c).input ≠ p ∧ (s.cn c).output ≠ p
  notBroken : s.broken = false

/-- A step does not take the last reference of a shared state for which a continuation is queued or
executed, or attached when its own continuation ends; and `All` and `Race` get a continuation. -/
def State.Ok (s : State) : Op → Prop
  | .release h => (s.sh h).refCount = 1 → ¬ s.Awaited h
  | .finish _ => ∀ r ∈ s.running.head?, s.CanFinish r
  | .pump => ∀ c ∈ s.queue.head?, s.calls c = false → s.CanFinish (s.runningOf c)
  | .all fs | .race fs =>
    fs.length = 0 ∨ fs.length > maxAllSize ∨ s.shFree = [] ∨ s.cnFree ≠ []
  | _ => True

instance (s : State) (p : Nat) : Decidable (s.Awaited p) :=
  inferInstanceAs (Decidable (∃ c ∈ s.queue ++ s.executed, (s.cn c).input = p))

instance (s : State) (r : Running) : Decidable (s.CanFinish r) :=
  inferInstanceAs (Decidable ((s.sh r.output).refCount = 1 →
    (s.sh r.output).conts = [] ∧ ¬ s.Awaited r.output))

instance (s : State) : (op : Op) → Decidable (s.Ok op)
  | .release h => inferInstanceAs (Decidable ((s.sh h).refCount = 1 → ¬ s.Awaited h))
  | .finish _ => inferInstanceAs (Decidable (∀ r ∈ s.running.head?, s.CanFinish r))
  | .pump => inferInstanceAs (Decidable (∀ c ∈ s.queue.head?, s.calls c = false →
      s.CanFinish (s.runningOf c)))
  | .all fs | .race fs => inferInstanceAs (Decidable (fs.length = 0 ∨ fs.length > maxAllSize ∨
      s.shFree = [] ∨ s.cnFree ≠ []))
  | .promiseCreate | .resolve _ _ | .reject _ _ | .map _ _ | .onReject _ _ | .onSettle _ _ =>
    .isTrue trivial

section Runs

variable {s s' : State} {op : Op}

theorem State.Inv.sound (hi : s.Inv []) : s.Sound where
  once := hi.shNodup
  tops := by
    have hsub : s.cnFree.Nodup :=
      (nodup_append.mp (nodup_append.mp hi.located).2.1).1
    have hlt : ∀ {l : List Nat} {n : Nat}, l.Nodup → (∀ a ∈ l, a < n) → l.length ≤ n := by
      intro l n hnodup hlt
      have hle := (List.Nodup.subperm hnodup fun a ha => mem_range.mpr (hlt a ha)).length_le
      rw [length_range] at hle
      exact hle
    exact ⟨hlt hi.shNodup hi.shLt,
      hlt hsub fun c hc =>
        hi.locatedLt c (mem_append_right [] (mem_append_left _ hc))⟩
  unused p hp := by
    refine ⟨(hi.free p hp).2.2, fun c hc => ?_⟩
    have hlive : s.Live [] c := by
      rcases hc with hqueue | ⟨q, hattached⟩
      · exact hi.live (mem_append_left _ hqueue)
      · exact (hi.attached q c hattached).1
    have hends := (hi.ends c hlive).2
    exact ⟨fun heq => (hends p (.inl heq.symm)).2 hp, fun heq => (hends p (.inr heq.symm)).2 hp⟩
  notBroken := hi.notBroken

/-- Pools in which nothing is used. -/
theorem inv_of_unused (hshFree : s.shFree = (List.range poolSh).reverse)
    (hcnFree : s.cnFree = (List.range poolCn).reverse) (hqueue : s.queue = [])
    (hrunning : s.running = []) (hhandles : s.handles = [])
    (hsh : ∀ p, (s.sh p).conts = [] ∧ (s.sh p).refCount = 0) (hbroken : s.broken = false) :
    s.Inv [] := by
  have hnone : ∀ c, ¬ s.Live [] c := by
    rintro c ⟨hlt, hnot, -⟩
    rw [hcnFree, mem_reverse, mem_range] at hnot
    exact hnot hlt
  have hholders : ∀ p, s.holders [] p = ∅ := by
    intro p
    refine Finset.filter_eq_empty_iff.mpr fun c hc h => ?_
    exact hnone c ⟨Finset.mem_range.mp hc, h.1, h.2.1⟩
  have hwaits : s.queue ++ s.executed = [] := by
    rw [State.executed, hqueue, hrunning]
    rfl
  refine
    { shNodup := ?_
      shLt := fun p hp => ?_
      located := ?_
      locatedLt := fun c hc => ?_
      attached := fun p c hc => ?_
      contsNodup := fun p => ?_
      placed := fun c hc => absurd hc (hnone c)
      runs := fun r hr => ?_
      free := fun p _ => ⟨(hsh p).1, (hsh p).2, ?_⟩
      ends := fun c hc => absurd hc (hnone c)
      handlesLt := fun h hh => ?_
      count := fun p => ?_
      awaited := fun p hp => ?_
      notBroken := hbroken }
  · rw [hshFree]
    exact nodup_reverse.mpr nodup_range
  · rw [hshFree] at hp
    exact mem_range.mp (mem_reverse.mp hp)
  · rw [hwaits, append_nil, nil_append, hcnFree]
    exact nodup_reverse.mpr nodup_range
  · rw [hwaits, append_nil, nil_append, hcnFree] at hc
    exact mem_range.mp (mem_reverse.mp hc)
  · rw [(hsh p).1] at hc
    cases hc
  · rw [(hsh p).1]
    exact nodup_nil
  · rw [hrunning] at hr
    cases hr
  · rw [hhandles]
    exact not_mem_nil
  · rw [hhandles] at hh
    cases hh
  · rw [hholders, hhandles, (hsh p).2]
    rfl
  · obtain ⟨c, hc, -⟩ := hp
    rw [hwaits] at hc
    cases hc

theorem inv_init (cap : Nat) : (State.init cap).Inv [] := by
  apply inv_of_unused
  · simp only [State.init]
  · simp only [State.init]
  · rfl
  · rfl
  · rfl
  · exact fun _ => ⟨rfl, rfl⟩
  · rfl

theorem State.Inv.pump (hi : s.Inv [])
    (hok : ∀ c ∈ s.queue.head?, s.calls c = false → s.CanFinish (s.runningOf c)) :
    s.pump.Inv [] := by
  rw [State.pump]
  split
  · exact hi
  · rename_i c queue hqueue
    have hstart := hi.startCont hqueue
    rw [State.executeCont]
    have hcalls : { s with queue := queue }.calls c = s.calls c := rfl
    simp only [hcalls]
    cases hc : s.calls c with
    | true => exact hstart
    | false =>
      refine State.Inv.finish hstart rfl (fun hone => ?_) _
      obtain ⟨hnil, hnot⟩ := hok c (by rw [hqueue]; rfl) hc hone
      refine ⟨hnil, fun ⟨c', hc', hin⟩ => hnot ⟨c', ?_, hin⟩⟩
      rw [hqueue]
      exact perm_middle.mem_iff.mp hc'

/-- A step under the condition keeps the invariant. -/
theorem State.Inv.step (hi : s.Inv []) (hok : s.Ok op) (h : s.step op = some s') :
    s'.Inv [] := by
  cases op with
  | promiseCreate =>
    obtain rfl := Option.some.inj h
    cases hcreate : s.promiseCreate with
    | none => exact hi
    | some r =>
      obtain ⟨out, s₁⟩ := r
      exact (hi.promiseCreate hcreate).1
  | resolve p x | reject p x =>
    rw [State.step, Option.ite_none_right_eq_some] at h
    obtain ⟨hp, h⟩ := h
    obtain rfl := Option.some.inj h
    exact (State.Settles.settleWith hi (hi.handle hp).2.2 _).inv
  | map f fn | onReject f fn | onSettle f fn =>
    rw [State.step, Option.ite_none_right_eq_some] at h
    obtain ⟨hf, h⟩ := h
    obtain rfl := Option.some.inj h
    exact hi.chain hf
  | all fs | race fs =>
    rw [State.step, Option.ite_none_right_eq_some] at h
    obtain ⟨hfs, h⟩ := h
    obtain rfl := Option.some.inj h
    exact hi.combine hfs hok
  | release p =>
    rw [State.step, Option.ite_none_right_eq_some] at h
    obtain ⟨hp, h⟩ := h
    obtain rfl := Option.some.inj h
    exact hi.releaseHandle hp hok
  | pump =>
    obtain rfl := Option.some.inj h
    exact hi.pump hok
  | finish outRes =>
    rw [State.step, Option.ite_none_left_eq_some] at h
    obtain ⟨hne, h⟩ := h
    obtain rfl := Option.some.inj h
    obtain ⟨r, rs, hrun⟩ := exists_cons_of_ne_nil hne
    exact hi.finish hrun (hok r (by rw [hrun]; rfl)) outRes

/-- The states that are reached with steps under a condition, from pools that are initialised. -/
def Reached (ok : State → Op → Prop) (cap : Nat) : State → Prop :=
  GuardedRun (fun s op s' => s.step op = some s') ok fun s => s = State.init cap

theorem inv_of_reached {cap : Nat} (h : Reached State.Ok cap s) : s.Inv [] := by
  apply GuardedRun.invariant h
  · rintro s rfl
    exact inv_init cap
  · exact fun _ _ _ hi hok hstep => hi.step hok hstep

/-- In a run in which all steps meet the condition, the pools are sound. -/
theorem pools_sound {cap : Nat} (h : Reached State.Ok cap s) : s.Sound :=
  (inv_of_reached h).sound

end Runs

/-! ## A release right after settling -/

/-- A run from a state, if all its steps meet a condition. -/
def State.runIf (ok : State → Op → Bool) : State → List Op → Option State
  | s, [] => some s
  | s, op :: ops => if ok s op then (s.step op).bind fun s' => runIf ok s' ops else none

theorem reached_runIf {ok : State → Op → Prop} {test : State → Op → Bool} {cap : Nat}
    (htest : ∀ s op, test s op = true → ok s op) (ops : List Op) :
    ∀ {s s' : State}, Reached ok cap s → s.runIf test ops = some s' → Reached ok cap s' := by
  induction ops with
  | nil =>
    intro s s' h hrun
    obtain rfl := Option.some.inj hrun
    exact h
  | cons op ops ih =>
    intro s s' h hrun
    rw [State.runIf, Option.ite_none_right_eq_some] at hrun
    obtain ⟨hok, hrun⟩ := hrun
    obtain ⟨s₁, hstep, hrun⟩ := Option.bind_eq_some_iff.mp hrun
    exact ih (.step h (htest s op hok) hstep) hrun

/-- A promise with a continuation is settled, and its handle is released after the continuation. -/
theorem pools_sound_pumped : ∃ s, (State.init 8).runIf (fun s op => decide (s.Ok op))
    [.promiseCreate, .map 255 none, .resolve 255 ⟨1, .nil⟩, .pump, .release 255, .release 254] =
      some s ∧ s.Sound := by
  obtain ⟨s, hs⟩ := Option.isSome_iff_exists.mp
    (by decide +kernel : ((State.init 8).runIf (fun s op => decide (s.Ok op))
      [.promiseCreate, .map 255 none, .resolve 255 ⟨1, .nil⟩, .pump, .release 255,
        .release 254]).isSome = true)
  exact ⟨s, hs, pools_sound
    (reached_runIf (fun _ _ => of_decide_eq_true) _ (.start rfl) hs)⟩

/-- A promise with a continuation is settled, and its handle is released before the continuation is
executed. -/
theorem not_sound_released : ¬ ∀ cap s, Reached (fun _ _ => True) cap s → s.Sound := by
  intro hall
  have hrun : ((State.init 8).runIf (fun _ _ => true)
      [.promiseCreate, .map 255 none, .resolve 255 ⟨1, .nil⟩, .release 255]).map
      (fun s => (s.shFree.head?, s.queue, (s.cn 511).input)) = some (some 255, [511], 255) := by
    decide +kernel
  obtain ⟨s, hs, hfields⟩ := Option.map_eq_some_iff.mp hrun
  obtain ⟨hfree, hrest⟩ := Prod.mk.inj hfields
  obtain ⟨hqueue, hinput⟩ := Prod.mk.inj hrest
  have hsound := hall 8 s (reached_runIf (fun _ _ _ => trivial) _ (.start rfl) hs)
  refine ((hsound.unused 255 (mem_of_mem_head? hfree)).2 511 (.inl ?_)).1 hinput
  rw [hqueue]
  exact mem_singleton_self 511

example : (State.init 8).cnFree.length = poolCn := by decide +kernel

end Mx.Futures

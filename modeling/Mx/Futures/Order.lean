import Mx.Futures.Pools

/-!
# The order of continuations

Runs in which no handle is released and neither the pools nor the queue overflow, with what is
attached, executed and returned in them. A shared state is settled once, its continuations are
executed once each and in the order in which they were attached, with its result, and what they
return settles their outputs.
-/

namespace Mx.Futures

open Mx.Core Function List

/-! ## Events -/

/-- What happens in a run: `Resolve` or `Reject` is called, a continuation is attached, it is
executed with the result of its input, and it has a result of its own. A continuation is known by
its output. -/
inductive Event where
  | settled (p : Nat)
  | attached (kind : ContKind) (input output : Nat)
  | started (input output : Nat) (inRes : Result)
  | returned (kind : ContKind) (output : Nat) (inRes cbRes : Result)
  deriving DecidableEq, Repr

/-- The event of a call that attaches a continuation. -/
def State.attachEvents (s : State) (kind : ContKind) (f : Nat) : List Event :=
  (s.shFree.head?.map fun out => .attached kind f out).toList

/-- The events of a step that does not fail. -/
def State.events (s : State) : Op → List Event
  | .resolve p _ | .reject p _ => [.settled p]
  | .map f _ => s.attachEvents .ckThen f
  | .onReject f _ => s.attachEvents .ckCatch f
  | .onSettle f _ => s.attachEvents .ckFinally f
  | .pump =>
    match s.queue with
    | [] => []
    | c :: _ =>
      let r := s.runningOf c
      .started r.input r.output r.inRes ::
        if s.calls c then [] else [.returned r.kind r.output r.inRes (s.ownResult c)]
  | .finish outRes =>
    match s.running with
    | [] => []
    | r :: _ => [.returned r.kind r.output r.inRes outRes]
  | .promiseCreate | .all _ | .race _ | .release _ => []

/-- What was settled by `Resolve` or `Reject`. -/
def settledOf (tr : List Event) : List Nat :=
  tr.filterMap fun
    | .settled p => some p
    | _ => none

/-- The outputs of the continuations that were attached to a shared state, in order. -/
def attachedTo (f : Nat) (tr : List Event) : List Nat :=
  tr.filterMap fun
    | .attached _ input output => if input = f then some output else none
    | _ => none

/-- The outputs of the continuations of a shared state that were executed, in order. -/
def startedOf (f : Nat) (tr : List Event) : List Nat :=
  tr.filterMap fun
    | .started input output _ => if input = f then some output else none
    | _ => none

/-- The outputs of all continuations. -/
def outputsOf (tr : List Event) : List Nat :=
  tr.filterMap fun
    | .attached _ _ output => some output
    | _ => none

/-- The ends of all continuations that were executed, in order. -/
def executedOf (tr : List Event) : List (Nat × Nat) :=
  tr.filterMap fun
    | .started input output _ => some (input, output)
    | _ => none

/-- The ends of all continuations that are queued, in order. -/
def State.waiting (s : State) : List (Nat × Nat) :=
  s.queue.map fun c => ((s.cn c).input, (s.cn c).output)

/-- What a continuation settles its output with, for the result of its input and that of its
callback. -/
def outcome (kind : ContKind) (inRes cbRes : Result) : Result :=
  match kind with
  | .ckThen => cbRes
  | .ckCatch => if inRes.isOk then inRes else cbRes
  | .ckFinally => inRes
  | .ckAll | .ckRace => cbRes

/-! ## Runs -/

/-- There is room in the queue for the continuations of a shared state. -/
def State.Room (s : State) (p : Nat) : Prop :=
  s.queue.length + (s.sh p).conts.length ≤ s.cap

/-- A continuation can be attached: there are slots for it and its output, and room in the queue if
it is queued at once. -/
def State.CanChain (s : State) (f : Nat) : Prop :=
  s.shFree ≠ [] ∧ s.cnFree ≠ [] ∧ ((s.sh f).fate ≠ .pending → s.queue.length < s.cap)

/-- A step of the calls in question, in which nothing overflows. -/
def State.Plain (s : State) : Op → Prop
  | .promiseCreate => s.shFree ≠ []
  | .map f _ | .onReject f _ | .onSettle f _ => s.CanChain f
  | .resolve p _ | .reject p _ => s.Room p
  | .pump => ∀ c ∈ s.queue.head?, s.calls c = false →
      { s with queue := s.queue.tail }.Room (s.cn c).output
  | .finish _ => ∀ r ∈ s.running.head?, s.Room r.output
  | .all _ | .race _ | .release _ => False

/-- One step, with its events. -/
def TracedStep (x : State × List Event) (op : Op) (y : State × List Event) : Prop :=
  x.1.step op = some y.1 ∧ y.2 = x.2 ++ x.1.events op

/-- What is reached from a state by plain steps. -/
def Leads (x : State × List Event) : State × List Event → Prop :=
  GuardedRun TracedStep (fun y op => y.1.Plain op) fun y => y = x

/-- What is reached from pools that are initialised. -/
def Traced (cap : Nat) : State × List Event → Prop := Leads (State.init cap, [])

/-! ## The invariant -/

/-- Where the continuations of a run are, and what became of them. Nothing is settled before its
continuation ends, with exceptions. -/
structure Ordered (s : State) (tr : List Event) (except : List Nat) : Prop where
  inv : s.Inv []
  held : ∀ p < poolSh, p ∉ s.shFree → p ∈ s.handles
  drained : ∀ f, (s.sh f).fate ≠ .pending → (s.sh f).conts = []
  fateRes : ∀ f, (s.sh f).fate ≠ .pending → (s.sh f).fate = (s.sh f).res.fate
  ready : ∀ c ∈ s.queue ++ s.executed, (s.sh (s.cn c).input).fate ≠ .pending
  runs : ∀ r ∈ s.running, (s.cn r.cont).kind = r.kind ∧ r.inRes = (s.sh r.input).res
  known : ∀ c, s.Live [] c → .attached (s.cn c).kind (s.cn c).input (s.cn c).output ∈ tr ∧
    (s.cn c).kind ≠ .ckAll ∧ (s.cn c).kind ≠ .ckRace
  apart : ∀ c c', s.Live [] c → s.Live [] c' → (s.cn c).output = (s.cn c').output → c = c'
  waits : ∀ c, s.Live [] c → (s.cn c).output ∉ except → (s.sh (s.cn c).output).fate = .pending
  history : ∀ f, attachedTo f tr = startedOf f tr ++
    (s.queue.filter (fun c => (s.cn c).input = f) ++ (s.sh f).conts).map fun c => (s.cn c).output
  begun : ∀ f out res, .started f out res ∈ tr →
    f ∈ s.handles ∧ (s.sh f).fate ≠ .pending ∧ (s.sh f).res = res ∧
      ((∃ r ∈ s.running, r.input = f ∧ r.output = out) ∨
        ∃ kind cbRes, .attached kind f out ∈ tr ∧ .returned kind out res cbRes ∈ tr)
  outputs : ∀ out ∈ outputsOf tr, out ∈ s.handles
  unique : (outputsOf tr).Nodup
  closed : ∀ kind out inRes cbRes, .returned kind out inRes cbRes ∈ tr → .settled out ∉ tr →
    out ∈ s.handles ∧ (s.sh out).fate = (outcome kind inRes cbRes).fate ∧
      (s.sh out).res = outcome kind inRes cbRes

section Fields

variable {s : State} {tr : List Event} {except : List Nat}

theorem fate_ne_pending (res : Result) : res.fate ≠ .pending := by
  rw [Result.fate]
  split
  · exact fun h => by cases h
  · exact fun h => by cases h

/-- A handle has a reference. -/
theorem Ordered.referenced (ho : Ordered s tr except) {p : Nat} (hlt : p < poolSh)
    (hused : p ∉ s.shFree) : 0 < (s.sh p).refCount :=
  (ho.inv.handle (ho.held p hlt hused)).2.2

/-- More can be exempted. -/
theorem Ordered.weaken {except' : List Nat} (ho : Ordered s tr except)
    (hsub : ∀ p ∈ except, p ∈ except') : Ordered s tr except' :=
  { ho with
    waits := fun c hc hnot => ho.waits c hc fun hmem => hnot (hsub _ hmem) }

/-- A call of `Resolve` or `Reject` is noted. -/
theorem Ordered.note (ho : Ordered s tr except) (p : Nat) :
    Ordered s (tr ++ [.settled p]) except := by
  have hmem : ∀ e, e ∈ tr → e ∈ tr ++ [.settled p] := fun e he => mem_append_left _ he
  have hback : ∀ e, e ∈ tr ++ [.settled p] → e ≠ .settled p → e ∈ tr := by
    intro e he hne
    rcases mem_append.mp he with he | he
    · exact he
    · exact absurd (mem_singleton.mp he) hne
  have hattached : ∀ f, attachedTo f (tr ++ [.settled p]) = attachedTo f tr := by
    intro f
    simp [attachedTo]
  have hstarted : ∀ f, startedOf f (tr ++ [.settled p]) = startedOf f tr := by
    intro f
    simp [startedOf]
  have houtputs : outputsOf (tr ++ [.settled p]) = outputsOf tr := by
    simp [outputsOf]
  exact
    { ho with
      known := fun c hc => ⟨hmem _ (ho.known c hc).1, (ho.known c hc).2⟩
      history := fun f => by
        rw [hattached, hstarted]
        exact ho.history f
      begun := fun f out res h => by
        obtain ⟨hf, hfate, hres, hrest⟩ := ho.begun f out res (hback _ h (by simp))
        refine ⟨hf, hfate, hres, hrest.imp_right ?_⟩
        rintro ⟨kind, cbRes, ha, hr⟩
        exact ⟨kind, cbRes, hmem _ ha, hmem _ hr⟩
      outputs := houtputs ▸ ho.outputs
      unique := houtputs ▸ ho.unique
      closed := fun kind out inRes cbRes h hnot =>
        ho.closed kind out inRes cbRes (hback _ h (by simp)) fun hin => hnot (hmem _ hin) }

end Fields

/-! ## What is kept -/

/-- What is settled stays settled, and what is queued stays queued until it is executed. -/
structure Onward (x y : State × List Event) : Prop where
  handles : ∀ p ∈ x.1.handles, p ∈ y.1.handles
  settled : ∀ p ∈ x.1.handles, (x.1.sh p).fate ≠ .pending →
    (y.1.sh p).fate = (x.1.sh p).fate ∧ (y.1.sh p).res = (x.1.sh p).res
  fifo : executedOf x.2 ++ x.1.waiting <+: executedOf y.2 ++ y.1.waiting

theorem Onward.refl (x : State × List Event) : Onward x x :=
  ⟨fun _ h => h, fun _ _ _ => ⟨rfl, rfl⟩, prefix_rfl⟩

theorem Onward.trans {x y z : State × List Event} (h : Onward x y) (h' : Onward y z) :
    Onward x z where
  handles p hp := h'.handles p (h.handles p hp)
  settled p hp hfate := by
    obtain ⟨hsame, hres⟩ := h.settled p hp hfate
    rw [← hsame] at hfate
    obtain ⟨hsame', hres'⟩ := h'.settled p (h.handles p hp) hfate
    exact ⟨hsame'.trans hsame, hres'.trans hres⟩
  fifo := h.fifo.trans h'.fifo

/-- Events other than the execution of a continuation do not matter. -/
theorem Onward.events {s : State} {tr evs : List Event} (h : executedOf evs = []) :
    Onward (s, tr) (s, tr ++ evs) where
  handles _ hp := hp
  settled _ _ _ := ⟨rfl, rfl⟩
  fifo := by
    have hnone : executedOf (tr ++ evs) = executedOf tr := by
      rw [executedOf, filterMap_append]
      rw [executedOf] at h
      rw [h, append_nil, executedOf]
    rw [hnone]

/-! ## Settling -/

section Settle

variable {s : State} {tr : List Event} {except : List Nat} {p : Nat} {res : Result}

/-- A shared state is settled, and its continuations are queued. -/
def State.settled (s : State) (p : Nat) (res : Result) : State :=
  if (s.sh p).fate ≠ .pending then s
  else
    { s.modSh p fun x => { x with fate := res.fate, res := res, conts := [] } with
      queue := s.queue ++ (s.sh p).conts }

theorem enqueueAll_of_room (cs : List Nat) {s : State} (h : s.queue.length + cs.length ≤ s.cap) :
    s.enqueueAll cs = ({ s with queue := s.queue ++ cs }, []) := by
  obtain ⟨taken, rest, rfl, heq⟩ := enqueueAll_eq cs s
  have hrest := (enqueueAll_snd_eq_nil (taken ++ rest) s).mpr (by omega)
  rw [heq] at hrest
  obtain rfl : rest = [] := hrest
  rw [heq, append_nil]

theorem settleWith_eq (hroom : s.Room p) : (s.settleWith p res).1 = s.settled p res := by
  rw [State.settleWith, State.settled]
  split
  · rfl
  · have hconts : ((s.modSh p fun x => { x with fate := res.fate, res := res }).sh p).conts =
        (s.sh p).conts := by rw [modSh_sh_self]
    have hall := enqueueAll_of_room (s.sh p).conts
      (s := (s.modSh p fun x => { x with fate := res.fate, res := res }).modSh p
        fun x => { x with conts := [] }) hroom
    rw [State.drainConts, hconts, hall, if_pos rfl]
    simp only [State.modSh, update_self, update_idem]

/-- What is settled stays as it is. -/
theorem settled_sh {q : Nat} (h : (s.sh q).fate ≠ .pending) : (s.settled p res).sh q = s.sh q := by
  rw [State.settled]
  split
  · rfl
  · rename_i hp
    refine update_of_ne (fun heq => hp ?_) _ _
    rw [← heq]
    exact h

theorem Ordered.settled (ho : Ordered s tr except) (hp : 0 < (s.sh p).refCount)
    (hroom : s.Room p) : Ordered (s.settled p res) tr (p :: except) := by
  have hinv : (s.settled p res).Inv [] := by
    rw [← settleWith_eq hroom]
    exact (State.Settles.settleWith ho.inv hp res).inv
  have hkeep : ∀ q, (s.sh q).fate ≠ .pending → (s.settled p res).sh q = s.sh q :=
    fun q hq => settled_sh hq
  by_cases hfate : (s.sh p).fate = .pending
  · have heq : s.settled p res =
        { s.modSh p fun x => { x with fate := res.fate, res := res, conts := [] } with
          queue := s.queue ++ (s.sh p).conts } := if_neg (not_not.mpr hfate)
    have hself : ((s.settled p res).sh p).fate = res.fate ∧
        ((s.settled p res).sh p).conts = [] ∧ ((s.settled p res).sh p).res = res := by
      rw [heq, modSh_sh_self]
      exact ⟨rfl, rfl, rfl⟩
    have hother : ∀ q, q ≠ p → (s.settled p res).sh q = s.sh q := by
      intro q hq
      rw [heq]
      exact update_of_ne hq _ _
    have hqueue : (s.settled p res).queue = s.queue ++ (s.sh p).conts := by rw [heq]
    have hcn : (s.settled p res).cn = s.cn := by rw [heq]; rfl
    have hcnFree : (s.settled p res).cnFree = s.cnFree := by rw [heq]; rfl
    have hshFree : (s.settled p res).shFree = s.shFree := by rw [heq]; rfl
    have hrunning : (s.settled p res).running = s.running := by rw [heq]; rfl
    have hhandles : (s.settled p res).handles = s.handles := by rw [heq]; rfl
    generalize s.settled p res = s' at *
    have hexecuted : s'.executed = s.executed := by rw [State.executed, hrunning, State.executed]
    have hlive : ∀ c, s'.Live [] c → s.Live [] c := by
      intro c hc
      rw [State.Live, hcnFree] at hc
      exact hc
    have hinputs : ∀ c ∈ (s.sh p).conts, (s.cn c).input = p :=
      fun c hc => (ho.inv.attached p c hc).2.2
    exact
      { inv := hinv
        held := fun q hlt hq => by
          rw [hhandles]
          rw [hshFree] at hq
          exact ho.held q hlt hq
        drained := fun f hf => by
          by_cases heq : f = p
          · rw [heq]
            exact hself.2.1
          · rw [hother f heq] at hf ⊢
            exact ho.drained f hf
        fateRes := fun f hf => by
          by_cases heq : f = p
          · rw [heq, hself.1, hself.2.2]
          · rw [hother f heq] at hf ⊢
            exact ho.fateRes f hf
        ready := fun c hc => by
          rw [hqueue, hexecuted, append_assoc, mem_append] at hc
          rw [hcn]
          by_cases heq : (s.cn c).input = p
          · rw [heq, hself.1]
            exact fate_ne_pending res
          · rw [hother _ heq]
            apply ho.ready
            rw [mem_append]
            rcases hc with hc | hc
            · exact .inl hc
            · exact .inr ((mem_append.mp hc).resolve_left fun h => heq (hinputs c h))
        runs := fun r hr => by
          rw [hrunning] at hr
          obtain ⟨hkind, hres⟩ := ho.runs r hr
          have hready := ho.ready r.cont
            (mem_append_right _ (mem_map_of_mem hr))
          rw [(ho.inv.runs r hr).1] at hready
          rw [hcn, hkeep _ hready]
          exact ⟨hkind, hres⟩
        known := fun c hc => by
          rw [hcn]
          exact ho.known c (hlive c hc)
        apart := fun c c' hc hc' => by
          rw [hcn]
          exact ho.apart c c' (hlive c hc) (hlive c' hc')
        waits := fun c hc hnot => by
          rw [hcn] at hnot ⊢
          rw [mem_cons, not_or] at hnot
          rw [hother _ hnot.1]
          exact ho.waits c (hlive c hc) hnot.2
        history := fun f => by
          rw [ho.history f, hcn, hqueue, filter_append]
          by_cases heq : f = p
          · have hall : (s.sh p).conts.filter (fun c => (s.cn c).input = f) = (s.sh p).conts := by
              rw [heq]
              exact filter_eq_self.mpr fun c hc => decide_eq_true (hinputs c hc)
            rw [hall, heq, hself.2.1, append_nil]
          · have hnone : (s.sh p).conts.filter (fun c => (s.cn c).input = f) = [] := by
              refine filter_eq_nil_iff.mpr fun c hc hin => ?_
              exact heq ((of_decide_eq_true hin).symm.trans (hinputs c hc))
            rw [hnone, hother f heq, append_nil]
        begun := fun f out r h => by
          obtain ⟨hf, hpending, hres, hrest⟩ := ho.begun f out r h
          rw [hhandles, hkeep f hpending, hrunning]
          exact ⟨hf, hpending, hres, hrest⟩
        outputs := fun out h => by
          rw [hhandles]
          exact ho.outputs out h
        unique := ho.unique
        closed := fun kind out inRes cbRes h hnot => by
          obtain ⟨hout, hfateOut, hres⟩ := ho.closed kind out inRes cbRes h hnot
          have hpending : (s.sh out).fate ≠ .pending := by
            rw [hfateOut]
            exact fate_ne_pending _
          rw [hhandles, hkeep out hpending]
          exact ⟨hout, hfateOut, hres⟩ }
  · rw [State.settled, if_pos hfate]
    exact ho.weaken fun q hq => mem_cons_of_mem p hq

theorem Onward.settle : Onward (s, tr) (s.settled p res, tr) where
  handles q hq := by
    rw [State.settled]
    split
    · exact hq
    · exact hq
  settled q _ hq := by
    rw [settled_sh hq]
    exact ⟨rfl, rfl⟩
  fifo := by
    rw [State.settled]
    split
    · exact prefix_rfl
    · rw [State.waiting, State.waiting, map_append, ← append_assoc]
      exact prefix_append _ _

end Settle

/-! ## Executing -/

section Execute

variable {s : State} {tr : List Event} {except : List Nat} {r : Running} {rs : List Running}

/-- The head of the queue is executed. -/
theorem Ordered.start {c : Nat} {queue : List Nat} (ho : Ordered s tr except)
    (hqueue : s.queue = c :: queue) :
    Ordered { s with queue := queue, running := s.runningOf c :: s.running }
      (tr ++ [.started (s.cn c).input (s.cn c).output (s.sh (s.cn c).input).res]) except := by
  have hmem : c ∈ s.queue ++ s.executed := by
    rw [hqueue]
    exact mem_cons_self
  obtain ⟨hne, hends⟩ := ho.inv.ends c (ho.inv.live hmem)
  have hinput := hends _ (.inl rfl)
  have hperm : (queue ++ c :: s.executed).Perm (s.queue ++ s.executed) := by
    rw [hqueue]
    exact perm_middle
  have hold : ∀ {e}, e ∈ tr →
      e ∈ tr ++ [.started (s.cn c).input (s.cn c).output (s.sh (s.cn c).input).res] :=
    fun he => mem_append_left _ he
  have hback : ∀ {e}, e ∈ tr ++ [.started (s.cn c).input (s.cn c).output
      (s.sh (s.cn c).input).res] →
      e ∈ tr ∨ e = .started (s.cn c).input (s.cn c).output (s.sh (s.cn c).input).res :=
    fun he => (mem_append.mp he).imp_right mem_singleton.mp
  have houtputs : outputsOf (tr ++ [.started (s.cn c).input (s.cn c).output
      (s.sh (s.cn c).input).res]) = outputsOf tr := by
    simp [outputsOf]
  exact
    { ho with
      inv := ho.inv.startCont hqueue
      ready := fun c' hc' => ho.ready c' (hperm.mem_iff.mp hc')
      runs := fun r hr => by
        rcases mem_cons.mp hr with rfl | hr
        · exact ⟨rfl, rfl⟩
        · exact ho.runs r hr
      known := fun c' hc' => ⟨hold (ho.known c' hc').1, (ho.known c' hc').2⟩
      history := fun f => by
        have hattached : ∀ e, attachedTo f (tr ++ [.started (s.cn c).input (s.cn c).output e]) =
            attachedTo f tr := by
          intro e
          simp [attachedTo]
        have hstarted : ∀ e, startedOf f (tr ++ [.started (s.cn c).input (s.cn c).output e]) =
            startedOf f tr ++ if (s.cn c).input = f then [(s.cn c).output] else [] := by
          intro e
          rw [startedOf, filterMap_append]
          split
          · rename_i hf
            simp [hf, startedOf]
          · rename_i hf
            simp [hf, startedOf]
        rw [hattached, hstarted, ho.history f, hqueue, filter_cons]
        split
        · rename_i hf
          rw [if_pos (of_decide_eq_true hf), append_assoc]
          rfl
        · rename_i hf
          rw [if_neg (fun h => hf (decide_eq_true h)), append_nil]
      begun := fun f out res h => by
        rcases hback h with h | h
        · obtain ⟨hf, hfate, hres, hrest⟩ := ho.begun f out res h
          refine ⟨hf, hfate, hres, ?_⟩
          rcases hrest with ⟨r, hr, hends⟩ | ⟨kind, cbRes, ha, hr⟩
          · exact .inl ⟨r, mem_cons_of_mem _ hr, hends⟩
          · exact .inr ⟨kind, cbRes, hold ha, hold hr⟩
        · cases h
          exact ⟨ho.held _ hinput.1 hinput.2, ho.ready c hmem, rfl,
            .inl ⟨s.runningOf c, mem_cons_self, rfl, rfl⟩⟩
      outputs := fun out h => ho.outputs out (houtputs ▸ h)
      unique := houtputs ▸ ho.unique
      closed := fun kind out inRes cbRes h hnot => by
        rcases hback h with h | h
        · exact ho.closed kind out inRes cbRes h fun hin => hnot (hold hin)
        · cases h }

theorem Onward.start {c : Nat} {queue : List Nat} (hqueue : s.queue = c :: queue) :
    Onward (s, tr) ({ s with queue := queue, running := s.runningOf c :: s.running },
      tr ++ [.started (s.cn c).input (s.cn c).output (s.sh (s.cn c).input).res]) where
  handles _ hp := hp
  settled _ _ _ := ⟨rfl, rfl⟩
  fifo := by
    have hexecuted : ∀ res, executedOf (tr ++ [.started (s.cn c).input (s.cn c).output res]) =
        executedOf tr ++ [((s.cn c).input, (s.cn c).output)] := by
      intro res
      simp [executedOf]
    rw [hexecuted, State.waiting, hqueue, append_assoc]
    exact prefix_rfl

/-- Its output is settled, and the continuation is freed. -/
theorem Ordered.cleanup {outRes : Result} (ho : Ordered s tr (r.output :: except))
    (hrun : s.running = r :: rs)
    (hinv : { (s.freeCont r.cont).decRef r.output with running := rs }.Inv [])
    (hres : .settled r.output ∉ tr → (s.sh r.output).fate = (outcome r.kind r.inRes outRes).fate ∧
      (s.sh r.output).res = outcome r.kind r.inRes outRes) :
    Ordered { (s.freeCont r.cont).decRef r.output with running := rs }
      (tr ++ [.returned r.kind r.output r.inRes outRes]) except := by
  have hmem : r ∈ s.running := by
    rw [hrun]
    exact mem_cons_self
  obtain ⟨hlive, hne, -, hout, -⟩ := ho.inv.executedCont hrun
  obtain ⟨hcnInput, hcnOutput⟩ := ho.inv.runs r hmem
  have hsh : ∀ q, (((s.freeCont r.cont).decRef r.output).sh q).fate = (s.sh q).fate ∧
      (((s.freeCont r.cont).decRef r.output).sh q).res = (s.sh q).res ∧
      (((s.freeCont r.cont).decRef r.output).sh q).conts = (s.sh q).conts :=
    fun q => ⟨modSh_keeps Shared.fate rfl q, modSh_keeps Shared.res rfl q,
      modSh_keeps Shared.conts rfl q⟩
  have hliveBack : ∀ c, State.Live
      { (s.freeCont r.cont).decRef r.output with running := rs } [] c →
      s.Live [] c ∧ c ≠ r.cont :=
    fun c hc => ⟨⟨hc.1, fun hin => hc.2.1 (mem_cons_of_mem _ hin), hc.2.2⟩,
      fun heq => hc.2.1 (heq ▸ mem_cons_self)⟩
  have hwaiting : ∀ c ∈ s.queue ++ rs.map Running.cont, c ∈ s.queue ++ s.executed := by
    intro c hc
    rw [State.executed, hrun]
    rcases mem_append.mp hc with hc | hc
    · exact mem_append_left _ hc
    · exact mem_append_right _ (mem_cons_of_mem _ hc)
  have hold : ∀ {e}, e ∈ tr → e ∈ tr ++ [.returned r.kind r.output r.inRes outRes] :=
    fun he => mem_append_left _ he
  have hback : ∀ {e}, e ∈ tr ++ [.returned r.kind r.output r.inRes outRes] →
      e ∈ tr ∨ e = .returned r.kind r.output r.inRes outRes :=
    fun he => (mem_append.mp he).imp_right mem_singleton.mp
  have houtputs : outputsOf (tr ++ [.returned r.kind r.output r.inRes outRes]) = outputsOf tr := by
    simp [outputsOf]
  exact
    { inv := hinv
      held := ho.held
      drained := fun f hf => by
        rw [(hsh f).1] at hf
        exact (hsh f).2.2.trans (ho.drained f hf)
      fateRes := fun f hf => by
        rw [(hsh f).1] at hf
        rw [(hsh f).1, (hsh f).2.1]
        exact ho.fateRes f hf
      ready := fun c hc => by
        rw [(hsh _).1]
        exact ho.ready c (hwaiting c hc)
      runs := fun r' hr' => by
        rw [(hsh _).2.1]
        refine ho.runs r' ?_
        rw [hrun]
        exact mem_cons_of_mem r hr'
      known := fun c hc => by
        obtain ⟨hknown, hkind⟩ := ho.known c (hliveBack c hc).1
        exact ⟨hold hknown, hkind⟩
      apart := fun c c' hc hc' => ho.apart c c' (hliveBack c hc).1 (hliveBack c' hc').1
      waits := fun c hc hnot => by
        obtain ⟨hc, hother⟩ := hliveBack c hc
        rw [(hsh _).1]
        refine ho.waits c hc fun hin => ?_
        rcases mem_cons.mp hin with heq | hin
        · exact hother (ho.apart c r.cont hc hlive (heq.trans hcnOutput.symm))
        · exact hnot hin
      history := fun f => by
        have hattached : attachedTo f (tr ++ [.returned r.kind r.output r.inRes outRes]) =
            attachedTo f tr := by simp [attachedTo]
        have hstarted : startedOf f (tr ++ [.returned r.kind r.output r.inRes outRes]) =
            startedOf f tr := by simp [startedOf]
        rw [hattached, hstarted, (hsh f).2.2]
        exact ho.history f
      begun := fun f out res h => by
        obtain ⟨hf, hfate, hresult, hrest⟩ := ho.begun f out res
          ((hback h).resolve_right fun h => by cases h)
        rw [(hsh f).1, (hsh f).2.1]
        refine ⟨hf, hfate, hresult, ?_⟩
        rcases hrest with ⟨r', hr', hin, hout'⟩ | ⟨kind, cbRes, ha, hr⟩
        · rw [hrun] at hr'
          rcases mem_cons.mp hr' with rfl | hr'
          · right
            have hknown := (ho.known r'.cont hlive).1
            rw [hcnInput, hcnOutput, (ho.runs r' hmem).1, hin, hout'] at hknown
            refine ⟨r'.kind, outRes, hold hknown, mem_append_right _ ?_⟩
            rw [(ho.runs r' hmem).2, hin, hresult, hout']
            exact mem_singleton_self _
          · exact .inl ⟨r', hr', hin, hout'⟩
        · exact .inr ⟨kind, cbRes, hold ha, hold hr⟩
      outputs := fun out h => ho.outputs out (houtputs ▸ h)
      unique := houtputs ▸ ho.unique
      closed := fun kind out inRes cbRes h hnot => by
        have hnot : .settled out ∉ tr := fun hin => hnot (hold hin)
        rw [(hsh out).1, (hsh out).2.1]
        rcases hback h with h | h
        · exact ho.closed kind out inRes cbRes h hnot
        · cases h
          exact ⟨ho.held _ hout.1 hout.2, hres hnot⟩ }

theorem mem_settledOf {p : Nat} : p ∈ settledOf tr ↔ .settled p ∈ tr := by
  rw [settledOf, mem_filterMap]
  constructor
  · rintro ⟨e, he, heq⟩
    cases e with
    | settled q =>
      cases heq
      exact he
    | attached _ _ _ | started _ _ _ | returned _ _ _ _ => cases heq
  · exact fun h => ⟨_, h, rfl⟩

/-- The output is settled with the outcome. -/
theorem settleOut_eq {outRes : Result} (hroom : s.Room r.output)
    (hkind : r.kind ≠ .ckAll ∧ r.kind ≠ .ckRace)
    (hcatch : r.kind = .ckCatch → r.inRes.isOk = true → outRes = r.inRes) :
    s.settleOut r outRes = s.settled r.output (outcome r.kind r.inRes outRes) := by
  rw [State.settleOut]
  split
  · rename_i h
    rw [settleWith_eq hroom, h]
    rfl
  · rename_i h
    rw [settleWith_eq hroom, h, outcome]
    split
    · rename_i hok
      rw [hcatch h hok]
    · rfl
  · rename_i h
    rw [settleWith_eq hroom, h]
    rfl
  · rename_i h
    exact absurd h hkind.1
  · rename_i h
    exact absurd h hkind.2

/-- The last executed continuation ends. -/
theorem Ordered.finish {outRes : Result} (ho : Ordered s tr (settledOf tr))
    (hrun : s.running = r :: rs) (hroom : s.Room r.output)
    (hcatch : r.kind = .ckCatch → r.inRes.isOk = true → outRes = r.inRes) :
    Ordered (s.finish outRes) (tr ++ [.returned r.kind r.output r.inRes outRes])
      (settledOf tr) ∧ (s.finish outRes).running = rs ∧
      Onward (s, tr) (s.finish outRes, tr ++ [.returned r.kind r.output r.inRes outRes]) := by
  have hmem : r ∈ s.running := by
    rw [hrun]
    exact mem_cons_self
  obtain ⟨hlive, -, -, hout, -⟩ := ho.inv.executedCont hrun
  have hkind := (ho.known r.cont hlive).2
  rw [(ho.runs r hmem).1] at hkind
  have hwaits : .settled r.output ∉ tr → (s.sh r.output).fate = .pending := by
    intro hnot
    rw [← (ho.inv.runs r hmem).2]
    refine ho.waits r.cont hlive fun hin => hnot ?_
    rw [← (ho.inv.runs r hmem).2]
    exact mem_settledOf.mp hin
  have ho₁ : Ordered (s.settled r.output (outcome r.kind r.inRes outRes)) tr _ :=
    ho.settled (ho.referenced hout.1 hout.2) hroom
  have hres : .settled r.output ∉ tr →
      ((s.settled r.output (outcome r.kind r.inRes outRes)).sh r.output).fate =
          (outcome r.kind r.inRes outRes).fate ∧
        ((s.settled r.output (outcome r.kind r.inRes outRes)).sh r.output).res =
          outcome r.kind r.inRes outRes := by
    intro hnot
    rw [State.settled, if_neg (not_not.mpr (hwaits hnot)), modSh_sh_self]
    exact ⟨rfl, rfl⟩
  have hrun₁ : (s.settled r.output (outcome r.kind r.inRes outRes)).running = r :: rs := by
    rw [← hrun, State.settled]
    split
    · rfl
    · rfl
  have heq : s.finish outRes =
      { (s.settled r.output (outcome r.kind r.inRes outRes)).cleanup r with running := rs } := by
    rw [State.finish, hrun, ← settleOut_eq hroom hkind hcatch]
  have hon₁ : Onward (s, tr) (s.settled r.output (outcome r.kind r.inRes outRes), tr) := .settle
  rw [heq]
  generalize s.settled r.output (outcome r.kind r.inRes outRes) = s₁ at ho₁ hres hrun₁ hon₁ ⊢
  obtain ⟨-, hne, hin₁, hout₁, hholder⟩ := ho₁.inv.executedCont hrun₁
  -- The handle of the output is another reference to it.
  have hcount : 2 ≤ (s₁.sh r.output).refCount := by
    have hhandle := count_pos_iff.mpr (ho₁.held _ hout₁.1 hout₁.2)
    have hcard := Finset.card_pos.mpr ⟨_, hholder⟩
    rw [ho₁.inv.count]
    omega
  have hleft : 0 < (((s₁.freeCont r.cont).decRef r.output).sh r.output).refCount := by
    rw [(decRef_fields _ _ _).2, if_pos rfl]
    change 0 < (s₁.sh r.output).refCount - 1
    omega
  have hinput : 0 < (((s₁.freeCont r.cont).decRef r.output).sh r.input).refCount := by
    rw [(decRef_fields _ _ _).2, if_neg hne]
    exact ho₁.referenced hin₁.1 hin₁.2
  have hcleanup : s₁.cleanup r = (s₁.freeCont r.cont).decRef r.output := by
    have hpos : 0 < ((s₁.freeCont r.cont).sh r.output).refCount :=
      ho₁.referenced hout₁.1 hout₁.2
    rw [State.cleanup, release_eq hpos, State.tryReclaim.eq_def (p := r.output), if_pos hleft,
      State.tryReclaim, if_pos hinput]
  rw [hcleanup]
  refine ⟨ho₁.cleanup hrun₁ (ho₁.inv.freeExecuted hrun₁ fun hone => ?_) hres, rfl, ?_⟩
  · omega
  · have hfreed : Onward (s₁, tr)
        ({ (s₁.freeCont r.cont).decRef r.output with running := rs }, tr) := by
      refine ⟨fun _ hp => hp, fun p _ _ => ?_, prefix_rfl⟩
      change ((State.decRef (s₁.freeCont r.cont) r.output).sh p).fate = _ ∧
        ((State.decRef (s₁.freeCont r.cont) r.output).sh p).res = _
      exact ⟨modSh_keeps Shared.fate rfl p, modSh_keeps Shared.res rfl p⟩
    exact (hon₁.trans hfreed).trans (.events rfl)

end Execute

/-! ## Creating and attaching -/

section Attach

variable {s s' : State} {tr : List Event} {except : List Nat} {out c f : Nat}

/-- A shared state that is just created: it is pending, and nothing refers to it. -/
structure State.Fresh (s : State) (tr : List Event) (out : Nat) : Prop where
  handle : out ∈ s.handles
  pending : (s.sh out).fate = .pending
  unlinked : ∀ c, s.Live [] c → (s.cn c).output ≠ out
  unused : out ∉ outputsOf tr

/-- What the creation of a shared state leaves as it is. -/
structure State.Creates (s s' : State) (out : Nat) : Prop where
  first : s.shFree.head? = some out
  fresh : out ∉ s.handles
  handles : s'.handles = out :: s.handles
  cn : s'.cn = s.cn
  cnFree : s'.cnFree = s.cnFree
  queue : s'.queue = s.queue
  cap : s'.cap = s.cap
  running : s'.running = s.running
  same : ∀ q ∈ s.handles, s'.sh q = s.sh q

theorem State.Creates.onward (h : s.Creates s' out) : Onward (s, tr) (s', tr) where
  handles q hq := by
    rw [h.handles]
    exact mem_cons_of_mem out hq
  settled q hq _ := by
    rw [h.same q hq]
    exact ⟨rfl, rfl⟩
  fifo := by
    have hwaiting : s'.waiting = s.waiting := by
      rw [State.waiting, State.waiting, h.queue, h.cn]
    rw [hwaiting]

theorem Ordered.promiseCreate (ho : Ordered s tr except) (h : s.promiseCreate = some (out, s')) :
    Ordered s' tr except ∧ s'.Fresh tr out ∧ s.Creates s' out := by
  obtain ⟨hinv, hhandles, hfresh, hunread⟩ := ho.inv.promiseCreate h
  rw [State.promiseCreate, State.allocShared] at h
  split at h
  · cases h
  rename_i p free hfree
  obtain ⟨rfl, rfl⟩ := Prod.mk.inj (Option.some.inj h)
  have hmem : p ∈ s.shFree := by
    rw [hfree]
    exact mem_cons_self
  have hself : update s.sh p ⟨.pending, initResult, [], 1, .none⟩ p =
      ⟨.pending, initResult, [], 1, .none⟩ := update_self _ _ _
  have hother : ∀ q, q ≠ p →
      update s.sh p ⟨.pending, initResult, [], 1, .none⟩ q = s.sh q :=
    fun q hq => update_of_ne hq _ _
  have hends : ∀ c, s.Live [] c → (s.cn c).input ≠ p ∧ (s.cn c).output ≠ p := by
    intro c hc
    have hboth := (ho.inv.ends c hc).2
    exact ⟨fun heq => (hboth p (.inl heq.symm)).2 hmem,
      fun heq => (hboth p (.inr heq.symm)).2 hmem⟩
  have hused : ∀ q ∈ s.handles, q ≠ p := fun q hq heq => hfresh (heq ▸ hq)
  refine ⟨?_, ⟨mem_cons_self, congrArg Shared.fate hself, fun c hc => (hends c hc).2,
    fun hin => hfresh (ho.outputs p hin)⟩, ⟨by rw [hfree]; rfl, hfresh, rfl, rfl, rfl, rfl,
    rfl, rfl, fun q hq => hother q (hused q hq)⟩⟩
  exact
    { ho with
      inv := hinv
      held := fun q hlt hq => by
        by_cases heq : q = p
        · rw [heq]
          exact mem_cons_self
        · refine mem_cons_of_mem p (ho.held q hlt fun hin => hq ?_)
          rw [hfree] at hin
          exact (mem_cons.mp hin).resolve_left heq
      drained := fun q hq => by
        change (update s.sh p _ q).fate ≠ _ at hq
        change (update s.sh p _ q).conts = _
        by_cases heq : q = p
        · rw [heq, hself]
        · rw [hother q heq] at hq ⊢
          exact ho.drained q hq
      fateRes := fun q hq => by
        change (update s.sh p _ q).fate ≠ _ at hq
        change (update s.sh p _ q).fate = (update s.sh p _ q).res.fate
        by_cases heq : q = p
        · rw [heq, hself] at hq
          exact absurd rfl hq
        · rw [hother q heq] at hq ⊢
          exact ho.fateRes q hq
      ready := fun c hc => by
        change (update s.sh p _ (s.cn c).input).fate ≠ _
        rw [hother _ (hends c (ho.inv.live hc)).1]
        exact ho.ready c hc
      runs := fun r hr => by
        have hlive := ho.inv.live (mem_append_right s.queue (mem_map_of_mem hr))
        have hin := (hends _ hlive).1
        rw [(ho.inv.runs r hr).1] at hin
        change _ ∧ _ = (update s.sh p _ r.input).res
        rw [hother _ hin]
        exact ho.runs r hr
      waits := fun c hc hnot => by
        change (update s.sh p _ (s.cn c).output).fate = _
        rw [hother _ (hends c hc).2]
        exact ho.waits c hc hnot
      history := fun q => by
        change _ = _ ++ (_ ++ (update s.sh p _ q).conts).map _
        by_cases heq : q = p
        · rw [ho.history q, heq, hself, (ho.inv.free p hmem).1]
          rfl
        · rw [hother q heq]
          exact ho.history q
      begun := fun q o res hin => by
        obtain ⟨hq, hrest⟩ := ho.begun q o res hin
        change _ ∧ (update s.sh p _ q).fate ≠ _ ∧
          (update s.sh p _ q).res = _ ∧ _
        rw [hother q (hused q hq)]
        exact ⟨mem_cons_of_mem p hq, hrest⟩
      outputs := fun o hin => mem_cons_of_mem p (ho.outputs o hin)
      closed := fun kind o inRes cbRes hin hnot => by
        obtain ⟨hout, hrest⟩ := ho.closed kind o inRes cbRes hin hnot
        change _ ∧ (update s.sh p _ o).fate = _ ∧
          (update s.sh p _ o).res = _
        rw [hother o (hused o hout)]
        exact ⟨mem_cons_of_mem p hout, hrest⟩ }

/-- Where an attached continuation is: it is queued if its input is settled, and else it is the last
one in its chain. -/
structure State.Attaches (s s' : State) (c : Nat) (x : Cont) : Prop where
  cn : s'.cn = update s.cn c x
  shFree : s'.shFree = s.shFree
  cnFree : s'.cnFree = s.cnFree
  running : s'.running = s.running
  handles : s'.handles = s.handles
  same : ∀ q, (s'.sh q).fate = (s.sh q).fate ∧ (s'.sh q).res = (s.sh q).res
  place : (s.sh x.input).fate ≠ .pending ∧ s'.queue = s.queue ++ [c] ∧
      (∀ q, (s'.sh q).conts = (s.sh q).conts) ∨
    (s.sh x.input).fate = .pending ∧ s'.queue = s.queue ∧
      ∀ q, (s'.sh q).conts = (s.sh q).conts ++ if q = x.input then [c] else []

theorem setCont_sh (s : State) (c : Nat) (x : Cont) (q : Nat) :
    ((s.setCont c x).sh q).fate = (s.sh q).fate ∧ ((s.setCont c x).sh q).res = (s.sh q).res ∧
      ((s.setCont c x).sh q).conts = (s.sh q).conts := by
  rw [State.setCont, State.retain]
  exact ⟨modSh_keeps Shared.fate rfl q, modSh_keeps Shared.res rfl q,
    modSh_keeps Shared.conts rfl q⟩

/-- A continuation is not attached only if the queue is full. -/
theorem attach_eq_none {x : Cont} (h : (s.setCont c x).attach c f = none) :
    (s.sh f).fate ≠ .pending ∧ s.cap ≤ s.queue.length := by
  rw [State.attach, (setCont_sh s c x f).1] at h
  split at h
  · rename_i hfate
    rw [State.enqueue] at h
    split at h
    · rename_i hfull
      exact ⟨hfate, hfull⟩
    · cases h
  · cases h

theorem attaches_of_attach {x : Cont} (h : (s.setCont c x).attach c x.input = some s') :
    s.Attaches s' c x := by
  have hset := setCont_sh s c x
  rw [State.attach, (hset x.input).1] at h
  split at h
  · rename_i hfate
    rw [State.enqueue] at h
    split at h
    · cases h
    obtain rfl := Option.some.inj h
    exact ⟨rfl, rfl, rfl, rfl, rfl, fun q => ⟨(hset q).1, (hset q).2.1⟩,
      .inl ⟨hfate, rfl, fun q => (hset q).2.2⟩⟩
  · rename_i hfate
    obtain rfl := Option.some.inj h
    have happend : ∀ q, (((s.setCont c x).appendCont x.input c).sh q).fate = (s.sh q).fate ∧
        (((s.setCont c x).appendCont x.input c).sh q).res = (s.sh q).res ∧
        (((s.setCont c x).appendCont x.input c).sh q).conts =
          (s.sh q).conts ++ if q = x.input then [c] else [] := by
      intro q
      rw [State.appendCont]
      by_cases hq : q = x.input
      · rw [hq, modSh_sh_self, if_pos rfl, ← (hset x.input).2.2]
        exact ⟨(hset _).1, (hset _).2.1, rfl⟩
      · rw [modSh_sh_of_ne hq, if_neg hq, append_nil]
        exact hset q
    exact ⟨rfl, rfl, rfl, rfl, rfl, fun q => ⟨(happend q).1, (happend q).2.1⟩,
      .inr ⟨not_not.mp hfate, rfl, fun q => (happend q).2.2⟩⟩

/-- A continuation is attached whose output is fresh. -/
theorem Ordered.attach {cnFree : List Nat} {x : Cont} (ho : Ordered s tr except)
    (hfree : s.cnFree = c :: cnFree) (hfresh : s.Fresh tr x.output) (hinput : x.input ∈ s.handles)
    (hkind : x.kind ≠ .ckAll ∧ x.kind ≠ .ckRace) (hne : x.input ≠ x.output)
    (h : ({ s with cnFree := cnFree }.setCont c x).attach c x.input = some s') :
    Ordered s' (tr ++ [.attached x.kind x.input x.output]) except := by
  have hat := attaches_of_attach h
  have halloc : s.allocCont = some (c, { s with cnFree := cnFree }) := by
    rw [State.allocCont, hfree]
  obtain ⟨hi₂, -, -⟩ := ho.inv.allocCont halloc
  obtain ⟨hi₃, -⟩ := State.Inv.setCn (x := x) hi₂
  have hout := ho.inv.handle hfresh.handle
  have hinv : s'.Inv [] := (hi₃.attach (update_self _ _ _)
    ⟨ho.inv.handle hinput, ⟨hout.1, hout.2.1⟩, hne⟩ h).1
  have hcn := hat.cn
  have hexecuted : s'.executed = s.executed := by rw [State.executed, hat.running, State.executed]
  have hself : s'.cn c = x := by rw [hcn, update_self]
  have hother : ∀ c', c' ≠ c → s'.cn c' = s.cn c' := by
    intro c' hc'
    rw [hcn, update_of_ne hc']
  have hnot : ∀ c', s.Live [] c' → c' ≠ c := by
    rintro c' hc' rfl
    refine hc'.2.1 ?_
    rw [hfree]
    exact mem_cons_self
  have hlive : ∀ c', s'.Live [] c' → c' = c ∨ s.Live [] c' := by
    intro c' hc'
    by_cases heq : c' = c
    · exact .inl heq
    · refine .inr ⟨hc'.1, fun hin => hc'.2.1 ?_, hc'.2.2⟩
      rw [hfree] at hin
      rw [hat.cnFree]
      exact (mem_cons.mp hin).resolve_left heq
  have hwaiting : ∀ c' ∈ s.queue ++ s.executed, s'.cn c' = s.cn c' :=
    fun c' hc' => hother c' (hnot c' (ho.inv.live hc'))
  have hqueued : ∀ f, (s.queue.filter (fun c' => (s'.cn c').input = f) ++ (s.sh f).conts).map
      (fun c' => (s'.cn c').output) =
        (s.queue.filter (fun c' => (s.cn c').input = f) ++ (s.sh f).conts).map
          fun c' => (s.cn c').output := by
    intro f
    have hfilter : s.queue.filter (fun c' => (s'.cn c').input = f) =
        s.queue.filter fun c' => (s.cn c').input = f := by
      refine filter_congr fun c' hc' => ?_
      rw [hwaiting c' (mem_append_left _ hc')]
    rw [hfilter]
    refine map_congr_left fun c' hc' => ?_
    rcases mem_append.mp hc' with hc' | hc'
    · rw [hwaiting c' (mem_append_left _ (mem_filter.mp hc').1)]
    · rw [hother c' (hnot c' (ho.inv.attached f c' hc').1)]
  have hold : ∀ {e}, e ∈ tr → e ∈ tr ++ [.attached x.kind x.input x.output] :=
    fun he => mem_append_left _ he
  have hback : ∀ {e}, e ∈ tr ++ [.attached x.kind x.input x.output] →
      e ∈ tr ∨ e = .attached x.kind x.input x.output :=
    fun he => (mem_append.mp he).imp_right mem_singleton.mp
  have houtputs : outputsOf (tr ++ [.attached x.kind x.input x.output]) =
      outputsOf tr ++ [x.output] := by simp [outputsOf]
  exact
    { inv := hinv
      held := fun q hlt hq => by
        rw [hat.shFree] at hq
        rw [hat.handles]
        exact ho.held q hlt hq
      drained := fun f hf => by
        rw [(hat.same f).1] at hf
        rcases hat.place with ⟨-, -, hconts⟩ | ⟨hpending, -, hconts⟩
        · rw [hconts, ho.drained f hf]
        · have hfne : f ≠ x.input := fun heq => hf (heq ▸ hpending)
          rw [hconts, if_neg hfne, ho.drained f hf, append_nil]
      fateRes := fun f hf => by
        rw [(hat.same f).1] at hf ⊢
        rw [(hat.same f).2]
        exact ho.fateRes f hf
      ready := fun c' hc' => by
        rw [hexecuted] at hc'
        rw [(hat.same _).1]
        rcases hat.place with ⟨hsettled, hqueue, -⟩ | ⟨-, hqueue, -⟩
        · rw [hqueue, append_assoc, singleton_append] at hc'
          rcases mem_cons.mp (perm_middle.mem_iff.mp hc') with rfl | hc'
          · rw [hself]
            exact hsettled
          · rw [hwaiting c' hc']
            exact ho.ready c' hc'
        · rw [hqueue] at hc'
          rw [hwaiting c' hc']
          exact ho.ready c' hc'
      runs := fun r hr => by
        rw [hat.running] at hr
        rw [hwaiting r.cont (mem_append_right _ (mem_map_of_mem hr)), (hat.same _).2]
        exact ho.runs r hr
      known := fun c' hc' => by
        rcases hlive c' hc' with rfl | hc'
        · rw [hself]
          exact ⟨mem_append_right _ (mem_singleton_self _), hkind⟩
        · rw [hother c' (hnot c' hc')]
          exact ⟨hold (ho.known c' hc').1, (ho.known c' hc').2⟩
      apart := fun c₁ c₂ hc₁ hc₂ heq => by
        rcases hlive c₁ hc₁ with h₁ | h₁
        · rcases hlive c₂ hc₂ with h₂ | h₂
          · exact h₁.trans h₂.symm
          · rw [h₁, hself, hother c₂ (hnot c₂ h₂)] at heq
            exact absurd heq.symm (hfresh.unlinked c₂ h₂)
        · rcases hlive c₂ hc₂ with h₂ | h₂
          · rw [h₂, hself, hother c₁ (hnot c₁ h₁)] at heq
            exact absurd heq (hfresh.unlinked c₁ h₁)
          · rw [hother c₁ (hnot c₁ h₁), hother c₂ (hnot c₂ h₂)] at heq
            exact ho.apart c₁ c₂ h₁ h₂ heq
      waits := fun c' hc' hexcept => by
        rw [(hat.same _).1]
        rcases hlive c' hc' with rfl | hc'
        · rw [hself]
          exact hfresh.pending
        · rw [hother c' (hnot c' hc')] at hexcept ⊢
          exact ho.waits c' hc' hexcept
      history := fun f => by
        have hattached : attachedTo f (tr ++ [.attached x.kind x.input x.output]) =
            attachedTo f tr ++ if x.input = f then [x.output] else [] := by
          rw [attachedTo, filterMap_append]
          split
          · rename_i hf
            simp [hf, attachedTo]
          · rename_i hf
            simp [hf, attachedTo]
        have hstarted : startedOf f (tr ++ [.attached x.kind x.input x.output]) =
            startedOf f tr := by simp [startedOf]
        have hsingle : [c].filter (fun c' => (s'.cn c').input = f) =
            if x.input = f then [c] else [] := by simp [filter_cons, hself]
        rw [hattached, hstarted, ho.history f, ← hqueued f, append_assoc]
        refine congrArg (startedOf f tr ++ ·) ?_
        by_cases hf : x.input = f
        · rw [if_pos hf]
          rcases hat.place with ⟨hsettled, hqueue, hconts⟩ | ⟨-, hqueue, hconts⟩
          · rw [hf] at hsettled
            rw [hqueue, hconts, ho.drained f hsettled, append_nil, append_nil,
              filter_append, map_append, hsingle, if_pos hf, map_singleton, hself]
          · rw [hqueue, hconts, if_pos hf.symm, ← append_assoc, @map_append _ _ _ _ [c],
              map_singleton, hself]
        · rw [if_neg hf, append_nil]
          rcases hat.place with ⟨-, hqueue, hconts⟩ | ⟨-, hqueue, hconts⟩
          · rw [hqueue, hconts, filter_append, hsingle, if_neg hf, append_nil]
          · rw [hqueue, hconts, if_neg (Ne.symm hf), append_nil]
      begun := fun f out res h => by
        obtain ⟨hf, hfate, hres, hrest⟩ := ho.begun f out res
          ((hback h).resolve_right fun h => by cases h)
        rw [hat.handles, (hat.same f).1, (hat.same f).2, hat.running]
        refine ⟨hf, hfate, hres, hrest.imp_right ?_⟩
        rintro ⟨kind, cbRes, ha, hr⟩
        exact ⟨kind, cbRes, hold ha, hold hr⟩
      outputs := fun out hin => by
        rw [houtputs] at hin
        rw [hat.handles]
        rcases mem_append.mp hin with hin | hin
        · exact ho.outputs out hin
        · rw [mem_singleton.mp hin]
          exact hfresh.handle
      unique := by
        rw [houtputs, nodup_append]
        refine ⟨ho.unique, nodup_singleton _, fun a ha b hb heq => hfresh.unused ?_⟩
        rw [← mem_singleton.mp hb, ← heq]
        exact ha
      closed := fun kind out inRes cbRes h hset => by
        rw [hat.handles, (hat.same out).1, (hat.same out).2]
        exact ho.closed kind out inRes cbRes ((hback h).resolve_right fun h => by cases h)
          fun hin => hset (hold hin) }

theorem Onward.attach {x : Cont} (h : s.Attaches s' c x) (hc : c ∉ s.queue) :
    Onward (s, tr) (s', tr ++ [.attached x.kind x.input x.output]) := by
  refine .trans (y := (s', tr)) ⟨?_, ?_, ?_⟩ (.events rfl)
  · intro p hp
    rw [h.handles]
    exact hp
  · intro p _ _
    exact h.same p
  · have hold : s.queue.map (fun c' => ((s'.cn c').input, (s'.cn c').output)) = s.waiting := by
      refine map_congr_left fun c' hc' => ?_
      have hne : c' ≠ c := fun heq => hc (heq ▸ hc')
      rw [h.cn, update_of_ne hne]
    change executedOf tr ++ s.waiting <+: executedOf tr ++ s'.waiting
    rw [prefix_append_right_inj]
    rcases h.place with ⟨-, hqueue, -⟩ | ⟨-, hqueue, -⟩
    · rw [← hold, State.waiting, hqueue, map_append]
      exact prefix_append _ _
    · rw [← hold, State.waiting, hqueue]

/-- With slots and room, a continuation is attached. -/
theorem Ordered.chain {kind : ContKind} {fn : Option Nat} (ho : Ordered s tr except)
    (hf : f ∈ s.handles) (hcan : s.CanChain f) (hkind : kind ≠ .ckAll ∧ kind ≠ .ckRace) :
    Ordered (s.chain kind f fn).1 (tr ++ s.attachEvents kind f) except ∧
      Onward (s, tr) ((s.chain kind f fn).1, tr ++ s.attachEvents kind f) ∧
      (s.chain kind f fn).1.running = s.running := by
  obtain ⟨hsh, hcn, hroom⟩ := hcan
  obtain ⟨p, shFree, hshFree⟩ := exists_cons_of_ne_nil hsh
  obtain ⟨c, cnFree, hcnFree⟩ := exists_cons_of_ne_nil hcn
  rw [State.chain]
  cases hcreate : s.promiseCreate with
  | none =>
    rw [State.promiseCreate, State.allocShared, hshFree] at hcreate
    cases hcreate
  | some r =>
    obtain ⟨out, s₁⟩ := r
    obtain ⟨ho₁, hfresh, hcreates⟩ := ho.promiseCreate hcreate
    have hevents : s.attachEvents kind f = [.attached kind f out] := by
      rw [State.attachEvents, hcreates.first]
      rfl
    have hfree₁ : s₁.cnFree = c :: cnFree := hcreates.cnFree.trans hcnFree
    have halloc : s₁.allocCont = some (c, { s₁ with cnFree := cnFree }) := by
      rw [State.allocCont, hfree₁]
    have hf₁ : f ∈ s₁.handles := by
      rw [hcreates.handles]
      exact mem_cons_of_mem out hf
    have hne : f ≠ out := fun heq => hcreates.fresh (heq ▸ hf)
    rw [hevents]
    simp only [halloc]
    cases hattach : ({ s₁ with cnFree := cnFree }.setCont c ⟨kind, fn, f, out, 0⟩).attach c f with
    | none =>
      obtain ⟨hsettled, hfull⟩ := attach_eq_none hattach
      have hsettled : (s₁.sh f).fate ≠ .pending := hsettled
      rw [hcreates.same f hf] at hsettled
      have hfull : s₁.cap ≤ s₁.queue.length := hfull
      rw [hcreates.cap, hcreates.queue] at hfull
      exact absurd (hroom hsettled) (not_lt.mpr hfull)
    | some s₃ =>
      have hat := attaches_of_attach hattach
      have hc : c ∉ s₁.queue := by
        intro hin
        have hlive := ho₁.inv.live (mem_append_left s₁.executed hin)
        refine hlive.2.1 ?_
        rw [hfree₁]
        exact mem_cons_self
      refine ⟨ho₁.attach hfree₁ hfresh hf₁ hkind hne hattach, ?_,
        hat.running.trans hcreates.running⟩
      have hfreed : Onward (s₁, tr) ({ s₁ with cnFree := cnFree }, tr) :=
        ⟨fun _ hp => hp, fun _ _ _ => ⟨rfl, rfl⟩, prefix_rfl⟩
      exact (hcreates.onward.trans hfreed).trans (.attach hat hc)

end Attach

/-! ## Runs keep the order -/

section Runs

variable {s s' : State} {tr : List Event} {x y : State × List Event} {op : Op}

/-- A continuation waits for `OnReject` only if its input is rejected. -/
def State.Calling (s : State) : Prop :=
  ∀ r ∈ s.running, r.kind = .ckCatch → r.inRes.isOk = false

/-- The invariant of traced runs: what `Resolve` or `Reject` settles is exempted. -/
structure Good (x : State × List Event) : Prop where
  ordered : Ordered x.1 x.2 (settledOf x.2)
  calling : x.1.Calling

theorem settledOf_append (tr evs : List Event) :
    settledOf (tr ++ evs) = settledOf tr ++ settledOf evs := filterMap_append

/-- The result of a continuation that does not call its callback. -/
theorem ownResult_catch {c : Nat} (hkind : (s.cn c).kind = .ckCatch)
    (hok : (s.sh (s.cn c).input).res.isOk = true) :
    s.ownResult c = (s.sh (s.cn c).input).res := if_pos ⟨hkind, hok⟩

/-- A continuation for `OnReject` that calls its callback has a rejected input. -/
theorem calls_catch {c : Nat} (hcalls : s.calls c = true) (hkind : (s.cn c).kind = .ckCatch) :
    (s.sh (s.cn c).input).res.isOk = false := by
  rw [State.calls, hkind] at hcalls
  simp only [Bool.and_eq_true] at hcalls
  exact Bool.not_eq_true' _ |>.mp hcalls.2

theorem Good.settle {p : Nat} {res : Result} (hg : Good (s, tr)) (hp : p ∈ s.handles)
    (hroom : s.Room p) : Good ((s.settleWith p res).1, tr ++ [.settled p]) ∧
      Onward (s, tr) ((s.settleWith p res).1, tr ++ [.settled p]) := by
  have hpos := (hg.ordered.inv.handle hp).2.2
  rw [settleWith_eq hroom]
  refine ⟨⟨?_, ?_⟩, Onward.settle.trans (.events rfl)⟩
  · refine ((hg.ordered.settled hpos hroom).note p).weaken fun q hq => ?_
    change q ∈ settledOf (tr ++ [.settled p])
    rw [settledOf_append]
    rcases mem_cons.mp hq with rfl | hq
    · exact mem_append_right _ (mem_singleton_self q)
    · exact mem_append_left _ hq
  · have hrunning : (s.settled p res).running = s.running := by
      rw [State.settled]
      split
      · rfl
      · rfl
    intro r hr
    exact hg.calling r (hrunning ▸ hr)

theorem Good.chain {kind : ContKind} {f : Nat} {fn : Option Nat} (hg : Good (s, tr))
    (hf : f ∈ s.handles) (hcan : s.CanChain f) (hkind : kind ≠ .ckAll ∧ kind ≠ .ckRace) :
    Good ((s.chain kind f fn).1, tr ++ s.attachEvents kind f) ∧
      Onward (s, tr) ((s.chain kind f fn).1, tr ++ s.attachEvents kind f) := by
  obtain ⟨ho, honward, hrunning⟩ : Ordered (s.chain kind f fn).1 _ _ ∧ _ :=
    hg.ordered.chain hf hcan hkind
  refine ⟨⟨ho.weaken fun q hq => ?_, fun r hr => ?_⟩, honward⟩
  · change q ∈ settledOf (tr ++ s.attachEvents kind f)
    rw [settledOf_append]
    exact mem_append_left _ hq
  · exact hg.calling r (hrunning ▸ hr)

theorem Good.finish {r : Running} {rs : List Running} {outRes : Result}
    (ho : Ordered s tr (settledOf tr)) (hcalling : ∀ r ∈ rs, r.kind = .ckCatch →
      r.inRes.isOk = false) (hrun : s.running = r :: rs) (hroom : s.Room r.output)
    (hcatch : r.kind = .ckCatch → r.inRes.isOk = true → outRes = r.inRes) :
    Good (s.finish outRes, tr ++ [.returned r.kind r.output r.inRes outRes]) ∧
      Onward (s, tr) (s.finish outRes, tr ++ [.returned r.kind r.output r.inRes outRes]) := by
  obtain ⟨hfinish, hrunning, honward⟩ := ho.finish hrun hroom hcatch
  refine ⟨⟨hfinish.weaken fun q hq => ?_, fun r hr => ?_⟩, honward⟩
  · change q ∈ settledOf (tr ++ [_])
    rw [settledOf_append]
    exact mem_append_left _ hq
  · exact hcalling r (hrunning ▸ hr)

theorem Good.pump (hg : Good (s, tr)) (hplain : s.Plain .pump) :
    Good (s.pump, tr ++ s.events .pump) ∧ Onward (s, tr) (s.pump, tr ++ s.events .pump) := by
  cases hqueue : s.queue with
  | nil =>
    rw [State.pump, State.events, hqueue]
    simp only [append_nil]
    exact ⟨hg, .refl _⟩
  | cons c queue =>
    have hstart := hg.ordered.start hqueue
    have honward : Onward (s, tr) _ := .start hqueue
    have hsettled : settledOf (tr ++ [.started (s.cn c).input (s.cn c).output
        (s.sh (s.cn c).input).res]) = settledOf tr := by
      rw [settledOf_append]
      exact append_nil _
    rw [← hsettled] at hstart
    have hcalls : { s with queue := queue }.calls c = s.calls c := rfl
    rw [State.pump, State.events, hqueue]
    simp only [State.executeCont, hcalls]
    cases hc : s.calls c with
    | true =>
      refine ⟨⟨hstart, fun r hr hkind => ?_⟩, honward⟩
      rcases mem_cons.mp hr with rfl | hr
      · exact calls_catch hc hkind
      · exact hg.calling r hr hkind
    | false =>
      have hroom : { s with queue := s.queue.tail }.Room (s.cn c).output :=
        hplain c (by rw [hqueue]; rfl) hc
      rw [hqueue] at hroom
      obtain ⟨hgood, hnext⟩ := Good.finish hstart hg.calling rfl hroom
        fun hkind hok => ownResult_catch hkind hok
      rw [append_assoc] at hgood hnext
      exact ⟨hgood, honward.trans hnext⟩

/-- A plain step keeps the invariant. -/
theorem Good.step (hg : Good x) (hplain : x.1.Plain op) (h : TracedStep x op y) :
    Good y ∧ Onward x y := by
  obtain ⟨s, tr⟩ := x
  obtain ⟨s', tr'⟩ := y
  obtain ⟨h, htr⟩ := h
  have htr : tr' = tr ++ s.events op := htr
  rw [htr]
  change s.step op = some s' at h
  cases op with
  | promiseCreate =>
    obtain rfl := Option.some.inj h
    simp only [State.events, append_nil]
    cases hcreate : s.promiseCreate with
    | none => exact ⟨hg, .refl _⟩
    | some r =>
      obtain ⟨out, s₁⟩ := r
      obtain ⟨ho, -, hcreates⟩ := hg.ordered.promiseCreate hcreate
      exact ⟨⟨ho, fun r' hr' => hg.calling r' (hcreates.running ▸ hr')⟩, hcreates.onward⟩
  | resolve p x | reject p x =>
    rw [State.step, Option.ite_none_right_eq_some] at h
    obtain ⟨hp, h⟩ := h
    obtain rfl := Option.some.inj h
    exact hg.settle hp hplain
  | map f fn | onReject f fn | onSettle f fn =>
    rw [State.step, Option.ite_none_right_eq_some] at h
    obtain ⟨hf, h⟩ := h
    obtain rfl := Option.some.inj h
    exact hg.chain hf hplain (by simp)
  | all _ | race _ | release _ => cases hplain
  | pump =>
    obtain rfl := Option.some.inj h
    exact hg.pump hplain
  | finish outRes =>
    rw [State.step, Option.ite_none_left_eq_some] at h
    obtain ⟨hne, h⟩ := h
    obtain rfl := Option.some.inj h
    obtain ⟨r, rs, hrun⟩ := exists_cons_of_ne_nil hne
    have hcatch := hg.calling r (by rw [hrun]; exact mem_cons_self)
    rw [State.events, hrun]
    refine Good.finish hg.ordered (fun r' hr' => hg.calling r' ?_) hrun
      (hplain r (by rw [hrun]; rfl)) fun hkind hok => ?_
    · rw [hrun]
      exact mem_cons_of_mem r hr'
    · rw [hcatch hkind] at hok
      cases hok

theorem good_init (cap : Nat) : Good (State.init cap, []) where
  ordered :=
    { inv := inv_init cap
      held := fun p hlt hnot => by
        refine absurd ?_ hnot
        simp only [State.init]
        exact mem_reverse.mpr (mem_range.mpr hlt)
      drained := fun f hf => absurd rfl hf
      fateRes := fun f hf => absurd rfl hf
      ready := fun c hc => by cases hc
      runs := fun r hr => by cases hr
      known := fun c hc => by
        refine absurd ?_ hc.2.1
        simp only [State.init]
        exact mem_reverse.mpr (mem_range.mpr hc.1)
      apart := fun c c' hc => by
        refine absurd ?_ hc.2.1
        simp only [State.init]
        exact mem_reverse.mpr (mem_range.mpr hc.1)
      waits := fun c _ _ => rfl
      history := fun f => rfl
      begun := fun f out res h => by cases h
      outputs := fun out h => by cases h
      unique := nodup_nil
      closed := fun kind out inRes cbRes h => by cases h }
  calling r hr := by cases hr

theorem Good.leads (hg : Good x) (h : Leads x y) : Good y ∧ Onward x y := by
  apply GuardedRun.invariant h
  · rintro y rfl
    exact ⟨hg, .refl y⟩
  · rintro y op z ⟨hy, honward⟩ hplain hstep
    obtain ⟨hz, hnext⟩ := hy.step hplain hstep
    exact ⟨hz, honward.trans hnext⟩

theorem startedOf_eq (f : Nat) (tr : List Event) :
    startedOf f tr = ((executedOf tr).filter fun e => e.1 = f).map Prod.snd := by
  induction tr with
  | nil => rfl
  | cons e tr ih =>
    cases e with
    | started input output res =>
      by_cases hf : input = f
      · simp_all [startedOf, executedOf]
      · simp_all [startedOf, executedOf]
    | settled p | attached kind input output | returned kind output inRes cbRes => exact ih

/-- What holds when a run has reached a state and then goes on to another one: results are final,
every continuation is executed once, in order and after its input is settled, and what it returns
settles its output, unless `Resolve` or `Reject` is called for that. -/
structure InOrder (x y : State × List Event) : Prop where
  once : ∀ f ∈ x.1.handles, (x.1.sh f).fate ≠ .pending →
    (y.1.sh f).fate = (x.1.sh f).fate ∧ (y.1.sh f).res = (x.1.sh f).res
  distinct : (outputsOf y.2).Nodup
  ordered : ∀ f, startedOf f y.2 <+: attachedTo f y.2
  executed : ∀ f, (x.1.sh f).fate ≠ .pending →
    (executedOf x.2).length + x.1.queue.length ≤ (executedOf y.2).length →
    attachedTo f x.2 <+: startedOf f y.2
  after : ∀ op f out res, .started f out res ∈ y.1.events op →
    (y.1.sh f).fate ≠ .pending ∧ (y.1.sh f).res = res ∧ ∃ kind, .attached kind f out ∈ y.2
  returns : ∀ f out res, .started f out res ∈ y.2 →
    (∃ r ∈ y.1.running, r.input = f ∧ r.output = out) ∨
      ∃ kind cbRes, .attached kind f out ∈ y.2 ∧ .returned kind out res cbRes ∈ y.2
  outcomes : ∀ kind out inRes cbRes, .returned kind out inRes cbRes ∈ y.2 → .settled out ∉ y.2 →
    (y.1.sh out).fate = (outcome kind inRes cbRes).fate ∧
      (y.1.sh out).res = outcome kind inRes cbRes

/-- When as many continuations are executed as were queued, those of a settled state are. -/
theorem Good.executed (hg : Good x) (h : Onward x y) {f : Nat} (hf : (x.1.sh f).fate ≠ .pending)
    (hlength : (executedOf x.2).length + x.1.queue.length ≤ (executedOf y.2).length) :
    attachedTo f x.2 <+: startedOf f y.2 := by
  have hfront : executedOf x.2 ++ x.1.waiting <+: executedOf y.2 := by
    refine prefix_of_prefix_length_le h.fifo (prefix_append _ _) ?_
    rw [length_append, State.waiting, length_map]
    exact hlength
  have hwaiting : ((x.1.waiting.filter fun e => e.1 = f).map Prod.snd) =
      (x.1.queue.filter fun c => (x.1.cn c).input = f).map fun c => (x.1.cn c).output := by
    rw [State.waiting, filter_map, map_map]
    rfl
  rw [hg.ordered.history f, hg.ordered.drained f hf, append_nil, startedOf_eq, startedOf_eq,
    ← hwaiting, ← map_append, ← filter_append]
  exact (hfront.filter _).map _

/-- Only the head of the queue is executed, the input of which is settled. -/
theorem Good.after (hg : Good x) {f out : Nat} {res : Result}
    (h : .started f out res ∈ x.1.events op) :
    (x.1.sh f).fate ≠ .pending ∧ (x.1.sh f).res = res ∧ ∃ kind, .attached kind f out ∈ x.2 := by
  cases op with
  | pump =>
    rw [State.events] at h
    split at h
    · cases h
    · rename_i c queue hqueue
      have hmem : c ∈ x.1.queue ++ x.1.executed := by
        rw [hqueue]
        exact mem_cons_self
      rcases mem_cons.mp h with h | h
      · cases h
        exact ⟨hg.ordered.ready c hmem, rfl, _, (hg.ordered.known c (hg.ordered.inv.live hmem)).1⟩
      · split at h
        · cases h
        · cases mem_singleton.mp h
  | finish outRes =>
    rw [State.events] at h
    split at h
    · cases h
    · cases mem_singleton.mp h
  | map f fn | onReject f fn | onSettle f fn =>
    simp [State.events, State.attachEvents] at h
  | resolve p v | reject p e => cases mem_singleton.mp h
  | promiseCreate | all fs | race fs | release p => cases h

/-- Promises are settled once, and their continuations are executed once and in order. -/
theorem settled_once_in_order {cap : Nat} (hx : Traced cap x) (hy : Leads x y) : InOrder x y := by
  have hgx := ((good_init cap).leads hx).1
  obtain ⟨hgy, honward⟩ := hgx.leads hy
  exact
    { once := honward.settled
      distinct := hgy.ordered.unique
      ordered := fun f => by
        rw [hgy.ordered.history f]
        exact prefix_append _ _
      executed := fun f hf hlength => hgx.executed honward hf hlength
      after := fun op f out res h => hgy.after h
      returns := fun f out res h => (hgy.ordered.begun f out res h).2.2.2
      outcomes := fun kind out inRes cbRes h hnot =>
        (hgy.ordered.closed kind out inRes cbRes h hnot).2 }

end Runs

/-! ## A run with callbacks -/

instance (s : State) (p : Nat) : Decidable (s.Room p) :=
  inferInstanceAs (Decidable (s.queue.length + (s.sh p).conts.length ≤ s.cap))

instance (s : State) (f : Nat) : Decidable (s.CanChain f) :=
  inferInstanceAs (Decidable (s.shFree ≠ [] ∧ s.cnFree ≠ [] ∧
    ((s.sh f).fate ≠ .pending → s.queue.length < s.cap)))

instance (s : State) : (op : Op) → Decidable (s.Plain op)
  | .promiseCreate => inferInstanceAs (Decidable (s.shFree ≠ []))
  | .map f _ | .onReject f _ | .onSettle f _ => inferInstanceAs (Decidable (s.CanChain f))
  | .resolve p _ | .reject p _ => inferInstanceAs (Decidable (s.Room p))
  | .pump => inferInstanceAs (Decidable (∀ c ∈ s.queue.head?, s.calls c = false →
      { s with queue := s.queue.tail }.Room (s.cn c).output))
  | .finish _ => inferInstanceAs (Decidable (∀ r ∈ s.running.head?, s.Room r.output))
  | .all _ | .race _ | .release _ => .isFalse id

/-- A run of plain steps, with its events. -/
def runPlain : State × List Event → List Op → Option (State × List Event)
  | x, [] => some x
  | x, op :: ops =>
    if x.1.Plain op then
      (x.1.step op).bind fun s => runPlain (s, x.2 ++ x.1.events op) ops
    else none

theorem leads_runPlain {x : State × List Event} (ops : List Op) :
    ∀ {y z : State × List Event}, Leads x y → runPlain y ops = some z → Leads x z := by
  induction ops with
  | nil =>
    intro y z h hrun
    obtain rfl := Option.some.inj hrun
    exact h
  | cons op ops ih =>
    intro y z h hrun
    rw [runPlain, Option.ite_none_right_eq_some] at hrun
    obtain ⟨hplain, hrun⟩ := hrun
    obtain ⟨s, hstep, hrun⟩ := Option.bind_eq_some_iff.mp hrun
    exact ih (.step h hplain ⟨hstep, rfl⟩) hrun

/-- A promise with two continuations is resolved. The callback of the first one creates a promise,
and rejects its own output. -/
theorem inOrder_callback : ∃ x y,
    runPlain (State.init 8, [])
      [.promiseCreate, .map 255 (some 0), .onSettle 255 none, .resolve 255 ⟨1, .nil⟩] = some x ∧
    runPlain x [.pump, .promiseCreate, .finish (.error ⟨2, .nil⟩), .pump] = some y ∧
    InOrder x y := by
  obtain ⟨y, hboth⟩ := Option.isSome_iff_exists.mp
    (by decide +kernel : ((runPlain (State.init 8, [])
      [.promiseCreate, .map 255 (some 0), .onSettle 255 none, .resolve 255 ⟨1, .nil⟩]).bind
        fun x => runPlain x [.pump, .promiseCreate, .finish (.error ⟨2, .nil⟩), .pump]).isSome =
        true)
  obtain ⟨x, hx, hy⟩ := Option.bind_eq_some_iff.mp hboth
  exact ⟨x, y, hx, hy, settled_once_in_order (leads_runPlain _ (.start rfl) hx)
    (leads_runPlain _ (.start rfl) hy)⟩

end Mx.Futures

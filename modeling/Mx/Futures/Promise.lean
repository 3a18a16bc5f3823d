import Mathlib

/-!
# Promises on a scheduler

The pools of shared states and continuations, the queue of the scheduler, and the operations of
`Promise` on them. A call of a callback is a step of its own: the continuation waits for it on a
stack, and the callback may use all operations, pumping included.
-/

namespace Mx.Futures

/-! ## Results -/

/-- `Status`. -/
inductive Status where
  | ok
  | invalid
  | outOfMemory
  | alreadySettled
  deriving DecidableEq, Repr

/-- `Fate`. -/
inductive Fate where
  | pending
  | fulfilled
  | rejected
  deriving DecidableEq, Repr

/-- An `ADDRESS` in a value or an error: one of the caller, or that of the results that a shared
state owns. -/
inductive Addr where
  | nil
  | user (n : Nat)
  | results (sh : Nat)
  deriving DecidableEq, Repr

/-- `Value`. -/
structure Value where
  tag : Int
  ptr : Addr
  deriving DecidableEq, Repr

/-- `Error`. -/
structure Error where
  code : Int
  ptr : Addr
  deriving DecidableEq, Repr

/-- `Result`, of which only the value or only the error is used. -/
inductive Result where
  | value (v : Value)
  | error (e : Error)
  deriving DecidableEq, Repr

/-- `isOk`. -/
def Result.isOk : Result → Bool
  | .value _ => true
  | .error _ => false

/-- The fate of what is settled with a result. -/
def Result.fate (res : Result) : Fate := if res.isOk then .fulfilled else .rejected

/-- `InitResult`. -/
def initResult : Result := .error ⟨0, .nil⟩

/-! ## Records -/

/-- `ContKind`. -/
inductive ContKind where
  | ckThen
  | ckCatch
  | ckFinally
  | ckAll
  | ckRace
  deriving DecidableEq, Repr

/-- What a shared state owns for `All` or `Race`: `combSt` and `combKind`. -/
inductive Comb where
  | none
  | all (total done : Nat) (failed : Bool) (results : Nat → Result)
  | race (settled : Bool)

/-- `SharedRec`. The continuations are in the order of the chain from `contHead` to `contTail`. -/
structure Shared where
  fate : Fate
  res : Result
  conts : List Nat
  refCount : Nat
  comb : Comb

/-- `ContRec`, with one field for its callback. -/
structure Cont where
  kind : ContKind
  fn : Option Nat
  input : Nat
  output : Nat
  idx : Nat
  deriving DecidableEq, Repr

/-- The variables of an `ExecuteCont` that waits for a callback. -/
structure Running where
  cont : Nat
  kind : ContKind
  input : Nat
  output : Nat
  inRes : Result
  deriving DecidableEq, Repr

/-- `POOL_SH`. -/
def poolSh : Nat := 256

/-- `POOL_CN`. -/
def poolCn : Nat := 512

/-- `MAX_ALL_SIZE`. -/
def maxAllSize : Nat := 32

/-- The pools with their free slots, the last one of `shFree` and `cnFree` first, the queue of the
scheduler, the continuations that wait for their callbacks, the last one first, the handles that are
not released, and whether a pointer was followed that was never set. -/
structure State where
  sh : Nat → Shared
  shFree : List Nat
  cn : Nat → Cont
  cnFree : List Nat
  queue : List Nat
  cap : Nat
  running : List Running
  handles : List Nat
  broken : Bool

/-- After `InitPools`, with a scheduler for so many tasks. -/
def State.init (cap : Nat) : State where
  sh _ := ⟨.pending, initResult, [], 0, .none⟩
  shFree := (List.range poolSh).reverse
  cn _ := ⟨.ckThen, none, 0, 0, 0⟩
  cnFree := (List.range poolCn).reverse
  queue := []
  cap := cap
  running := []
  handles := []
  broken := false

namespace State

variable (s : State)

/-! ## Pools -/

/-- A shared state is changed. -/
def modSh (p : Nat) (f : Shared → Shared) : State :=
  { s with sh := Function.update s.sh p (f (s.sh p)) }

/-- `AllocShared`. -/
def allocShared : Option (Nat × State) :=
  match s.shFree with
  | [] => none
  | p :: free => some (p, { s with shFree := free })

/-- `FreeShared`. -/
def freeShared (p : Nat) : State :=
  { s.modSh p fun x => { x with fate := .pending, conts := [], refCount := 0, comb := .none } with
    shFree := p :: s.shFree }

/-- `AllocCont`. -/
def allocCont : Option (Nat × State) :=
  match s.cnFree with
  | [] => none
  | c :: free => some (c, { s with cnFree := free })

/-- `FreeCont`. The fields of a free continuation are not read. -/
def freeCont (c : Nat) : State := { s with cnFree := c :: s.cnFree }

/-- `Retain`. -/
def retain (p : Nat) : State := s.modSh p fun x => { x with refCount := x.refCount + 1 }

/-- `TryReclaim`. -/
def tryReclaim (p : Nat) : State :=
  if (s.sh p).refCount > 0 then s
  else if (s.sh p).conts ≠ [] then s
  else s.freeShared p

/-- `Release`. -/
def release (p : Nat) : State :=
  if (s.sh p).refCount = 0 then s
  else (s.modSh p fun x => { x with refCount := x.refCount - 1 }).tryReclaim p

/-- `Release` of the reference of a handle. -/
def releaseHandle (p : Nat) : State :=
  { s.release p with handles := s.handles.erase p }

/-! ## Settling -/

/-- `SchedulerEnqueue` of a continuation. -/
def enqueue (c : Nat) : Option State :=
  if s.queue.length ≥ s.cap then none else some { s with queue := s.queue ++ [c] }

/-- `AppendCont`. -/
def appendCont (p c : Nat) : State := s.modSh p fun x => { x with conts := x.conts ++ [c] }

/-- The loop of `DrainConts`: the continuations that did not fit the queue are left. -/
def enqueueAll : State → List Nat → State × List Nat
  | s, [] => (s, [])
  | s, c :: cs =>
    match s.enqueue c with
    | none => (s, c :: cs)
    | some s' => enqueueAll s' cs

/-- `DrainConts`. -/
def drainConts (p : Nat) : State × Status :=
  let r := (s.modSh p fun x => { x with conts := [] }).enqueueAll (s.sh p).conts
  if r.2 = [] then (r.1, .ok)
  else (r.1.modSh p fun x => { x with conts := r.2 }, .outOfMemory)

/-- `SettleWith`. -/
def settleWith (p : Nat) (res : Result) : State × Status :=
  if (s.sh p).fate ≠ .pending then (s, .alreadySettled)
  else (s.modSh p fun x => { x with fate := res.fate, res := res }).drainConts p

/-! ## Creating and chaining -/

/-- `PromiseCreate`. -/
def promiseCreate : Option (Nat × State) :=
  s.allocShared.map fun r =>
    (r.1, { r.2.modSh r.1 fun _ => ⟨.pending, initResult, [], 1, .none⟩ with
      handles := r.1 :: r.2.handles })

/-- A continuation is enqueued or appended. -/
def attach (c input : Nat) : Option State :=
  if (s.sh input).fate ≠ .pending then s.enqueue c else some (s.appendCont input c)

/-- The fields of a continuation are set, and the reference that it holds is taken. -/
def setCont (c : Nat) (x : Cont) : State :=
  { s with cn := Function.update s.cn c x }.retain x.output

/-- What `Map`, `OnReject` and `OnSettle` have in common; the handle in `out` is none for `NIL`. -/
def chain (kind : ContKind) (f : Nat) (fn : Option Nat) : State × Status × Option Nat :=
  match s.promiseCreate with
  | none => (s, .outOfMemory, none)
  | some (out, s) =>
    match s.allocCont with
    | none => (s.releaseHandle out, .outOfMemory, none)
    | some (c, s) =>
      let s := s.setCont c ⟨kind, fn, f, out, 0⟩
      match s.attach c f with
      | none => (((s.release out).freeCont c).releaseHandle out, .outOfMemory, none)
      | some s => (s, .ok, some out)

/-- `Map`. -/
def map (f : Nat) (fn : Option Nat) : State × Status × Option Nat := s.chain .ckThen f fn

/-- `OnReject`. -/
def onReject (f : Nat) (fn : Option Nat) : State × Status × Option Nat := s.chain .ckCatch f fn

/-- `OnSettle`. -/
def onSettle (f : Nat) (fn : Option Nat) : State × Status × Option Nat := s.chain .ckFinally f fn

/-- The loop of `All` and `Race` that allocates continuations: those that it got, and whether they
are all. -/
def allocConts : State → Nat → State × List Nat × Bool
  | s, 0 => (s, [], true)
  | s, n + 1 =>
    match s.allocCont with
    | none => (s, [], false)
    | some (c, s) =>
      let r := allocConts s n
      (r.1, c :: r.2.1, r.2.2)

/-- Several continuations are freed. -/
def freeConts : State → List Nat → State
  | s, [] => s
  | s, c :: cs => freeConts (s.freeCont c) cs

/-- The loop of `All` and `Race` that attaches the continuations. -/
def attachEach (kind : ContKind) (out : Nat) :
    State → Nat → List Nat → List Nat → State × Status × Option Nat
  | s, i, c :: cs, f :: fs =>
    let s := s.setCont c ⟨kind, none, f, out, i⟩
    match s.attach c f with
    | none => ((((s.release out).freeCont c).freeConts cs).releaseHandle out, .outOfMemory, none)
    | some s => attachEach kind out s (i + 1) cs fs
  | s, _, _, _ => (s, .ok, some out)

/-- What `All` and `Race` have in common. -/
def combine (kind : ContKind) (comb : Comb) (fs : List Nat) : State × Status × Option Nat :=
  if fs.length = 0 ∨ fs.length > maxAllSize then (s, .invalid, none)
  else
    match s.promiseCreate with
    | none => (s, .outOfMemory, none)
    | some (out, s) =>
      let r := (s.modSh out fun x => { x with comb := comb }).allocConts fs.length
      if r.2.2 then attachEach kind out r.1 0 r.2.1 fs
      else
        -- With nothing allocated, the bound of the loop that frees them wraps around.
        let s := { r.1.freeConts r.2.1 with broken := r.1.broken || r.2.1.isEmpty }
        ((s.modSh out fun x => { x with comb := .none }).releaseHandle out, .outOfMemory, none)

/-- `All`. -/
def all (fs : List Nat) : State × Status × Option Nat :=
  s.combine .ckAll (.all fs.length 0 false fun _ => initResult) fs

/-- `Race`. -/
def race (fs : List Nat) : State × Status × Option Nat :=
  s.combine .ckRace (.race false) fs

/-! ## Executing -/

/-- `HandleAll`. -/
def handleAll (r : Running) : State :=
  match (s.sh r.output).comb with
  | .all total done failed results =>
    if failed then s
    else if (s.sh r.input).res.isOk then
      let results := Function.update results (s.cn r.cont).idx (s.sh r.input).res
      let s := s.modSh r.output fun x => { x with comb := .all total (done + 1) failed results }
      if done + 1 ≥ total then
        (s.settleWith r.output (.value ⟨total, .results r.output⟩)).1
      else s
    else
      let s' := s.modSh r.output fun x => { x with comb := .all total done true results }
      (s'.settleWith r.output (s.sh r.input).res).1
  | _ => s

/-- `HandleRace`. -/
def handleRace (r : Running) : State :=
  match (s.sh r.output).comb with
  | .race settled =>
    if settled then s
    else
      let s' := s.modSh r.output fun x => { x with comb := .race true }
      (s'.settleWith r.output (s.sh r.input).res).1
  | _ => s

/-- The output of a continuation is settled. -/
def settleOut (r : Running) (outRes : Result) : State :=
  match r.kind with
  | .ckThen | .ckCatch => (s.settleWith r.output outRes).1
  | .ckFinally => (s.settleWith r.output r.inRes).1
  | .ckAll => s.handleAll r
  | .ckRace => s.handleRace r

/-- The end of `ExecuteCont`. -/
def cleanup (r : Running) : State :=
  ((s.freeCont r.cont).release r.output).tryReclaim r.input

/-- The last `ExecuteCont` that waits for its callback gets a result from it. -/
def finish (outRes : Result) : State :=
  match s.running with
  | [] => s
  | r :: rs => { (s.settleOut r outRes).cleanup r with running := rs }

/-- The variables of `ExecuteCont` for a continuation. -/
def runningOf (c : Nat) : Running :=
  let x := s.cn c
  ⟨c, x.kind, x.input, x.output, (s.sh x.input).res⟩

/-- A continuation calls its callback. -/
def calls (c : Nat) : Bool :=
  let x := s.cn c
  match x.kind with
  | .ckThen | .ckFinally => x.fn.isSome
  | .ckCatch => x.fn.isSome && !(s.sh x.input).res.isOk
  | .ckAll | .ckRace => false

/-- The result of a continuation that does not call its callback. -/
def ownResult (c : Nat) : Result :=
  let x := s.cn c
  if x.kind = .ckCatch ∧ (s.sh x.input).res.isOk then (s.sh x.input).res else initResult

/-- `ExecuteCont`, up to the call of the callback if there is one. -/
def executeCont (c : Nat) : State :=
  let s' := { s with running := s.runningOf c :: s.running }
  if s.calls c then s' else s'.finish (s.ownResult c)

/-- One step of `SchedulerPump`. -/
def pump : State :=
  match s.queue with
  | [] => s
  | c :: queue => { s with queue := queue }.executeCont c

end State

/-! ## Steps -/

/-- The calls of a user, the steps of the scheduler, and the ends of callbacks. -/
inductive Op where
  | promiseCreate
  | resolve (p : Nat) (v : Value)
  | reject (p : Nat) (e : Error)
  | map (f : Nat) (fn : Option Nat)
  | onReject (f : Nat) (fn : Option Nat)
  | onSettle (f : Nat) (fn : Option Nat)
  | all (fs : List Nat)
  | race (fs : List Nat)
  | release (h : Nat)
  | pump
  | finish (outRes : Result)
  deriving DecidableEq, Repr

/-- One step. Only handles that are not released can be used, and a callback ends if one runs. -/
def State.step (s : State) : Op → Option State
  | .promiseCreate => some ((s.promiseCreate.map Prod.snd).getD s)
  | .resolve p v => if p ∈ s.handles then some (s.settleWith p (.value v)).1 else none
  | .reject p e => if p ∈ s.handles then some (s.settleWith p (.error e)).1 else none
  | .map f fn => if f ∈ s.handles then some (s.map f fn).1 else none
  | .onReject f fn => if f ∈ s.handles then some (s.onReject f fn).1 else none
  | .onSettle f fn => if f ∈ s.handles then some (s.onSettle f fn).1 else none
  | .all fs => if ∀ f ∈ fs, f ∈ s.handles then some (s.all fs).1 else none
  | .race fs => if ∀ f ∈ fs, f ∈ s.handles then some (s.race fs).1 else none
  | .release h => if h ∈ s.handles then some (s.releaseHandle h) else none
  | .pump => some s.pump
  | .finish outRes => if s.running = [] then none else some (s.finish outRes)

end Mx.Futures

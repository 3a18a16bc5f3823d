import Mx.Codegen.LlvmProcs
import Mx.HirBuild.OwnDecl

/-!
# Value parameters

Where the two backends keep the parameters of a procedure, and when a call cannot be told from one
that is given private copies for its value parameters. Arrays are not copied in either backend. In
LLVM a parameter that a nested procedure captures is kept in a global, which is the parameter of
every activation of the procedure.
-/

namespace Mx.CodeGen

open HirBuild Mx.Core

/-- The two code generators. -/
inductive Backend where
  | c
  | llvm
  deriving DecidableEq, Repr

/-! ## Storage of parameters -/

/-- Where the LLVM code of a procedure keeps a parameter. The global of a captured one gets what is
loaded from the slot at the type of the promotion. -/
def llvmParamStorage (c : LlvmContext) (proc : LlvmProc) (p : HirParamDecl) : Storage :=
  match proc.promoted.find? fun q => q.name == p.name with
  | none => if loadsAddress c.toParamContext p then .shared else .own
  | some q =>
    if q.loadTy ≠ q.slotTy then .stray
    else if loadsAddress c.toParamContext p then .staticPointer
    else .static

/-- Where the emitted code of a procedure keeps a parameter. -/
def paramStorage (backend : Backend) (c : LlvmContext) (proc : LlvmProc) (p : HirParamDecl) :
    Storage :=
  match backend with
  | .c => (genHirProcParam c.toParamContext p).storage c.reg
  | .llvm => llvmParamStorage c proc p

/-- What a parameter is: a value parameter is a variable of the callee. -/
def declaredStorage (p : HirParamDecl) : Storage := if p.isVar then .shared else .own

theorem declaredStorage_not_static (p : HirParamDecl) : (declaredStorage p).isStatic = false := by
  rw [declaredStorage]
  split_ifs <;> rfl

/-! ## Calls -/

section Private

variable {V : Type} (backend : Backend) (c : LlvmContext) (proc : LlvmProc) {n : Nat}

/-- The parameters of a procedure. -/
abbrev LlvmProc.params : List HirParamDecl := proc.decl.sig.params

/-- A call of a procedure where `n` variables exist. -/
abbrev ProcCall (n : Nat) := Call proc.params.length n

/-- The names in the code of a procedure. -/
abbrev ProcName (n : Nat) := CallName proc.params.length n

/-- The storage of the parameters in the emitted code. -/
def emittedStorage (i : Fin proc.params.length) : Storage :=
  paramStorage backend c proc (proc.params.get i)

/-- The storage of the parameters as they are declared. -/
def sourceStorage (i : Fin proc.params.length) : Storage := declaredStorage (proc.params.get i)

/-- The blocks of the names in the emitted code. -/
def emittedEnv (call : ProcCall proc n) : ProcName proc n → Nat :=
  call.env (emittedStorage backend c proc)

/-- The memory when the emitted body starts. -/
def emittedEntry (call : ProcCall proc n) (m : Memory V) : Memory V :=
  call.entry (emittedStorage backend c proc) m

/-- The blocks of the names when the value parameters are private. -/
def sourceEnv (call : ProcCall proc n) : ProcName proc n → Nat := call.env (sourceStorage proc)

/-- A call of the emitted code cannot be told from one that is given copies of the arguments for
the value parameters: the body goes through the same states, and all variables that exist and all
parameters hold the same. What deeper calls do is part of the body. -/
def ValueParamsPrivate (call : ProcCall proc n) (m : Memory V)
    (body : Behaviour V (ProcName proc n)) : Prop :=
  SameRun body (emittedEnv backend c proc call) (sourceEnv proc call)
    (emittedEntry backend c proc call m) (call.entry (sourceStorage proc) m)

/-- When the body starts, the parameters hold their arguments, and the variables what they held
before. -/
structure StartsRight (call : ProcCall proc n) (m : Memory V) : Prop where
  params : ∀ i, emittedEntry backend c proc call m (emittedEnv backend c proc call (.inl i)) =
    m (call.home (call.args i))
  vars : ∀ x, emittedEntry backend c proc call m (emittedEnv backend c proc call (.inr x)) =
    m (call.home x)

variable {backend c proc} {call : ProcCall proc n} {m : Memory V}

/-- A call with private copies starts right. -/
theorem view_sourceEntry :
    Behaviour.view (sourceEnv proc call) (call.entry (sourceStorage proc) m) =
      Sum.elim (fun i => m (call.home (call.args i))) fun x => m (call.home x) :=
  call.view_entry _ (fun _ => declaredStorage_not_static _) m

theorem startsRight_iff : StartsRight backend c proc call m ↔
    Behaviour.view (emittedEnv backend c proc call) (emittedEntry backend c proc call m) =
      Behaviour.view (sourceEnv proc call) (call.entry (sourceStorage proc) m) := by
  rw [view_sourceEntry]
  constructor
  · intro h
    funext x
    cases x with
    | inl i => exact h.params i
    | inr x => exact h.vars x
  · intro h
    exact ⟨fun i => congrFun h (.inl i), fun x => congrFun h (.inr x)⟩

end Private

/-- A value parameter. -/
def valueParam (name : String) (typeId : TypeId) : HirParamDecl where
  name := name
  typeId := typeId
  isVar := false
  isOpenArray := false
  isProcType := false
  isChar := false
  needsHigh := false

/-- A procedure `P(a: T)`. -/
def arrayProc : LlvmProc := enterProc plainLlvm "M" [] [] (bareProc "P" [valueParam "a" 20] [])

/-- A procedure `N` that reads the parameter of `P`. -/
def readingN : HirBuild.HirProcDecl :=
  { bareProc "N" [] [] with closureCaptures := [⟨"n", tyInteger, false⟩] }

/-- A procedure `P(n: INTEGER)` with `N` in it. -/
def recursiveProc : LlvmProc :=
  enterProc plainLlvm "M" [] [] (bareProc "P" [valueParam "n" tyInteger] [readingN])

/-- `a[0] := 1` or `n := 1`, for the first parameter. -/
def assignFirst {n : Nat} : Behaviour Int (CallName 1 n) where
  State := Bool
  init := true
  step running _ := if running then some (false, .inl 0, 0, 1) else none

/-- `P(v)` for a variable `v`. -/
def callWithVar : Call 1 1 where
  home := fun x => x
  args := fun _ => 0
  suspended := fun _ => none
  stray := fun _ => 0

/-- `P(v)` in an activation of `P` whose parameter is the second variable. -/
def innerCall : Call 1 2 where
  home := fun x => x
  args := fun _ => 0
  suspended := fun _ => some 1
  stray := fun _ => 0

end Mx.CodeGen

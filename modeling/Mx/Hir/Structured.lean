import Mx.Cfg.Builder
import Mx.Cfg.Semantics

/-!
# The structured meaning of a body

A big-step interpreter for statements without exceptions constructs. Every loop is
bounded by the same number of rounds; a run that needs more ends in `timeout`, and a
body diverges when every bound is too small. Conditions are evaluated with short
circuits, and `FOR` is an assignment followed by a `WHILE`. What the binding of a
`TYPECASE` arm does is a parameter: the matched value is bound, or the selector is
evaluated once more.
-/

namespace Mx

/-- How a statement ends. `undefined` marks the constructs this semantics leaves out. -/
inductive Outcome (σ V α : Type) where
  | done (a : α) (s : σ)
  | exit (s : σ)
  | returned (v : Option V) (s : σ)
  | raised (s : σ)
  | timeout
  | undefined

/-- A computation: the events it shows and how it ends. -/
def Exec (σ V α : Type) := σ → List Event × Outcome σ V α

namespace Exec

variable {σ V α β : Type}

/-- Show nothing and go on with a value. -/
protected def pure (a : α) : Exec σ V α := fun s => ([], .done a s)

/-- Go on with a second computation if the first one completes. -/
protected def bind (m : Exec σ V α) (f : α → Exec σ V β) : Exec σ V β := fun s =>
  match m s with
  | (es, .done a s') => (es ++ (f a s').1, (f a s').2)
  | (es, .exit s') => (es, .exit s')
  | (es, .returned v s') => (es, .returned v s')
  | (es, .raised s') => (es, .raised s')
  | (es, .timeout) => (es, .timeout)
  | (es, .undefined) => (es, .undefined)

instance : Monad (Exec σ V) where
  pure := Exec.pure
  bind := Exec.bind

/-- End at once. -/
def stop (o : Outcome σ V α) : Exec σ V α := fun _ => ([], o)

/-- An `EXIT` in the computation completes it. -/
def catchExit (m : Exec σ V Unit) : Exec σ V Unit := fun s =>
  match m s with
  | (es, .exit s') => (es, .done () s')
  | r => r

end Exec

section Statements

variable {σ V : Type} (I : Interp σ V)

/-- Execute a leaf statement. -/
def execLeaf (stmt : HirStmt) : Exec σ V Unit := fun s =>
  match I.exec stmt s with
  | .ok s' => ([.stmt stmt], .done () s')
  | .error s' => ([.stmt stmt], .raised s')

/-- Execute leaf statements in order. -/
def execLeaves : List HirStmt → Exec σ V Unit
  | [] => pure ()
  | stmt :: rest => do
    execLeaf I stmt
    execLeaves rest

/-- Evaluate an expression as a whole. -/
def evalLeaf (e : HirExpr) : Exec σ V V := fun s =>
  match I.eval e s with
  | .ok (v, s') => ([.eval e], .done v s')
  | .error s' => ([.eval e], .raised s')

/-- Evaluate a condition; `AND`, `OR` and `NOT` evaluate what they need. -/
def evalCond : HirExpr → Exec σ V Bool
  | ⟨.binaryOp .and left right, _, _⟩ => do
    if ← evalCond left then evalCond right else pure false
  | ⟨.binaryOp .or left right, _, _⟩ => do
    if ← evalCond left then pure true else evalCond right
  | ⟨.not inner, _, _⟩ => do
    let b ← evalCond inner
    return !b
  | e => do
    let v ← evalLeaf I e
    return I.truth v

/-- `IF`: the body of the first condition that holds, or the `ELSE` body. -/
def execIf (elseBody : Exec σ V Unit) : List (HirExpr × Exec σ V Unit) → Exec σ V Unit
  | [] => elseBody
  | (cond, body) :: rest => do
    if ← evalCond I cond then body else execIf elseBody rest

/-- `WHILE`, for a bounded number of rounds. -/
def execWhile (cond : Exec σ V Bool) (body : Exec σ V Unit) : Nat → Exec σ V Unit
  | 0 => Exec.stop .timeout
  | n + 1 => do
    if ← cond then do
      body
      execWhile cond body n
    else pure ()

/-- The rounds of a `LOOP`, without the `EXIT` that ends it. -/
def execForever (body : Exec σ V Unit) : Nat → Exec σ V Unit
  | 0 => Exec.stop .timeout
  | n + 1 => do
    body
    execForever body n

/-- `REPEAT`, for a bounded number of rounds. -/
def execRepeat (body : Exec σ V Unit) (cond : Exec σ V Bool) : Nat → Exec σ V Unit
  | 0 => Exec.stop .timeout
  | n + 1 => do
    body
    if ← cond then pure () else execRepeat body cond n

/-- `FOR` is `var := start; WHILE var <= stop DO body; var := var + step END`. -/
def execFor (var : String) (varTy : TypeId) (start stop : HirExpr) (step : Option HirExpr)
    (direction : ForDirection) (body : Exec σ V Unit) (n : Nat) : Exec σ V Unit := do
  execLeaf I (assignVar var varTy start)
  execWhile (evalCond I (makeBinop (forCmp direction) var varTy stop))
    (do body
        execLeaf I (assignVar var varTy (makeBinop .add var varTy (forStep varTy step direction))))
    n

/-- One arm of a `CASE` or `TYPECASE`: its labels and what it executes on the matched value. -/
structure ExecArm (σ V : Type) where
  labels : List CaseLabel
  body : V → Exec σ V Unit

/-- The first arm with a matching label, or the `ELSE` body. -/
def execArms (elseBody : Exec σ V Unit) : List (ExecArm σ V) → V → Exec σ V Unit
  | [], _ => elseBody
  | arm :: rest, v => fun s =>
    if arm.labels.any fun l => I.matchLabel l v s then arm.body v s
    else execArms elseBody rest v s

/-- `CASE` and `TYPECASE`: evaluate the selector once, then run the selected arm. -/
def execSwitch (expr : HirExpr) (arms : List (ExecArm σ V)) (elseBody : Exec σ V Unit) :
    Exec σ V Unit := do
  let v ← evalLeaf I expr
  execArms I elseBody arms v

/-- What a `TYPECASE` arm does before its body, given the selector, the binding variable and
the matched value. -/
abbrev Binder (σ V : Type) : Type := HirExpr → Option String → V → Exec σ V Unit

/-- Assign the matched value to the binding variable. -/
def bindMatched (bind : String → V → σ → σ) : Binder σ V := fun expr var v s =>
  match var with
  | none => ([], .done () s)
  | some name => ([.stmt (assignVar name tyAddress expr)], .done () (bind name v s))

/-- Evaluate the selector once more and assign what it gives now. -/
def bindAgain : Binder σ V := fun expr var _ => execLeaves I (typeBinding expr var)

/-- Assign the matched value where a second evaluation of the selector gives the same; a run
with another binding is left undefined. -/
noncomputable def bindAlike (bind : String → V → σ → σ) : Binder σ V := fun expr var v s =>
  open Classical in
  if bindAgain I expr var v s = bindMatched bind expr var v s then bindMatched bind expr var v s
  else ([], .undefined)

/-- `RETURN`. -/
def execReturn : Option HirExpr → Exec σ V Unit
  | none => fun s => ([], .returned none s)
  | some e => do
    let v ← evalLeaf I e
    fun s => ([], .returned (some v) s)

variable (B : Binder σ V)

mutual

/-- Execute statements in order, every loop for at most `n` rounds. -/
def execStmts (n : Nat) : List HirStmt → Exec σ V Unit
  | [] => pure ()
  | s :: ss => do
    execStmt n s
    execStmts n ss

/-- Execute one statement. -/
def execStmt (n : Nat) : HirStmt → Exec σ V Unit
  | ⟨kind, loc⟩ => execKind n kind loc

/-- Execute a statement by its form. -/
def execKind (n : Nat) : HirStmtKind → SourceLoc → Exec σ V Unit
  | .empty, _ => pure ()
  | .assign target value, loc => execLeaf I ⟨.assign target value, loc⟩
  | .procCall target args, loc => execLeaf I ⟨.procCall target args, loc⟩
  | .ifStmt cond thenBody elsifs elseBody, _ =>
    execIf I (execOpt n elseBody) ((cond, execStmts n thenBody) :: execElsifs n elsifs)
  | .whileStmt cond body, _ => execWhile (evalCond I cond) (execStmts n body) n
  | .loop body, _ => Exec.catchExit (execForever (execStmts n body) n)
  | .exit, _ => fun s => ([], .exit s)
  | .repeatStmt body cond, _ => execRepeat (execStmts n body) (evalCond I cond) n
  | .forStmt var varTy start stop step direction body, _ =>
    execFor I var varTy start stop step direction (execStmts n body) n
  | .caseStmt expr branches elseBody, _ =>
    execSwitch I expr (execBranches n branches) (execOpt n elseBody)
  | .typeCase expr branches elseBody, _ =>
    execSwitch I expr (execTypeBranches n expr branches) (execOpt n elseBody)
  | .ret expr, _ => execReturn I expr
  | .raise _, _ | .retry, _ | .tryStmt _ _ _, _ | .lock _ _, _ => Exec.stop .undefined

/-- The meanings of `ELSIF` bodies. -/
def execElsifs (n : Nat) : List (HirExpr × List HirStmt) → List (HirExpr × Exec σ V Unit)
  | [] => []
  | (cond, body) :: rest => (cond, execStmts n body) :: execElsifs n rest

/-- The meaning of an optional body. -/
def execOpt (n : Nat) : Option (List HirStmt) → Exec σ V Unit
  | none => pure ()
  | some body => execStmts n body

/-- The meanings of `CASE` branches. -/
def execBranches (n : Nat) : List HirCaseBranch → List (ExecArm σ V)
  | [] => []
  | ⟨labels, body⟩ :: rest =>
    ⟨labels.map HirCaseLabel.toLabel, fun _ => execStmts n body⟩ :: execBranches n rest

/-- The meanings of `TYPECASE` branches; a variable is bound before the body. -/
def execTypeBranches (n : Nat) (expr : HirExpr) : List HirTypeCaseBranch → List (ExecArm σ V)
  | [] => []
  | ⟨types, var, body⟩ :: rest =>
    ⟨types.map fun sym => .type sym var,
      fun v => do
        B expr var v
        execStmts n body⟩ :: execTypeBranches n expr rest

end

/-- What a procedure body shows and how it ends, with loops bounded by `n` rounds.
A body that completes returns no value. -/
def execBody (body : List HirStmt) (s : σ) : Core.Machine.Bounded Event (Result σ V) := fun n =>
  match execStmts I B n body s with
  | (es, .done () s') => (es, some (.returned none s'))
  | (es, .returned v s') => (es, some (.returned v s'))
  | (es, .raised s') => (es, some (.raised s'))
  | (es, .timeout) => (es, none)
  | (es, .exit _) | (es, .undefined) => (es, some .stuck)

end Statements

mutual

/-- Whether statements are built from the constructs this semantics gives a meaning to.
An `EXIT` must have a `LOOP` as its innermost loop (`exitOk`), and a switch has an arm
and every arm a label. -/
def structured (exitOk : Bool) : List HirStmt → Bool
  | [] => true
  | s :: ss => structuredStmt exitOk s && structured exitOk ss

/-- Whether one statement is structured. -/
def structuredStmt (exitOk : Bool) : HirStmt → Bool
  | ⟨kind, _⟩ => structuredKind exitOk kind

/-- Whether a statement form is structured. -/
def structuredKind (exitOk : Bool) : HirStmtKind → Bool
  | .empty | .assign _ _ | .procCall _ _ | .ret _ => true
  | .exit => exitOk
  | .ifStmt _ thenBody elsifs elseBody =>
    structured exitOk thenBody && structuredElsifs exitOk elsifs && structuredOpt exitOk elseBody
  | .whileStmt _ body | .repeatStmt body _ | .forStmt _ _ _ _ _ _ body => structured false body
  | .loop body => structured true body
  | .caseStmt _ branches elseBody =>
    !branches.isEmpty && structuredBranches exitOk branches && structuredOpt exitOk elseBody
  | .typeCase _ branches elseBody =>
    !branches.isEmpty && structuredTypeBranches exitOk branches && structuredOpt exitOk elseBody
  | .raise _ | .retry | .tryStmt _ _ _ | .lock _ _ => false

/-- Whether `ELSIF` bodies are structured. -/
def structuredElsifs (exitOk : Bool) : List (HirExpr × List HirStmt) → Bool
  | [] => true
  | (_, body) :: rest => structured exitOk body && structuredElsifs exitOk rest

/-- Whether an optional body is structured. -/
def structuredOpt (exitOk : Bool) : Option (List HirStmt) → Bool
  | none => true
  | some body => structured exitOk body

/-- Whether `CASE` branches are structured and labelled. -/
def structuredBranches (exitOk : Bool) : List HirCaseBranch → Bool
  | [] => true
  | ⟨labels, body⟩ :: rest =>
    !labels.isEmpty && structured exitOk body && structuredBranches exitOk rest

/-- Whether `TYPECASE` branches are structured and labelled. -/
def structuredTypeBranches (exitOk : Bool) : List HirTypeCaseBranch → Bool
  | [] => true
  | ⟨types, _, body⟩ :: rest =>
    !types.isEmpty && structured exitOk body && structuredTypeBranches exitOk rest

end

end Mx

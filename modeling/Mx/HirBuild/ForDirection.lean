import Mx.HirBuild.ExprLower
import Mx.Sema.Folding

/-!
# The direction of a counted loop

`for_direction` folds the step expression, and where nothing comes out it looks for a leading
minus sign. The folded value is the value of the step where every part of it that is folded is
folded to its own value; where some part is not folded, nothing is.
-/

namespace Mx.HirBuild

open Sema Ast

/-! ## The builder -/

namespace HirBuilder

variable (b : HirBuilder)

/-- `is_negative_expr`; `none` is the panic of an operation that overflows. -/
def isNegativeExpr (e : Expr) : Option Bool :=
  (b.symtab.tryEvalConstInt e).map fun
    | some v => decide (v < 0)
    | none =>
      match e.kind with
      | .unaryOp .neg _ => true
      | .intLit v => decide (v < 0)
      | _ => false

/-- `for_direction`. -/
def forDirection : Option Expr → Option ForDirection
  | none => some .up
  | some e => (b.isNegativeExpr e).map fun negative => if negative then .down else .up

/-- `lower_stmt` of a `FOR`, whose body is lowered already. -/
def lowerForStmt (var : String) (start stop : Expr) (step : Option Expr) (body : List HirStmt)
    (loc : SourceLoc) : Option HirStmt :=
  (b.forDirection step).map fun direction =>
    ⟨.forStmt var ((b.getVarType var).getD tyInteger) (b.lowerExpr start) (b.lowerExpr stop)
      (step.map b.lowerExpr) direction body, loc⟩

end HirBuilder

/-! ## The value of a step -/

/-- The integer that a constant stands for. -/
def ordinalOf : SymbolKind → Option Int
  | .constant (.integer v) => some v
  | .constant (.boolean b) => some (if b then 1 else 0)
  | .constant (.char c) => some c.toNat
  | .enumVariant v => some v
  | _ => none

/-- The symbol that a name or a qualified name stands for where it is used. -/
def ownSymbol (sema : SemanticAnalyzer) (d : Designator) : Option Symbol :=
  match d.selectors with
  | [] => sema.symtab.lookupInScope sema.currentScope d.ident.name
  | [.field name] => sema.symtab.lookupQualified d.ident.name name
  | _ => none

/-- The target type and the operand of a call that transfers a value to another type. -/
def transferTo (declared : String → Option CIntType) (name : String) :
    List Expr → Option (CIntType × Expr)
  | [x] =>
    match name with
    | "ORD" => some (.int, x)
    | "CHAR" | "INTEGER" | "INT" | "CARDINAL" | "LONGINT" | "LONGCARD" =>
      (transferType declared name).map (·, x)
    | _ => none
  | ty :: x :: _ => if name = "VAL" then (transferTarget declared ty).map (·, x) else none
  | [] => none

/-- The calls that `try_eval_const_int` looks into. -/
def isFoldedCall (desig : Designator) (args : List Expr) : Bool :=
  desig.selectors.isEmpty && desig.ident.moduleName.isNone &&
    match desig.ident.name, args with
    | "CHR", [_] | "CHAR", [_] | "ORD", [_] => true
    | "INTEGER", [_] | "INT", [_] | "CARDINAL", [_] | "LONGINT", [_] | "LONGCARD", [_] => true
    | "VAL", _ :: _ :: _ => true
    | _, _ => false

section

variable (sema : SemanticAnalyzer) (declared : String → Option CIntType)
  (builtin : Designator → List Expr → Int → Prop)

/-- The value of a constant expression at run time, in 64 bits; `builtin` gives the values of the
other calls. -/
inductive StepValue : Expr → Int → Prop where
  | intLit {v loc} (h : CIntType.long.Fits v) : StepValue ⟨.intLit v, loc⟩ v
  | charLit {c loc} : StepValue ⟨.charLit c, loc⟩ c.toNat
  | boolLit {c loc} : StepValue ⟨.boolLit c, loc⟩ (if c then 1 else 0)
  | name {d sym v loc} (hd : ownSymbol sema d = some sym) (hv : ordinalOf sym.kind = some v) :
    StepValue ⟨.designator d, loc⟩ v
  | neg {x a loc} (hx : StepValue x a) (h : CIntType.long.Fits (-a)) :
    StepValue ⟨.unaryOp .neg x, loc⟩ (-a)
  | binary {op l r a c v loc} (hl : StepValue l a) (hr : StepValue r c)
    (h : runArith op a c = some v) : StepValue ⟨.binaryOp op l r, loc⟩ v
  | chr {desig x a loc} (hcall : isFoldedCall desig [x] = true) (hname : desig.ident.name = "CHR")
    (hx : StepValue x a) (ha : 0 ≤ a ∧ a < 256) : StepValue ⟨.funcCall desig [x], loc⟩ a
  | transfer {desig args x t a loc} (hcall : isFoldedCall desig args = true)
    (ht : transferTo declared desig.ident.name args = some (t, x)) (hx : StepValue x a) :
    StepValue ⟨.funcCall desig args, loc⟩ (t.convert a)
  | call {desig args v loc} (hcall : isFoldedCall desig args = false)
    (h : builtin desig args v) : StepValue ⟨.funcCall desig args, loc⟩ v

/-- If the outermost operation is folded, then to the value it has at run time: a name to its own
constant, a quotient without rounding, a type transfer that keeps the value. -/
def FoldsRight : Expr → Prop
  | ⟨.designator d, _⟩ =>
    d.selectors = [] → ∀ v, sema.symtab.ordinalNamed d.ident.name = some v →
      (ownSymbol sema d).bind (fun sym => ordinalOf sym.kind) = some v
  | ⟨.binaryOp op l r, _⟩ =>
    ∀ a c, StepValue sema declared builtin l a → StepValue sema declared builtin r c →
      (op = .intDiv ∨ op = .mod → ExactDiv op a c)
  | ⟨.funcCall desig args, _⟩ =>
    ∀ t x a, transferTo declared desig.ident.name args = some (t, x) →
      StepValue sema declared builtin x a → t.convert a = a
  | _ => True

end

/-- A name or a call that is not folded: a qualified name, a name that is first found as something
other than a constant, a call of another function. -/
def isOpaque (tab : SymbolTable) : Expr → Bool
  | ⟨.designator d, _⟩ => !d.selectors.isEmpty || (tab.ordinalNamed d.ident.name).isNone
  | ⟨.funcCall desig args, _⟩ => !isFoldedCall desig args
  | _ => false

/-- Some part of the expression is not folded. -/
def Unfolded (tab : SymbolTable) (e : Expr) : Prop :=
  ∃ x, Subexpr x e ∧ isOpaque tab x = true

/-- The expression is written with a leading minus sign. -/
def isNegation : Expr → Bool
  | ⟨.unaryOp .neg _, _⟩ => true
  | _ => false

/-! ## Folding a step -/

section

variable {sema : SemanticAnalyzer} {declared : String → Option CIntType}
  {builtin : Designator → List Expr → Int → Prop} {tab : SymbolTable}

theorem unfolded_iff {e : Expr} :
    Unfolded tab e ↔ isOpaque tab e = true ∨ ∃ x ∈ operands e, Unfolded tab x := by
  constructor
  · rintro ⟨x, hx, ho⟩
    cases hx with
    | refl => exact .inl ho
    | operand hy hs => exact .inr ⟨_, hy, x, hs, ho⟩
  · rintro (ho | ⟨y, hy, x, hx, ho⟩)
    · exact ⟨e, .refl e, ho⟩
    · exact ⟨x, .operand hy hx, ho⟩

/-- Folding gives the value, or nothing where some part is not folded. -/
structure Tried (tab : SymbolTable) (e : Expr) (v : Int) : Prop where
  hidden : Unfolded tab e → tab.tryEvalConstInt e = some none
  folded : ¬ Unfolded tab e → tab.tryEvalConstInt e = some (some v)

/-- Without an opaque part below, an expression without operands is folded. -/
theorem Tried.of_leaf {e : Expr} {v : Int} (hops : operands e = [])
    (ho : isOpaque tab e = false) (h : tab.tryEvalConstInt e = some (some v)) :
    Tried tab e v := by
  have hnot : ¬ Unfolded tab e := by
    rw [unfolded_iff, hops, ho]
    simp
  exact ⟨fun hu => absurd hu hnot, fun _ => h⟩

theorem Tried.of_opaque {e : Expr} {v : Int} (ho : isOpaque tab e = true)
    (h : tab.tryEvalConstInt e = some none) : Tried tab e v :=
  ⟨fun _ => h, fun hnot => absurd (unfolded_iff.mpr (.inl ho)) hnot⟩

/-- An operation with one operand goes on with what the operand is folded to. -/
theorem Tried.of_operand {e x : Expr} {a v : Int} {f : Int → Option (Option Int)}
    (hops : operands e = [x]) (ho : isOpaque tab e = false) (hx : Tried tab x a)
    (h : tab.tryEvalConstInt e = andThen f (tab.tryEvalConstInt x))
    (hf : f a = some (some v)) : Tried tab e v := by
  have hiff : Unfolded tab e ↔ Unfolded tab x := by
    rw [unfolded_iff, hops, ho]
    simp
  constructor
  · intro hu
    rw [h, hx.hidden (hiff.mp hu)]
    rfl
  · intro hnot
    rw [h, hx.folded fun hu => hnot (hiff.mpr hu)]
    exact hf

theorem Tried.binary {op : BinaryOp} {l r : Expr} {a c v : Int} {loc : SourceLoc}
    (hl : Tried tab l a) (hr : Tried tab r c) (h : tryArith op a c = some (some v)) :
    Tried tab ⟨.binaryOp op l r, loc⟩ v := by
  have hiff : Unfolded tab ⟨.binaryOp op l r, loc⟩ ↔ Unfolded tab l ∨ Unfolded tab r := by
    rw [unfolded_iff]
    simp [isOpaque, operands]
  have hright : ∀ hul : ¬ Unfolded tab l, tab.tryEvalConstInt ⟨.binaryOp op l r, loc⟩ =
      andThen (fun c => tryArith op a c) (tab.tryEvalConstInt r) := by
    intro hul
    rw [SymbolTable.tryEvalConstInt, hl.folded hul]
    rfl
  constructor
  · intro hu
    by_cases hul : Unfolded tab l
    · rw [SymbolTable.tryEvalConstInt, hl.hidden hul]
      rfl
    · have hur : Unfolded tab r := (hiff.mp hu).resolve_left hul
      rw [hright hul, hr.hidden hur]
      rfl
  · intro hnot
    rw [hright fun hul => hnot (hiff.mpr (.inl hul)),
      hr.folded fun hur => hnot (hiff.mpr (.inr hur))]
    exact h

theorem andThen_some (r : Option (Option Int)) : andThen (fun v => some (some v)) r = r := by
  rcases r with _ | _ | v <;> rfl

/-- A call that is folded has one operand, and its value is the operand's. -/
theorem tryEval_foldedCall {desig : Designator} {args : List Expr} {loc : SourceLoc}
    (hcall : isFoldedCall desig args = true) :
    ∃ x, operands ⟨.funcCall desig args, loc⟩ = [x] ∧
      tab.tryEvalConstInt ⟨.funcCall desig args, loc⟩ = tab.tryEvalConstInt x := by
  simp only [isFoldedCall, Bool.and_eq_true, Option.isNone_iff_eq_none, List.isEmpty_iff] at hcall
  obtain ⟨⟨hsel, hmod⟩, hname⟩ := hcall
  have hplain : desig.selectors.isEmpty = true ∧ desig.ident.moduleName = none :=
    ⟨List.isEmpty_iff.2 hsel, hmod⟩
  match args with
  | [] => simp at hname
  | [x] =>
    refine ⟨x, by simp [operands], ?_⟩
    rw [SymbolTable.tryEvalConstInt, if_pos hplain]
    simp only [SymbolTable.tryEvalArgs]
    split at hname <;> simp_all [tryCall]
  | y :: x :: rest =>
    have hval : desig.ident.name = "VAL" := by
      split at hname <;> first | assumption | simp_all
    refine ⟨x, by simp [operands, hval], ?_⟩
    rw [SymbolTable.tryEvalConstInt, if_pos hplain, hval]
    simp only [SymbolTable.tryEvalArgs, tryCall]

/-- Nothing comes out of a call of another function. -/
theorem tryEval_otherCall {desig : Designator} {args : List Expr} {loc : SourceLoc}
    (hcall : isFoldedCall desig args = false) :
    tab.tryEvalConstInt ⟨.funcCall desig args, loc⟩ = some none := by
  rw [SymbolTable.tryEvalConstInt]
  split
  · next hplain =>
    simp only [isFoldedCall, hplain.1, hplain.2, Option.isNone_none, Bool.true_and] at hcall
    cases args with
    | nil => simp [SymbolTable.tryEvalArgs, tryCall]
    | cons y args =>
      cases args with
      | nil =>
        simp only [SymbolTable.tryEvalArgs, tryCall]
        split at hcall <;> simp_all
      | cons x rest =>
        have hval : desig.ident.name ≠ "VAL" := by
          intro hname
          simp [hname] at hcall
        simp only [SymbolTable.tryEvalArgs, tryCall]
        split <;> simp_all
  · rfl

theorem operands_transfer {desig : Designator} {args : List Expr} {loc : SourceLoc} {t : CIntType}
    {x : Expr} (h : transferTo declared desig.ident.name args = some (t, x)) :
    operands ⟨.funcCall desig args, loc⟩ = [x] := by
  match args with
  | [] => exact nomatch h
  | [y] =>
    have hy : y = x := by
      unfold transferTo at h
      dsimp only at h
      split at h <;> simp_all
    rw [hy]
    simp [operands]
  | ty :: y :: rest =>
    simp only [transferTo, Option.ite_none_right_eq_some, Option.map_eq_some_iff] at h
    obtain ⟨hname, u, -, he⟩ := h
    cases he
    simp [operands, hname]

/-- A call that is folded is folded to the value of its operand. -/
theorem Tried.call {desig : Designator} {args : List Expr} {loc : SourceLoc} {x : Expr} {a : Int}
    (hcall : isFoldedCall desig args = true) (hops : operands ⟨.funcCall desig args, loc⟩ = [x])
    (hx : Tried tab x a) : Tried tab ⟨.funcCall desig args, loc⟩ a := by
  obtain ⟨y, hy, htry⟩ := @tryEval_foldedCall tab desig args loc hcall
  obtain rfl : x = y := List.head_eq_of_cons_eq (hops.symm.trans hy)
  apply Tried.of_operand hops (by simp [isOpaque, hcall]) hx
  · rw [htry, andThen_some]
  · rfl

/-- A name is folded to its own constant, or it is not folded. -/
theorem Tried.name {d : Designator} {loc : SourceLoc} {sym : Symbol} {v : Int}
    (hd : ownSymbol sema d = some sym) (hv : ordinalOf sym.kind = some v)
    (hright : FoldsRight sema declared builtin ⟨.designator d, loc⟩) :
    Tried sema.symtab ⟨.designator d, loc⟩ v := by
  by_cases hsel : d.selectors = []
  · cases hname : sema.symtab.ordinalNamed d.ident.name with
    | none =>
      apply Tried.of_opaque
      · simp [isOpaque, hname]
      · simp [SymbolTable.tryEvalConstInt, hsel, hname]
    | some w =>
      have hw := hright hsel w hname
      rw [hd, Option.bind_some, hv] at hw
      apply Tried.of_leaf rfl
      · simp [isOpaque, hsel, hname]
      · simp [SymbolTable.tryEvalConstInt, hsel, hname, hw]
  · apply Tried.of_opaque
    · simp [isOpaque, hsel]
    · simp [SymbolTable.tryEvalConstInt, hsel]

/-- Where every part that is folded is folded to its value, so is the whole. -/
theorem tried_of_value {e : Expr} {v : Int} (h : StepValue sema declared builtin e v)
    (hright : ∀ x, Subexpr x e → FoldsRight sema declared builtin x) :
    Tried sema.symtab e v := by
  induction h with
  | intLit | charLit | boolLit => exact Tried.of_leaf rfl rfl rfl
  | name hd hv => exact Tried.name hd hv (hright _ (.refl _))
  | neg hx hfit ih =>
    have hx' := ih fun y hy => hright y (.operand (List.mem_singleton_self _) hy)
    apply Tried.of_operand rfl rfl hx'
    · rw [SymbolTable.tryEvalConstInt]
    · simp [checked, hfit]
  | @binary op l r a c v loc hl hr harith ihl ihr =>
    have hl' := ihl fun y hy => hright y (.operand (by simp [operands]) hy)
    have hr' := ihr fun y hy => hright y (.operand (by simp [operands]) hy)
    obtain ⟨w, -, htry, hw⟩ := arith_of_runArith harith
    have hexact := hright _ (.refl _) a c hl hr
    rw [hw.mp hexact] at htry
    exact hl'.binary hr' htry
  | @chr desig x a loc hcall hname hx ha ih =>
    have hops : operands ⟨.funcCall desig [x], loc⟩ = [x] := by simp [operands, hname]
    exact (ih fun y hy => hright y (.operand (by simp [operands, hname]) hy)).call hcall hops
  | @transfer desig args x t a loc hcall ht hx ih =>
    have hops : operands ⟨.funcCall desig args, loc⟩ = [x] := operands_transfer ht
    rw [hright _ (.refl _) _ _ _ ht hx]
    exact (ih fun y hy => hright y (.operand (by simp [hops]) hy)).call hcall hops
  | call hcall h => exact Tried.of_opaque (by simp [isOpaque, hcall]) (tryEval_otherCall hcall)

/-- The direction is right where the step is folded; where a part of it is not folded, the leading
minus sign has to tell the sign of the value. -/
theorem forDirection_iff {b : HirBuilder} {e : Expr} {v : Int} (hsym : b.symtab = sema.symtab)
    (h : StepValue sema declared builtin e v)
    (hright : ∀ x, Subexpr x e → FoldsRight sema declared builtin x) :
    ∃ direction, b.forDirection (some e) = some direction ∧
      ((direction = .down ↔ v < 0) ↔
        (Unfolded b.symtab e → (isNegation e = true ↔ v < 0))) := by
  have htried := tried_of_value h hright
  rw [← hsym] at htried
  by_cases hu : Unfolded b.symtab e
  · have hnone := htried.hidden hu
    refine ⟨if isNegation e then .down else .up, ?_, ?_⟩
    · obtain ⟨kind, loc⟩ := e
      rw [HirBuilder.forDirection, HirBuilder.isNegativeExpr, hnone]
      cases kind with
      | unaryOp op x => cases op <;> rfl
      | intLit n => simp [SymbolTable.tryEvalConstInt] at hnone
      | _ => rfl
    · rw [imp_iff_right hu]
      cases isNegation e <;> simp
  · refine ⟨if v < 0 then .down else .up, ?_, ?_⟩
    · rw [HirBuilder.forDirection, HirBuilder.isNegativeExpr, htried.folded hu]
      simp
    · constructor
      · exact fun _ hu' => absurd hu' hu
      · intro _
        split <;> simp [*]

end

end Mx.HirBuild

import Mx.Sema.ConstEval

/-!
# Folded constants and emitted code

What the emitted code computes for a constant expression, with the arithmetic of `m2_div64` and
`m2_mod64`, beside the two evaluators of the compiler. All three agree on an expression and its
parts exactly where rounding towards zero is rounding down, where no arithmetic is done on
characters, where a type transfer keeps the value and where every name finds its own constant.
-/

namespace Mx.Sema

open Ast List

/-! ## Run time -/

/-- The C integer type of the predefined type names; that of a declared type is up to its
declaration. -/
def transferType (declared : String → Option CIntType) (name : String) : Option CIntType :=
  match name with
  | "INTEGER" | "INT" | "TRUNC" | "SHORT" | "BOOLEAN" => some .int
  | "CARDINAL" | "WORD" => some .uint
  | "LONGINT" | "LONG" => some .long
  | "LONGCARD" => some .ulong
  | "CHAR" | "CHR" | "BYTE" => some .uchar
  | "REAL" | "FLOAT" | "LONGREAL" | "LFLOAT" | "ADDRESS" => none
  | _ => declared name

/-- The target of `VAL`. -/
def transferTarget (declared : String → Option CIntType) : Expr → Option CIntType
  | ⟨.designator d, _⟩ => transferType declared d.ident.name
  | _ => some .int

/-- The operators at run time, in 64 bits. -/
def runArith (op : BinaryOp) (a b : Int) : Option Int :=
  match op with
  | .add => checked (a + b)
  | .sub => checked (a - b)
  | .mul => checked (a * b)
  | .intDiv => m2Div .long a b
  | .mod => m2Mod .long a b
  | _ => none

/-- The type transfers at run time. -/
def runCall (declared : String → Option CIntType) (name : String) (args : List Expr)
    (values : List (Option Int)) : Option Int :=
  match name, args, values with
  | "CHR", _, [v] => v.bind fun a => if 0 ≤ a ∧ a < 256 then some a else none
  | "ORD", _, [v] => v.map CIntType.int.convert
  | "VAL", ty :: _, _ :: v :: _ =>
    (transferTarget declared ty).bind fun t => v.map t.convert
  | _, _, _ => none

/-- The integer constant that a name or a qualified name stands for. -/
def runConstant (sema : SemanticAnalyzer) (d : Designator) : Option Int :=
  let sym := match d.selectors with
    | [] => sema.symtab.lookupInScope sema.currentScope d.ident.name
    | [.field name] => sema.symtab.lookupQualified d.ident.name name
    | _ => none
  sym.bind fun sym =>
    match sym.kind with
    | .constant (.integer v) => some v
    | _ => none

section

variable (sema : SemanticAnalyzer) (declared : String → Option CIntType)

mutual

/-- The value of an expression of integer and character literals, integer constants, arithmetic and
type transfers at run time; there is none for a zero divisor, for a value outside 64 bits and for a
character outside the character set. -/
def runConst : Expr → Option Int
  | ⟨.intLit v, _⟩ => checked v
  | ⟨.charLit c, _⟩ => if c.toNat < 256 then some c.toNat else none
  | ⟨.designator d, _⟩ => runConstant sema d
  | ⟨.unaryOp .neg operand, _⟩ => (runConst operand).bind fun v => checked (-v)
  | ⟨.binaryOp op left right, _⟩ =>
    (runConst left).bind fun a => (runConst right).bind fun b => runArith op a b
  | ⟨.funcCall desig args, _⟩ =>
    if desig.selectors.isEmpty ∧ desig.ident.moduleName = none then
      runCall declared desig.ident.name args (runArgs args)
    else none
  | _ => none

/-- The values of the arguments. -/
def runArgs : List Expr → List (Option Int)
  | [] => []
  | e :: es => runConst e :: runArgs es

end

end

/-! ## Agreement -/

/-- The parts of an expression whose values its own value comes from. -/
def operands : Expr → List Expr
  | ⟨.unaryOp _ operand, _⟩ => [operand]
  | ⟨.binaryOp _ left right, _⟩ => [left, right]
  | ⟨.funcCall desig args, _⟩ =>
    match desig.ident.name, args with
    | "VAL", _ :: e :: _ => [e]
    | _, [e] => [e]
    | _, _ => []
  | _ => []

/-- An expression and the parts of it that have a value. -/
inductive Subexpr : Expr → Expr → Prop where
  | refl (e : Expr) : Subexpr e e
  | operand {s x e : Expr} (hx : x ∈ operands e) (hs : Subexpr s x) : Subexpr s e

/-- Semantic analysis keeps the value as a character. -/
def isCharacter : Expr → Bool
  | ⟨.charLit _, _⟩ => true
  | ⟨.unaryOp .neg operand, _⟩ => isCharacter operand
  | ⟨.funcCall desig args, _⟩ =>
    match desig.ident.name, args with
    | "CHR", [_] => true
    | "VAL", _ :: e :: _ => isCharacter e
    | _, _ => false
  | _ => false

/-- The constant that semantic analysis keeps for a value. -/
def constOf (c : Bool) (v : Int) : ConstValue := if c then .char (charOfInt v) else .integer v

section

variable (sema : SemanticAnalyzer) (declared : String → Option CIntType)

/-- Both evaluators compute the value. -/
def Agrees (e : Expr) (v : Int) : Prop :=
  sema.evalConstInt e = some (some v) ∧ sema.symtab.tryEvalConstInt e = some (some v)

/-- Folding the outermost operation is what the emitted code does: the name finds its own constant,
no arithmetic is done on characters unless it comes to zero, rounding towards zero is rounding down
and the type transfer keeps the value. -/
def Exact : Expr → Prop
  | ⟨.designator d, _⟩ =>
    d.selectors = [] ∧ sema.symtab.ordinalNamed d.ident.name = runConstant sema d
  | ⟨.unaryOp _ operand, _⟩ =>
    isCharacter operand = true → runConst sema declared operand = some 0
  | ⟨.binaryOp op left right, _⟩ =>
    ∀ a b, runConst sema declared left = some a → runConst sema declared right = some b →
      (isCharacter left = true ∨ isCharacter right = true → runArith op a b = some 0) ∧
        (op = .intDiv ∨ op = .mod → ExactDiv op a b)
  | ⟨.funcCall desig args, _⟩ =>
    match desig.ident.name, args with
    | "ORD", [x] => ∀ a, runConst sema declared x = some a → CIntType.int.convert a = a
    | "VAL", ty :: x :: _ => ∀ a t, runConst sema declared x = some a →
        transferTarget declared ty = some t → t.convert a = a
    | _, _ => True
  | _ => True

/-- Both evaluators hold the value, semantic analysis as a character or as an integer. -/
structure Evaluated (e : Expr) (v : Int) : Prop where
  folded : sema.evalConstExpr e = some (constOf (isCharacter e) v)
  tried : sema.symtab.tryEvalConstInt e = some (some v)
  character : isCharacter e = true → 0 ≤ v ∧ v < 256

end

variable {sema : SemanticAnalyzer} {declared : String → Option CIntType}

variable {v : Int}

theorem toNat_charOfInt (h : 0 ≤ v ∧ v < 256) : ((charOfInt v).toNat : Int) = v := by
  have hmod : v % 256 = v := Int.emod_eq_of_lt h.1 h.2
  have hvalid : v.toNat.isValidChar := by
    left
    omega
  have hnat : (Char.ofNat v.toNat).toNat = v.toNat := by
    rw [Char.ofNat, dif_pos hvalid]
    rfl
  rw [charOfInt, hmod, hnat]
  omega

theorem charOfInt_toNat {c : Char} (h : c.toNat < 256) : charOfInt c.toNat = c := by
  have hmod : ((c.toNat : Int) % 256) = c.toNat := Int.emod_eq_of_lt (by omega) (by omega)
  rw [charOfInt, hmod, Int.toNat_natCast, Char.ofNat_toNat]

theorem toInt_constOf {c : Bool} (h : c = true → 0 ≤ v ∧ v < 256) :
    (constOf c v).toInt = some v := by
  cases c with
  | false => rfl
  | true => exact congrArg some (toNat_charOfInt (h rfl))

variable {e : Expr}

/-- What is held is what is agreed on. -/
theorem Evaluated.agrees (h : Evaluated sema e v) : Agrees sema e v := by
  constructor
  · rw [SemanticAnalyzer.evalConstInt, h.folded, Option.map_some, toInt_constOf h.character]
  · exact h.tried

theorem checked_eq_some {w : Int} : checked v = some w ↔ CIntType.long.Fits v ∧ v = w := by
  rw [checked]
  split
  next h => simp [h]
  next h => simp [h]

variable {a : Int}

/-- The operators of both evaluators round towards zero and agree with the emitted code on
everything else. -/
theorem arith_of_runArith {op : BinaryOp} {b : Int} (h : runArith op a b = some v) :
    ∃ w, constArith op a b = some w ∧ tryArith op a b = some (some w) ∧
      ((op = .intDiv ∨ op = .mod → ExactDiv op a b) ↔ w = v) := by
  have hfit : ∀ {u : Int}, CIntType.long.Fits u → CIntType.long.convert u = u :=
    fun hu => CIntType.convert_of_fits (by decide) hu
  cases op with
  | add =>
    obtain ⟨hfits, rfl⟩ := checked_eq_some.1 h
    exact ⟨a + b, by rw [constArith, hfit hfits], by simp [tryArith, checked, hfits], by simp⟩
  | sub =>
    obtain ⟨hfits, rfl⟩ := checked_eq_some.1 h
    exact ⟨a - b, by rw [constArith, hfit hfits], by simp [tryArith, checked, hfits], by simp⟩
  | mul =>
    obtain ⟨hfits, rfl⟩ := checked_eq_some.1 h
    exact ⟨a * b, by rw [constArith, hfit hfits], by simp [tryArith, checked, hfits], by simp⟩
  | intDiv =>
    have hdef : ¬ (b = 0 ∨ ¬ CIntType.long.Fits (a.tdiv b)) := by
      intro hundef
      rw [runArith, m2Div, if_pos hundef] at h
      exact absurd h.symm (Option.some_ne_none _)
    rw [not_or, not_not] at hdef
    refine ⟨a.tdiv b, by simp [constArith, checked, hdef], by simp [tryArith, checked, hdef], ?_⟩
    constructor
    · intro hexact
      have heq := m2Div_of_exact (hexact (.inl rfl)) hdef.1 hdef.2
      exact Option.some.inj (heq.symm.trans h)
    · rintro rfl _
      exact CodeGen.exactDiv_of_m2Div h
  | mod =>
    have hdef : ¬ (b = 0 ∨ ¬ CIntType.long.Fits (a.tdiv b)) := by
      intro hundef
      rw [runArith, m2Mod, if_pos hundef] at h
      exact absurd h.symm (Option.some_ne_none _)
    rw [not_or, not_not] at hdef
    refine ⟨a.tmod b, by simp [constArith, checkedRem, hdef],
      by simp [tryArith, checkedRem, hdef], ?_⟩
    constructor
    · intro hexact
      have heq := m2Mod_of_exact (hexact (.inr rfl)) hdef.1 hdef.2
      exact Option.some.inj (heq.symm.trans h)
    · rintro rfl _
      exact CodeGen.exactDiv_of_m2Mod h
  | realDiv | and | or | eq | ne | lt | le | gt | ge | isIn =>
    exact absurd h.symm (Option.some_ne_none _)

/-- An operator on two constants, of which a character makes the result zero. -/
theorem binary_constOf (op : BinaryOp) (c d : Bool) (a b : Int) :
    (constOf c a).binary op (constOf d b) =
      if c = true ∨ d = true then some (.integer 0) else (constArith op a b).map .integer := by
  cases c <;> cases d <;> rfl

/-! ## One operation -/

example (n : Int) (l : SourceLoc) : Exact sema declared ⟨.intLit n, l⟩ ∧
    operands ⟨.intLit n, l⟩ = [] ∧ runArgs sema declared [] = [] ∧
    runConst sema declared ⟨.intLit n, l⟩ = checked n ∧ isCharacter ⟨.intLit n, l⟩ = false ∧
    sema.evalConstExpr ⟨.intLit n, l⟩ = some (.integer n) ∧
    sema.symtab.tryEvalConstInt ⟨.intLit n, l⟩ = some (some n) := by
  simp only [Exact, operands, runArgs, runConst, isCharacter, SemanticAnalyzer.evalConstExpr,
    SymbolTable.tryEvalConstInt, and_self]

/-- What one operation does, on operands that both evaluators hold: folding it exactly keeps the
value, and agreeing on it is folding it exactly. -/
structure OneStep (sema : SemanticAnalyzer) (declared : String → Option CIntType) (e : Expr)
    (v : Int) : Prop where
  evaluated : Exact sema declared e → Evaluated sema e v
  exact : Agrees sema e v → Exact sema declared e

variable {loc : SourceLoc}

theorem oneStep_intLit {n : Int} (hrun : runConst sema declared ⟨.intLit n, loc⟩ = some v) :
    OneStep sema declared ⟨.intLit n, loc⟩ v := by
  obtain ⟨-, rfl⟩ := checked_eq_some.1 hrun
  constructor
  · intro _
    exact ⟨rfl, rfl, nofun⟩
  · intro _
    trivial

theorem oneStep_charLit {c : Char} (hrun : runConst sema declared ⟨.charLit c, loc⟩ = some v) :
    OneStep sema declared ⟨.charLit c, loc⟩ v := by
  rw [runConst] at hrun
  split at hrun
  next hc =>
    cases hrun
    constructor
    · intro _
      exact ⟨congrArg (fun d => some (ConstValue.char d)) (charOfInt_toNat hc).symm, rfl,
        fun _ => by omega⟩
    · intro _
      trivial
  next => exact nomatch hrun

/-- A name denotes its constant in the scope; a qualified name is not folded. -/
theorem oneStep_designator {d : Designator}
    (hrun : runConst sema declared ⟨.designator d, loc⟩ = some v) :
    OneStep sema declared ⟨.designator d, loc⟩ v := by
  rw [runConst] at hrun
  constructor
  · rintro ⟨hsel, hname⟩
    rw [hrun] at hname
    have hfold : sema.constNamed d.ident.name = .integer v := by
      rw [runConstant, hsel] at hrun
      dsimp only at hrun
      rw [SemanticAnalyzer.constNamed]
      cases hsym : sema.symtab.lookupInScope sema.currentScope d.ident.name with
      | none => simp [hsym] at hrun
      | some sym =>
        rw [hsym, Option.bind_some] at hrun
        dsimp only
        split at hrun
        next w hkind =>
          cases hrun
          rw [hkind]
        next => exact absurd hrun.symm (Option.some_ne_none _)
    refine ⟨?_, ?_, fun hc => absurd hc Bool.false_ne_true⟩
    · rw [SemanticAnalyzer.evalConstExpr, hfold]
      rfl
    · rw [SymbolTable.tryEvalConstInt, hsel, hname]
      rfl
  · rintro ⟨-, htry⟩
    rw [SymbolTable.tryEvalConstInt] at htry
    split at htry
    next hsel =>
      exact ⟨List.isEmpty_iff.1 hsel, (Option.some.inj htry).trans hrun.symm⟩
    next => exact absurd (Option.some.inj htry).symm (Option.some_ne_none _)

variable {x : Expr}

/-- The minus sign does nothing to a character. -/
theorem oneStep_neg
    (hx : runConst sema declared x = some a) (hheld : Evaluated sema x a)
    (hrun : runConst sema declared ⟨.unaryOp .neg x, loc⟩ = some v) :
    OneStep sema declared ⟨.unaryOp .neg x, loc⟩ v := by
  rw [runConst, hx, Option.bind_some] at hrun
  obtain ⟨hfits, rfl⟩ := checked_eq_some.1 hrun
  have htry : sema.symtab.tryEvalConstInt ⟨.unaryOp .neg x, loc⟩ = some (some (-a)) := by
    rw [SymbolTable.tryEvalConstInt, hheld.tried, andThen, checked, if_pos hfits]
    rfl
  have hfold : sema.evalConstExpr ⟨.unaryOp .neg x, loc⟩ =
      some (constOf (isCharacter x) (if isCharacter x = true then a else -a)) := by
    rw [SemanticAnalyzer.evalConstExpr, hheld.folded, Option.bind_some]
    cases isCharacter x with
    | false => simp [constOf, ConstValue.neg, checked, hfits]
    | true => rfl
  constructor
  · intro hexact
    have hzero : (if isCharacter x = true then a else -a) = -a := by
      split
      next hc =>
        cases hx.symm.trans (hexact hc)
        rfl
      next => rfl
    refine ⟨by rw [hfold, hzero, isCharacter], htry, fun hc => ?_⟩
    rw [isCharacter] at hc
    cases hx.symm.trans (hexact hc)
    decide
  · rintro ⟨hint, -⟩ hc
    rw [SemanticAnalyzer.evalConstInt, hfold, if_pos hc, Option.map_some,
      toInt_constOf hheld.character] at hint
    have heq : a = -a := Option.some.inj (Option.some.inj hint)
    rw [hx]
    exact congrArg some (by omega)

/-- A binary operator gives zero on a character and rounds a quotient towards zero. -/
theorem oneStep_binary {op : BinaryOp} {l r : Expr} {b : Int}
    (hl : runConst sema declared l = some a) (hr : runConst sema declared r = some b)
    (hleft : Evaluated sema l a) (hright : Evaluated sema r b)
    (hrun : runConst sema declared ⟨.binaryOp op l r, loc⟩ = some v) :
    OneStep sema declared ⟨.binaryOp op l r, loc⟩ v := by
  rw [runConst, hl, hr, Option.bind_some, Option.bind_some] at hrun
  obtain ⟨w, hconst, htryArith, hw⟩ := arith_of_runArith hrun
  have htry : sema.symtab.tryEvalConstInt ⟨.binaryOp op l r, loc⟩ = some (some w) := by
    rw [SymbolTable.tryEvalConstInt, hleft.tried, hright.tried]
    exact htryArith
  have hfold : sema.evalConstExpr ⟨.binaryOp op l r, loc⟩ =
      some (.integer (if isCharacter l = true ∨ isCharacter r = true then 0 else w)) := by
    rw [SemanticAnalyzer.evalConstExpr, hleft.folded, hright.folded, Option.bind_some,
      Option.bind_some, binary_constOf, hconst]
    split <;> rfl
  constructor
  · intro hexact
    obtain ⟨hchar, hround⟩ := hexact a b hl hr
    have hwv := hw.1 hround
    refine ⟨?_, by rw [htry, hwv], fun hc => absurd hc Bool.false_ne_true⟩
    rw [hfold]
    split
    next hc =>
      cases hrun.symm.trans (hchar hc)
      rfl
    next => rw [hwv]; rfl
  · rintro ⟨hint, htried⟩ a' b' ha hb
    cases hl.symm.trans ha
    cases hr.symm.trans hb
    have hwv : w = v := Option.some.inj (Option.some.inj (htry.symm.trans htried))
    refine ⟨fun hc => ?_, hw.2 hwv⟩
    rw [SemanticAnalyzer.evalConstInt, hfold, if_pos hc] at hint
    have hzero : (0 : Int) = v := Option.some.inj (Option.some.inj hint)
    rw [hrun, hzero]

variable {args : List Expr}

/-- The calls that have a value at run time. -/
theorem runCall_cases {name : String} {values : List (Option Int)}
    (h : runCall declared name args values = some v) :
    (name = "CHR" ∧ ∃ a, values = [some a] ∧ (0 ≤ a ∧ a < 256) ∧ v = a) ∨
      (name = "ORD" ∧ ∃ a, values = [some a] ∧ v = CIntType.int.convert a) ∨
      (name = "VAL" ∧ ∃ ty args' w a rest t, args = ty :: args' ∧ values = w :: some a :: rest ∧
        transferTarget declared ty = some t ∧ v = t.convert a) := by
  unfold runCall at h
  split at h
  next w =>
    obtain ⟨a, rfl, hrange⟩ := Option.bind_eq_some_iff.1 h
    split at hrange
    next ha =>
      cases hrange
      exact .inl ⟨rfl, _, rfl, ha, rfl⟩
    next => exact nomatch hrange
  next w =>
    obtain ⟨a, rfl, rfl⟩ := Option.map_eq_some_iff.1 h
    exact .inr (.inl ⟨rfl, a, rfl, rfl⟩)
  next ty args' w w' rest =>
    obtain ⟨t, ht, h⟩ := Option.bind_eq_some_iff.1 h
    obtain ⟨a, rfl, rfl⟩ := Option.map_eq_some_iff.1 h
    exact .inr (.inr ⟨rfl, ty, args', w, a, rest, t, rfl, rfl, ht, rfl⟩)
  next => exact nomatch h

theorem runArgs_singleton (h : runArgs sema declared args = [some a]) :
    ∃ x, args = [x] ∧ runConst sema declared x = some a := by
  match args, h with
  | [x], h =>
    rw [runArgs, runArgs] at h
    exact ⟨x, rfl, head_eq_of_cons_eq h⟩
  | _ :: _ :: _, h => simp [runArgs] at h

/-- A second argument with its value. -/
theorem runArgs_second {w : Option Int} {rest : List (Option Int)}
    (h : runArgs sema declared args = w :: some a :: rest) :
    ∃ y x args', args = y :: x :: args' ∧ runConst sema declared x = some a := by
  match args, h with
  | [_], h => simp [runArgs] at h
  | y :: x :: args', h =>
    rw [runArgs, runArgs] at h
    exact ⟨y, x, args', rfl, head_eq_of_cons_eq (tail_eq_of_cons_eq h)⟩

variable {desig : Designator}

/-- The calls with a value, with the argument the value comes from. -/
theorem runConst_funcCall
    (h : runConst sema declared ⟨.funcCall desig args, loc⟩ = some v) :
    (desig.selectors.isEmpty = true ∧ desig.ident.moduleName = none) ∧
      ((desig.ident.name = "CHR" ∧ ∃ x a, args = [x] ∧ runConst sema declared x = some a ∧
          (0 ≤ a ∧ a < 256) ∧ v = a) ∨
        (desig.ident.name = "ORD" ∧ ∃ x a, args = [x] ∧ runConst sema declared x = some a ∧
          v = CIntType.int.convert a) ∨
        (desig.ident.name = "VAL" ∧ ∃ ty x rest a t, args = ty :: x :: rest ∧
          runConst sema declared x = some a ∧ transferTarget declared ty = some t ∧
          v = t.convert a)) := by
  rw [runConst] at h
  split at h
  next hplain =>
    refine ⟨hplain, ?_⟩
    rcases runCall_cases h with ⟨hname, a, hvalues, ha, rfl⟩ | ⟨hname, a, hvalues, rfl⟩ |
      ⟨hname, ty, args', w, a, rest, t, rfl, hvalues, ht, rfl⟩
    · obtain ⟨x, rfl, hx⟩ := runArgs_singleton hvalues
      exact .inl ⟨hname, x, _, rfl, hx, ha, rfl⟩
    · obtain ⟨x, rfl, hx⟩ := runArgs_singleton hvalues
      exact .inr (.inl ⟨hname, x, a, rfl, hx, rfl⟩)
    · obtain ⟨y, x, args', heq, hx⟩ := runArgs_second hvalues
      cases heq
      exact .inr (.inr ⟨hname, ty, x, args', a, t, rfl, hx, ht, rfl⟩)
  next => exact nomatch h

theorem oneStep_chr
    (hplain : desig.selectors.isEmpty = true ∧ desig.ident.moduleName = none)
    (hname : desig.ident.name = "CHR") (ha : 0 ≤ a ∧ a < 256) (hheld : Evaluated sema x a) :
    OneStep sema declared ⟨.funcCall desig [x], loc⟩ a := by
  have hc : isCharacter ⟨.funcCall desig [x], loc⟩ = true := by
    simp [isCharacter, hname]
  constructor
  · intro _
    refine ⟨?_, ?_, fun _ => ha⟩
    · have hchr : (constOf (isCharacter x) a).chr = .char (charOfInt a) := by
        cases isCharacter x <;> rfl
      rw [hc, SemanticAnalyzer.evalConstExpr, if_pos hplain, hname]
      simp only [SemanticAnalyzer.evalArgs, SemanticAnalyzer.callConst, hheld.folded,
        Option.map_some, hchr]
      rfl
    · rw [SymbolTable.tryEvalConstInt, if_pos hplain, hname]
      simp [SymbolTable.tryEvalArgs, tryCall, hheld.tried]
  · intro _
    simp [Exact, hname]

/-- `ORD` is folded to the value of its operand, whatever the integer type at run time holds. -/
theorem oneStep_ord
    (hplain : desig.selectors.isEmpty = true ∧ desig.ident.moduleName = none)
    (hname : desig.ident.name = "ORD") (hx : runConst sema declared x = some a)
    (hheld : Evaluated sema x a) :
    OneStep sema declared ⟨.funcCall desig [x], loc⟩ (CIntType.int.convert a) := by
  have hc : isCharacter ⟨.funcCall desig [x], loc⟩ = false := by
    simp [isCharacter, hname]
  have hord : (constOf (isCharacter x) a).ord = .integer a := by
    cases hcx : isCharacter x with
    | false => rfl
    | true => exact congrArg ConstValue.integer (toNat_charOfInt (hheld.character hcx))
  have hfold : sema.evalConstExpr ⟨.funcCall desig [x], loc⟩ = some (.integer a) := by
    rw [SemanticAnalyzer.evalConstExpr, if_pos hplain, hname]
    simp [SemanticAnalyzer.evalArgs, SemanticAnalyzer.callConst, hheld.folded, hord]
  have htry : sema.symtab.tryEvalConstInt ⟨.funcCall desig [x], loc⟩ = some (some a) := by
    rw [SymbolTable.tryEvalConstInt, if_pos hplain, hname]
    simp [SymbolTable.tryEvalArgs, tryCall, hheld.tried]
  have hexact : Exact sema declared ⟨.funcCall desig [x], loc⟩ ↔ CIntType.int.convert a = a := by
    simp only [Exact, hname]
    constructor
    · intro h
      exact h a hx
    · intro h b hb
      cases hx.symm.trans hb
      exact h
  constructor
  · intro h
    rw [hexact.1 h]
    exact ⟨by rw [hfold, hc]; rfl, htry,
      fun h => by rw [hc] at h; exact absurd h Bool.false_ne_true⟩
  · rintro ⟨-, htried⟩
    exact hexact.2 (Option.some.inj (Option.some.inj (htry.symm.trans htried))).symm

/-- `VAL` is folded to its operand. -/
theorem oneStep_val {ty : Expr} {rest : List Expr} {t : CIntType}
    (hplain : desig.selectors.isEmpty = true ∧ desig.ident.moduleName = none)
    (hname : desig.ident.name = "VAL") (hx : runConst sema declared x = some a)
    (ht : transferTarget declared ty = some t) (hheld : Evaluated sema x a) :
    OneStep sema declared ⟨.funcCall desig (ty :: x :: rest), loc⟩ (t.convert a) := by
  have hc : isCharacter ⟨.funcCall desig (ty :: x :: rest), loc⟩ = isCharacter x := by
    simp [isCharacter, hname]
  have hfold : sema.evalConstExpr ⟨.funcCall desig (ty :: x :: rest), loc⟩ =
      some (constOf (isCharacter x) a) := by
    rw [SemanticAnalyzer.evalConstExpr, if_pos hplain, hname]
    simp [SemanticAnalyzer.evalArgs, SemanticAnalyzer.callConst, hheld.folded]
  have htry : sema.symtab.tryEvalConstInt ⟨.funcCall desig (ty :: x :: rest), loc⟩ =
      some (some a) := by
    rw [SymbolTable.tryEvalConstInt, if_pos hplain, hname]
    simp [SymbolTable.tryEvalArgs, tryCall, hheld.tried]
  have hexact : Exact sema declared ⟨.funcCall desig (ty :: x :: rest), loc⟩ ↔
      t.convert a = a := by
    simp only [Exact, hname]
    constructor
    · intro h
      exact h a t hx ht
    · intro h b u hb hu
      cases hx.symm.trans hb
      cases ht.symm.trans hu
      exact h
  constructor
  · intro h
    rw [hexact.1 h]
    exact ⟨by rw [hfold, hc], htry, fun h => hheld.character (hc.symm.trans h)⟩
  · rintro ⟨-, htried⟩
    exact hexact.2 (Option.some.inj (Option.some.inj (htry.symm.trans htried))).symm

/-! ## Whole expressions -/

theorem Subexpr.trans {s : Expr} (hx : Subexpr x s) (hs : Subexpr s e) : Subexpr x e := by
  induction hs with
  | refl => exact hx
  | operand hy _ ih => exact .operand hy ih

theorem sizeOf_operand (h : x ∈ operands e) : sizeOf x < sizeOf e := by
  obtain ⟨kind, loc⟩ := e
  unfold operands at h
  split at h
  next heq =>
    cases heq
    cases mem_singleton.1 h
    simp
    omega
  next heq =>
    cases heq
    rcases mem_pair.1 h with rfl | rfl <;> simp <;> omega
  next heq =>
    cases heq
    split at h
    · cases mem_singleton.1 h
      simp
      omega
    · cases mem_singleton.1 h
      simp
      omega
    · exact absurd h (not_mem_nil)
  next => exact absurd h (not_mem_nil)

/-- Where the operands are held, the operation is one step. -/
theorem oneStep (hrun : runConst sema declared e = some v)
    (hheld : ∀ x ∈ operands e, ∀ a, runConst sema declared x = some a → Evaluated sema x a) :
    OneStep sema declared e v := by
  obtain ⟨kind, loc⟩ := e
  cases kind with
  | intLit n => exact oneStep_intLit hrun
  | charLit c => exact oneStep_charLit hrun
  | designator d => exact oneStep_designator hrun
  | unaryOp op x =>
    cases op with
    | pos => simp [runConst] at hrun
    | neg =>
      have hx := hrun
      rw [runConst] at hx
      obtain ⟨a, hx, -⟩ := Option.bind_eq_some_iff.1 hx
      exact oneStep_neg hx (hheld x (by simp [operands]) a hx) hrun
  | binaryOp op l r =>
    have hlr := hrun
    rw [runConst] at hlr
    obtain ⟨a, hl, hlr⟩ := Option.bind_eq_some_iff.1 hlr
    obtain ⟨b, hr, -⟩ := Option.bind_eq_some_iff.1 hlr
    exact oneStep_binary hl hr (hheld l (by simp [operands]) a hl)
      (hheld r (by simp [operands]) b hr) hrun
  | funcCall desig args =>
    obtain ⟨hplain, ⟨hname, x, a, rfl, hx, ha, rfl⟩ | ⟨hname, x, a, rfl, hx, rfl⟩ |
      ⟨hname, ty, x, rest, a, t, rfl, hx, ht, rfl⟩⟩ := runConst_funcCall hrun
    · exact oneStep_chr hplain hname ha (hheld x (by simp [operands, hname]) _ hx)
    · exact oneStep_ord hplain hname hx (hheld x (by simp [operands, hname]) a hx)
    · exact oneStep_val hplain hname hx ht (hheld x (by simp [operands, hname]) a hx)
  | realLit | stringLit | boolLit | nilLit | setConstructor | not | deref =>
    simp [runConst] at hrun

/-- The operands of an expression with a value have values. -/
theorem runConst_operand (hrun : runConst sema declared e = some v)
    (hx : x ∈ operands e) : ∃ a, runConst sema declared x = some a := by
  obtain ⟨kind, loc⟩ := e
  cases kind with
  | unaryOp op y =>
    cases op with
    | pos => simp [runConst] at hrun
    | neg =>
      rw [runConst] at hrun
      obtain ⟨a, hy, -⟩ := Option.bind_eq_some_iff.1 hrun
      cases mem_singleton.1 hx
      exact ⟨a, hy⟩
  | binaryOp op l r =>
    rw [runConst] at hrun
    obtain ⟨a, hl, hrun⟩ := Option.bind_eq_some_iff.1 hrun
    obtain ⟨b, hr, -⟩ := Option.bind_eq_some_iff.1 hrun
    rcases mem_pair.1 hx with rfl | rfl
    · exact ⟨a, hl⟩
    · exact ⟨b, hr⟩
  | funcCall desig args =>
    obtain ⟨hplain, ⟨hname, y, a, rfl, hy, ha, rfl⟩ | ⟨hname, y, a, rfl, hy, rfl⟩ |
      ⟨hname, ty, y, rest, a, t, rfl, hy, ht, rfl⟩⟩ := runConst_funcCall hrun
    all_goals
      simp only [operands, hname, mem_singleton] at hx
      subst hx
      exact ⟨_, hy⟩
  | intLit | charLit | designator | realLit | stringLit | boolLit | nilLit | setConstructor | not
  | deref => exact absurd hx (not_mem_nil)

/-- Where every part is folded exactly, both evaluators hold the value. -/
theorem evaluated_of_exact :
    ∀ (n : Nat) (e : Expr) (v : Int), sizeOf e ≤ n → runConst sema declared e = some v →
      (∀ s, Subexpr s e → Exact sema declared s) → Evaluated sema e v := by
  intro n
  induction n with
  | zero =>
    intro e v hsize
    obtain ⟨kind, loc⟩ := e
    simp at hsize
  | succ n ih =>
    intro e v hsize hrun hexact
    apply (oneStep hrun ?_).evaluated (hexact e (.refl e))
    intro x hx a ha
    have hlt := sizeOf_operand hx
    exact ih x a (by omega) ha fun s hs => hexact s (.operand hx hs)

/-- Where both evaluators agree with the emitted code on every part, every part is folded
exactly. -/
theorem exact_of_agrees :
    ∀ (n : Nat) (e : Expr) (v : Int), sizeOf e ≤ n → runConst sema declared e = some v →
      (∀ s, Subexpr s e → ∀ a, runConst sema declared s = some a → Agrees sema s a) →
      ∀ s, Subexpr s e → Exact sema declared s := by
  intro n
  induction n with
  | zero =>
    intro e v hsize
    obtain ⟨kind, loc⟩ := e
    simp at hsize
  | succ n ih =>
    intro e v hsize hrun hagrees
    have hparts : ∀ x ∈ operands e, ∀ s, Subexpr s x → Exact sema declared s := by
      intro x hx
      obtain ⟨a, ha⟩ := runConst_operand hrun hx
      have hlt := sizeOf_operand hx
      exact ih x a (by omega) ha fun s hs => hagrees s (.operand hx hs)
    intro s hs
    rcases hs with _ | ⟨hx, hs⟩
    · apply (oneStep hrun ?_).exact (hagrees _ (.refl _) v hrun)
      intro x hx a ha
      exact evaluated_of_exact _ x a le_rfl ha (hparts x hx)
    · exact hparts _ hx s hs

/-- The evaluators of semantic analysis and of the HIR builder agree with the emitted code on an
expression and on all its parts exactly where each operation of it is folded exactly. -/
theorem folding_agrees_iff {e : Expr} {v : Int} (hrun : runConst sema declared e = some v) :
    (∀ s, Subexpr s e → ∀ a, runConst sema declared s = some a → Agrees sema s a) ↔
      ∀ s, Subexpr s e → Exact sema declared s := by
  constructor
  · exact exact_of_agrees _ e v le_rfl hrun
  · intro hexact s hs a ha
    have hparts : ∀ x, Subexpr x s → Exact sema declared x := fun x hx => hexact x (hx.trans hs)
    exact (evaluated_of_exact _ s a le_rfl ha hparts).agrees

example : runArith .sub 1 2 = some (-1) := by decide +kernel

/-- A number without a position. -/
def num (v : Int) : Expr := ⟨.intLit v, .cfg⟩

theorem noScopes_parent_lt (id : Nat) (s : Scope) (h : ([] : List Scope)[id]? = some s) (p : Nat)
    (_ : s.parent = some p) : p < id := by
  simp at h

/-- Nothing declared. -/
def noSymbols : SemanticAnalyzer := ⟨⟨[], noScopes_parent_lt⟩, 0, ⟨[]⟩⟩

/-- Minus eight by two. -/
theorem folding_agrees_minus_eight :
    Agrees noSymbols ⟨.binaryOp .intDiv (num (-8)) (num 2), .cfg⟩ (-4) := by
  have hrun : runConst noSymbols (fun _ => none)
      ⟨.binaryOp .intDiv (num (-8)) (num 2), .cfg⟩ = some (-4) := by decide +kernel
  apply (folding_agrees_iff hrun).2 _ _ (.refl _) _ hrun
  intro s hs
  rcases hs with _ | ⟨hx, hs⟩
  · intro a b ha hb
    cases ha
    cases hb
    exact ⟨fun h => by simp [isCharacter, num] at h, fun _ => .inl (by decide)⟩
  · rcases mem_pair.1 hx with rfl | rfl
    · rcases hs with _ | ⟨hx, _⟩
      · trivial
      · exact absurd hx (not_mem_nil)
    · rcases hs with _ | ⟨hx, _⟩
      · trivial
      · exact absurd hx (not_mem_nil)

/-- Minus seven by two is minus four at run time and folded to minus three. -/
theorem not_folding_agrees :
    ¬ ∀ (sema : SemanticAnalyzer) (declared : String → Option CIntType) (e : Expr) (v : Int),
      runConst sema declared e = some v → Agrees sema e v := by
  intro h
  have hfold := (h noSymbols (fun _ => none) ⟨.binaryOp .intDiv (num (-7)) (num 2), .cfg⟩ (-4)
    (by decide +kernel)).1
  have hthree : noSymbols.evalConstInt ⟨.binaryOp .intDiv (num (-7)) (num 2), .cfg⟩ =
      some (some (-3)) := by decide +kernel
  exact absurd (hthree.symm.trans hfold) (by decide)

example : runArith .add 1 2 = some 3 := by decide +kernel

end Mx.Sema

import Mx.HirBuild.CallTypes

/-!
# Open array arguments

`expand_call_args` passes the arguments of a call in order, with a `HIGH` companion behind each one
whose parameter is found to be an open array. The companion is the upper bound of the index range,
not the number of elements less one, and falls back to zero.
-/

namespace Mx.HirBuild

open Ast Sema

/-! ## The number of elements -/

/-- The number of elements of an argument, less one: known, held by the companion of a parameter, or
not known where the call stands. -/
inductive Bound where
  | known (n : Int)
  | companion (isLocal : Bool) (name : String)
  | unknown
  deriving DecidableEq, Repr

/-- The name of the companion of an open array parameter. -/
def highName (name : String) : String := name ++ "_high"

/-- The companion parameter of an open array parameter, of the procedure itself or of one around
it. -/
def IsCompanionId (isLocal : Bool) (name : String) (sid : SymbolId) : Prop :=
  sid.sourceName = highName name ∧ sid.ty = tyInteger ∧
    (isLocal = true → sid.mangled = highName name)

namespace HirBuilder

variable (b : HirBuilder)

/-- The place is the companion parameter of the open array parameter `name`: a variable of its name
that no declaration in the scope has. -/
structure IsCompanion (isLocal : Bool) (name : String) (place : Place) : Prop where
  projections : place.projections = []
  undeclared : b.scopeLookup (highName name) = none
  base : ∃ sid, place.base = (if isLocal then .localVar sid else .globalVar sid) ∧
    IsCompanionId isLocal name sid

/-- The expression is the number of elements less one. -/
def IsBound : Bound → HirExpr → Prop
  | .known n, e => e.kind = .intLit n
  | .companion isLocal name, e => ∃ place, e.kind = .place place ∧ b.IsCompanion isLocal name place
  | .unknown, _ => False

/-- The bound of an open array: a parameter has a companion, a part of one has none. -/
def paramBound : PlaceBase → List Projection → Bound
  | .localVar sid, [] => .companion true sid.sourceName
  | .globalVar sid, [] => .companion false sid.sourceName
  | _, _ => .unknown

/-- The bound of a string constant, which has one element more than characters. -/
def stringBound : PlaceBase → List Projection → Bound
  | .constant (.string s), [] => .known s.utf8ByteSize
  | _, _ => .unknown

/-- The bound of a place: that of its index range, of the parameter it is, or of its string. -/
def placeBound (place : Place) : Bound :=
  match b.typeOf place.ty with
  | .array _ _ low high => .known (high - low)
  | .openArray _ => paramBound place.base place.projections
  | _ => stringBound place.base place.projections

/-- The bound of an argument. -/
def argBound (arg : Expr) : Bound :=
  match arg.kind with
  | .stringLit s => .known s.utf8ByteSize
  | .designator d =>
    match b.resolveDesignator d with
    | some place => b.placeBound place
    | none => .unknown
  | _ => .unknown

/-! ## Parameters -/

/-- The modes of the parameters that the callee of a call declares. -/
def declaredModes (desig : Designator) : List (Bool × Bool) :=
  match b.resolveDesignator desig with
  | some ⟨.funcRef _, _, _, _⟩ => ((b.callee desig).bind fun c => b.symbolModes c.symbol).getD []
  | some p => (b.typeModes p.ty).getD []
  | none => []

/-- The modes of the parameters that `lookup_proc_params` finds. -/
def foundModes (desig : Designator) : List (Bool × Bool) :=
  b.lookupProcParams desig (b.resolveDesignator desig)

/-- The arguments of a call as they are passed. -/
def callArgs (desig : Designator) (args : List Expr) (loc : SourceLoc) : List HirExpr :=
  b.expandCallArgs (b.lowerActuals args) (b.foundModes desig) loc

/-- The mode of an argument; one without a parameter is passed by value. -/
def modeAt (modes : List (Bool × Bool)) (i : Nat) : Bool × Bool := modes.getD i (false, false)

/-- What is passed for one argument. -/
def argGroup (modes : List (Bool × Bool)) (loc : SourceLoc) (arg : Expr) (i : Nat) :
    List HirExpr :=
  b.expandArg (b.actual arg) (modeAt modes i) loc

/-- An argument is passed as its value, as its place or as the address of its place. -/
inductive Passes (arg : Expr) (loc : SourceLoc) : HirExpr → Prop
  | value : Passes arg loc (b.lowerExpr arg)
  | promoted : Passes arg loc (promoteString (b.lowerExpr arg))
  | place {p : Place} (h : b.actualPlace arg = some p) : Passes arg loc ⟨.place p, tyAddress, loc⟩
  | address {p : Place} (h : b.actualPlace arg = some p) :
    Passes arg loc ⟨.addrOf p, tyAddress, loc⟩

/-- The argument is passed, and the number of its elements less one behind it if its parameter is
an open array. -/
def GroupRight (arg : Expr) (isOpen : Bool) (loc : SourceLoc) (group : List HirExpr) : Prop :=
  if isOpen then ∃ v h, group = [v, h] ∧ b.Passes arg loc v ∧ b.IsBound (b.argBound arg) h
  else ∃ v, group = [v] ∧ b.Passes arg loc v

/-- Every argument of a call is passed as the declared parameters demand. -/
def ArgsRight (desig : Designator) (args : List Expr) (loc : SourceLoc) : Prop :=
  ∀ i arg, args[i]? = some arg →
    b.GroupRight arg (modeAt (b.declaredModes desig) i).2 loc
      (b.argGroup (b.foundModes desig) loc arg i)

/-! ## When a companion is right -/

/-- A name without a module that no open `WITH` hides. -/
def PlainName (ident : QualIdent) : Prop := ident.moduleName = none ∧ b.withOf ident.name = none

/-- No open `WITH` has a field of this name. -/
def NoField (name : String) : Prop :=
  ∀ ws, b.withOf name = some ws → b.resolveFieldProjection ws.recordTid name = none

/-- The companion of a parameter is known under its name: the builder has it among the variables of
the procedure, no declaration of that name is in the scope, and no open `WITH` has such a field. -/
structure CompanionKnown (isLocal : Bool) (name : String) : Prop where
  noField : b.NoField (highName name)
  undeclared : b.scopeLookup (highName name) = none
  registered : b.getVarType (highName name) = some tyInteger
  isLocal : (b.inProcedure && b.localNames.contains (highName name)) = isLocal

/-- The companion of a variable is known. -/
def VariableCompanion (name : String) : PlaceBase → Prop
  | .localVar _ => b.CompanionKnown true name
  | .globalVar _ => b.CompanionKnown false name
  | _ => False

/-- The companion of a bare name is right: the index range starts at zero, the companion of a
parameter is known, or the type of a string constant has its length. -/
def NamedOk (name : String) (place : Place) : Prop :=
  match b.typeOf place.ty with
  | .array _ _ low _ => low = 0
  | .openArray _ => b.VariableCompanion name place.base
  | .stringLit len => ∃ s, place.base = .constant (.string s) ∧ len = s.utf8ByteSize
  | _ => ∃ s, place.base = .constant (.string s)

/-- The companion of a designator with selectors is right: the index range starts at zero, or it is
an empty string constant. -/
def SelectedOk (place : Place) : Prop :=
  match b.typeOf place.ty with
  | .array _ _ low _ => low = 0
  | .openArray _ => False
  | _ => place.projections = [] ∧ ∃ s, place.base = .constant (.string s) ∧ s.utf8ByteSize = 0

/-- The companion of an argument is right. -/
def HighOk (arg : Expr) : Prop :=
  match arg.kind with
  | .stringLit _ => True
  | .designator d => ∃ place, b.resolveDesignator d = some place ∧
    if d.selectors.isEmpty then
      b.PlainName d.ident ∧ (b.scopeLookup d.ident.name).isSome ∧ b.NamedOk d.ident.name place
    else b.SelectedOk place
  | _ => False

/-- The parameters that a symbol declares, as a procedure or by its procedure type. -/
def declaredBy (sym : Symbol) : Option (List (Bool × Bool)) :=
  (b.symbolModes sym).or (b.typeModes sym.typ)

/-- The `i`-th parameter of the callee is looked up under the right name: a symbol of that name that
declares parameters agrees with the callee on it, and where there is no such symbol, a procedure
that the designator means has a procedure type that does. -/
structure ParamFound (desig : Designator) (i : Nat) : Prop where
  symbol : ∀ modes, (b.paramsSymbol desig).bind b.declaredBy = some modes →
    (modeAt modes i).2 = (modeAt (b.declaredModes desig) i).2
  procedure : (b.paramsSymbol desig).bind b.declaredBy = none →
    ∀ sid ps ty loc, b.resolveDesignator desig = some ⟨.funcRef sid, ps, ty, loc⟩ →
      (modeAt ((b.typeModes ty).getD []) i).2 = (modeAt (b.declaredModes desig) i).2

/-- The condition on a call: the parameters are looked up under the right name, and the companion
of each open array is right. -/
def CompanionsOk (desig : Designator) (args : List Expr) : Prop :=
  ∀ i arg, args[i]? = some arg →
    b.ParamFound desig i ∧ ((modeAt (b.declaredModes desig) i).2 = true → b.HighOk arg)

/-- The argument is no bare name that stands for another thing than its symbol in the scope. -/
def NotHidden (arg : Expr) : Prop :=
  match arg.kind with
  | .designator d => d.selectors.isEmpty = true →
    b.PlainName d.ident ∧ (b.scopeLookup d.ident.name).isSome
  | _ => True

variable {b}

/-! ## The list of arguments -/

theorem expandCallArgs_groups (modes : List (Bool × Bool)) (loc : SourceLoc) (args : List Expr) :
    b.expandCallArgs (b.lowerActuals args) modes loc =
      (args.mapIdx fun i arg => b.argGroup modes loc arg i).flatten := by
  rw [lowerActuals_eq]
  induction args generalizing modes with
  | nil => rfl
  | cons arg args ih =>
    rw [List.map_cons, expandCallArgs, ih, List.mapIdx_cons, List.flatten_cons]
    have hhead : modes.headD (false, false) = modeAt modes 0 := by cases modes <;> rfl
    have htail : ∀ i, modeAt modes.tail i = modeAt modes (i + 1) := by
      intro i
      cases modes <;> rfl
    simp only [argGroup, hhead, htail]

theorem argValue_passes (arg : Expr) (isVar isOpen : Bool) (loc : SourceLoc) :
    b.Passes arg loc (b.argValue (b.actual arg) isVar isOpen loc) := by
  unfold argValue
  split
  · next p hp => exact .address hp
  · next p hp =>
    split
    · exact .place hp
    · exact .address hp
  · exact .promoted
  · exact .value

/-- The group of an argument is right if and only if its parameter is found as it is declared, and
its companion is right. -/
theorem groupRight_iff (modes : List (Bool × Bool)) (loc : SourceLoc) (arg : Expr) (i : Nat)
    (isOpen : Bool) :
    b.GroupRight arg isOpen loc (b.argGroup modes loc arg i) ↔
      (modeAt modes i).2 = isOpen ∧
        (isOpen = true →
          b.IsBound (b.argBound arg) (b.computeHighForArg (b.actual arg) loc)) := by
  have hpasses := argValue_passes (b := b) arg (modeAt modes i).1 (modeAt modes i).2 loc
  rw [GroupRight, argGroup, expandArg]
  cases hfound : (modeAt modes i).2 with
  | true =>
    rw [hfound] at hpasses
    cases isOpen with
    | true =>
      simp only [if_true, true_and, forall_const]
      constructor
      · rintro ⟨v, h, hgroup, -, hbound⟩
        obtain ⟨-, hh⟩ := List.cons.inj hgroup
        rwa [← (List.cons.inj hh).1] at hbound
      · intro hbound
        exact ⟨_, _, rfl, hpasses, hbound⟩
    | false =>
      simp
  | false =>
    rw [hfound] at hpasses
    cases isOpen with
    | true => simp
    | false =>
      simp only [Bool.false_eq_true, if_false, true_and, false_implies, and_true, iff_true]
      exact ⟨_, rfl, hpasses⟩

/-! ## Companions -/

theorem kindBase_string {sid : SymbolId} {isLocal : Bool} {kind : SymbolKind} {s : String} :
    kindBase sid isLocal kind = .constant (.string s) ↔ kind = .constant (.string s) := by
  cases kind with
  | constant v => cases v <;> simp [kindBase, constValueToHir]
  | procedure params ret builtin => simp [kindBase]
  | enumVariant v => simp [kindBase]
  | _ => cases isLocal <;> simp [kindBase]

theorem kindBase_variable {sid sid' : SymbolId} {isLocal : Bool} {kind : SymbolKind}
    (h : kindBase sid isLocal kind = .localVar sid' ∨ kindBase sid isLocal kind = .globalVar sid') :
    sid' = sid := by
  cases kind with
  | constant v | procedure params ret builtin | enumVariant v => simp [kindBase] at h
  | _ =>
    cases isLocal with
    | false =>
      obtain h | h := h
      · cases h
      · exact (PlaceBase.globalVar.inj h).symm
    | true =>
      obtain h | h := h
      · exact (PlaceBase.localVar.inj h).symm
      · cases h

/-- A symbol of the scope gives a base of its type, which is a string or a variable as the symbol
is. -/
theorem resolvePlainBase_of_symbol {name : String} {sym : Symbol}
    (hsym : b.scopeLookup name = some sym) :
    ∃ base, b.resolvePlainBase name = some (base, sym.typ) ∧
      (∀ s, base = .constant (.string s) ↔ sym.kind = .constant (.string s)) ∧
      ∀ sid, base = .localVar sid ∨ base = .globalVar sid → sid.sourceName = name := by
  have hbase : ∀ s, (b.symbolToBase name sym).1 = .constant (.string s) ↔
      sym.kind = .constant (.string s) := fun s => kindBase_string
  have hvar : ∀ sid, (b.symbolToBase name sym).1 = .localVar sid ∨
      (b.symbolToBase name sym).1 = .globalVar sid → sid.sourceName = name := by
    intro sid h
    rw [kindBase_variable h]
  rw [resolvePlainBase, hsym]
  dsimp only
  split_ifs with hinlined hlocal
  · exact ⟨_, rfl, hbase, hvar⟩
  · refine ⟨_, rfl, ?_, ?_⟩
    · intro s
      constructor
      · intro h
        cases h
      · intro h
        rw [h] at hinlined
        exact absurd rfl hinlined
    · rintro sid (h | h)
      · rw [← PlaceBase.localVar.inj h]
      · cases h
  · exact ⟨_, rfl, hbase, hvar⟩

/-- A plain name resolves to its base. -/
theorem resolveDesignator_plain {ident : QualIdent} (hplain : b.PlainName ident) (loc : SourceLoc) :
    b.resolveDesignator ⟨ident, [], loc⟩ =
      (b.resolvePlainBase ident.name).map fun base => ⟨base.1, [], base.2, loc⟩ := by
  obtain ⟨hmodule, hwith⟩ := hplain
  have hfield : b.moduleField ident [] = none := rfl
  rw [resolveDesignator, lowerSelectors, resolveLowered, hfield, resolveBase, hmodule,
    resolveWithField, hwith]
  cases b.resolvePlainBase ident.name <;> rfl

theorem isBound_known (n v : Int) (loc : SourceLoc) :
    b.IsBound (.known n) (highLit v loc) ↔ v = n := by
  constructor
  · intro h
    exact HirExprKind.intLit.inj h
  · rintro rfl
    rfl

theorem not_companion_lit (isLocal : Bool) (name : String) (v : Int) (loc : SourceLoc) :
    ¬ b.IsBound (.companion isLocal name) (highLit v loc) := by
  rintro ⟨place, h, -⟩
  cases h

/-- A string constant without projections has its length as its bound. -/
theorem stringBound_is {base : PlaceBase} {ps : List Projection} {e : HirExpr} :
    b.IsBound (stringBound base ps) e ↔
      ps = [] ∧ ∃ s, base = .constant (.string s) ∧ e.kind = .intLit s.utf8ByteSize := by
  unfold stringBound
  split
  · next s =>
    constructor
    · intro h
      exact ⟨rfl, s, rfl, h⟩
    · rintro ⟨-, s', hs', h⟩
      obtain rfl := ConstVal.string.inj (PlaceBase.constant.inj hs')
      exact h
  · next hbase =>
    refine iff_of_false (fun h => h) ?_
    rintro ⟨rfl, s, rfl, -⟩
    exact hbase s rfl rfl

/-- No literal is the bound of an open array. -/
theorem not_paramBound_lit (base : PlaceBase) (ps : List Projection) (v : Int) (loc : SourceLoc) :
    ¬ b.IsBound (paramBound base ps) (highLit v loc) := by
  unfold paramBound
  split
  · exact not_companion_lit _ _ v loc
  · exact not_companion_lit _ _ v loc
  · exact fun h => h

/-- A name that no open `WITH` has as a field resolves to its base. -/
theorem resolveLowered_bare {name : String} (hfield : b.NoField name) (loc : SourceLoc) :
    b.resolveLowered ⟨none, name⟩ [] loc =
      (b.resolvePlainBase name).map fun base => ⟨base.1, [], base.2, loc⟩ := by
  have hmodule : b.moduleField ⟨none, name⟩ [] = none := rfl
  have hnone : b.resolveWithField name [] loc = none := by
    rw [resolveWithField]
    cases hws : b.withOf name with
    | none => rfl
    | some ws =>
      rw [Option.bind_some, hfield ws hws]
      rfl
  rw [resolveLowered, hmodule, resolveBase]
  simp only [if_true, hnone, Option.none_or]
  cases b.resolvePlainBase name <;> rfl

/-- A field of an open `WITH` has a projection. -/
theorem projections_of_field {name : String} (hfield : ¬ b.NoField name) {loc : SourceLoc}
    {p : Place} (hp : b.resolveLowered ⟨none, name⟩ [] loc = some p) : p.projections ≠ [] := by
  have hmodule : b.moduleField ⟨none, name⟩ [] = none := rfl
  simp only [NoField, not_forall] at hfield
  obtain ⟨ws, hws, hsome⟩ := hfield
  obtain ⟨field, hproj⟩ := Option.ne_none_iff_exists'.1 hsome
  have hwith : b.resolveWithField name [] loc =
      some ⟨(b.withBase ws).base, (b.withBase ws).projections ++ [field], field.ty, loc⟩ := by
    rw [resolveWithField, hws, Option.bind_some, hproj]
    rfl
  rw [resolveLowered, hmodule] at hp
  simp only [if_true, hwith, Option.some_or, Option.some.injEq] at hp
  rw [← hp]
  simp

/-- The name of a companion leads to it if and only if it is known. -/
theorem companion_iff {isLocal : Bool} {name : String} (loc : SourceLoc) :
    (∃ p, b.resolveLowered ⟨none, highName name⟩ [] loc = some p ∧ b.IsCompanion isLocal name p) ↔
      b.CompanionKnown isLocal name := by
  constructor
  · rintro ⟨p, hp, hprojections, hundeclared, sid, hbase, hsource, hty, hmangled⟩
    have hfield : b.NoField (highName name) := by
      by_contra hfield
      exact projections_of_field hfield hp hprojections
    rw [resolveLowered_bare hfield, resolvePlainBase, hundeclared] at hp
    cases htype : b.getVarType (highName name) with
    | none =>
      rw [htype] at hp
      cases hp
    | some tid =>
      simp only [htype, Option.map_some, Option.some.injEq] at hp
      rw [← hp, varTypeBase] at hbase
      cases hlocal : (b.inProcedure && b.localNames.contains (highName name)) with
      | true =>
        cases isLocal with
        | false =>
          simp only [hlocal, if_true, Bool.false_eq_true, if_false] at hbase
          cases hbase
        | true =>
          simp only [hlocal, if_true] at hbase
          rw [← PlaceBase.localVar.inj hbase] at hty
          exact ⟨hfield, hundeclared, by rw [htype, ← hty], hlocal⟩
      | false =>
        cases isLocal with
        | true =>
          simp only [hlocal, if_true, Bool.false_eq_true, if_false] at hbase
          cases hbase
        | false =>
          simp only [hlocal, Bool.false_eq_true, if_false] at hbase
          rw [← PlaceBase.globalVar.inj hbase] at hty
          exact ⟨hfield, hundeclared, by rw [htype, ← hty], hlocal⟩
  · rintro ⟨hfield, hundeclared, htype, hlocal⟩
    refine ⟨⟨(b.varTypeBase (highName name) tyInteger).1, [], tyInteger, loc⟩, ?_, rfl,
      hundeclared, ?_⟩
    · rw [resolveLowered_bare hfield, resolvePlainBase, hundeclared, htype]
      rfl
    · rw [varTypeBase, hlocal]
      cases isLocal with
      | true => exact ⟨_, rfl, rfl, rfl, fun _ => rfl⟩
      | false => exact ⟨_, rfl, rfl, rfl, fun h => absurd h Bool.false_ne_true⟩

/-- A variable has its companion as its bound. -/
theorem paramBound_is_high {base : PlaceBase} {name : String} {loc : SourceLoc}
    (hvar : ∀ sid, base = .localVar sid ∨ base = .globalVar sid → sid.sourceName = name) :
    b.IsBound (paramBound base [])
        (match b.resolveLowered ⟨none, highName name⟩ [] loc with
          | some place => ⟨.place place, tyInteger, loc⟩
          | none => highLit 0 loc) ↔
      b.VariableCompanion name base := by
  have hcompanion : ∀ isLocal, b.IsBound (.companion isLocal name)
      (match b.resolveLowered ⟨none, highName name⟩ [] loc with
        | some place => ⟨.place place, tyInteger, loc⟩
        | none => highLit 0 loc) ↔ b.CompanionKnown isLocal name := by
    intro isLocal
    rw [← companion_iff loc]
    cases b.resolveLowered ⟨none, highName name⟩ [] loc with
    | none => exact iff_of_false (not_companion_lit _ _ 0 loc) (by simp)
    | some p => simp [IsBound]
  cases base with
  | localVar sid =>
    rw [paramBound, hvar sid (Or.inl rfl)]
    exact hcompanion true
  | globalVar sid =>
    rw [paramBound, hvar sid (Or.inr rfl)]
    exact hcompanion false
  | constant v | funcRef sid => exact Iff.rfl

variable {d : Designator} {l loc : SourceLoc}

/-- The companion of a bare name is right if and only if its condition holds. -/
theorem named_iff (hsels : d.selectors.isEmpty = true) {sym : Symbol}
    (hsym : b.scopeLookup d.ident.name = some sym) {base : PlaceBase}
    (hstring : ∀ s, base = .constant (.string s) ↔ sym.kind = .constant (.string s))
    (hvar : ∀ sid, base = .localVar sid ∨ base = .globalVar sid →
      sid.sourceName = d.ident.name) :
    b.IsBound (b.placeBound ⟨base, [], sym.typ, d.loc⟩)
        (b.computeHighForArg (b.actual ⟨.designator d, l⟩) loc) ↔
      b.NamedOk d.ident.name ⟨base, [], sym.typ, d.loc⟩ := by
  simp only [computeHighForArg, actual, hsels, hsym, if_true, placeBound, NamedOk]
  cases htype : b.typeOf sym.typ with
  | array idx elem low high =>
    simp only
    rw [isBound_known]
    omega
  | openArray elem =>
    simp only
    exact paramBound_is_high hvar
  | stringLit len =>
    simp only
    rw [stringBound_is]
    constructor
    · rintro ⟨-, s, hs, h⟩
      exact ⟨s, hs, Int.ofNat.inj (HirExprKind.intLit.inj h)⟩
    · rintro ⟨s, hs, rfl⟩
      exact ⟨rfl, s, hs, rfl⟩
  | _ =>
    simp only
    rw [stringBound_is]
    constructor
    · rintro ⟨-, s, hs, -⟩
      exact ⟨s, hs⟩
    · rintro ⟨s, hs⟩
      rw [(hstring s).1 hs]
      exact ⟨rfl, s, hs, rfl⟩

/-- The companion of a designator with selectors is right if and only if its condition holds. -/
theorem selected_iff (hsels : d.selectors.isEmpty = false) {place : Place}
    (hplace : b.resolveDesignator d = some place) :
    b.IsBound (b.placeBound place) (b.computeHighForArg (b.actual ⟨.designator d, l⟩) loc) ↔
      b.SelectedOk place := by
  simp only [computeHighForArg, actual, actualPlace, hsels, hplace, Bool.false_eq_true, if_false,
    placeBound, SelectedOk]
  cases htype : b.typeOf place.ty with
  | array idx elem low high =>
    simp only
    rw [isBound_known]
    omega
  | openArray elem =>
    simp only
    exact iff_of_false (not_paramBound_lit _ _ 0 loc) fun h => h
  | _ =>
    simp only
    rw [stringBound_is]
    refine and_congr_right fun _ => exists_congr fun s => and_congr_right fun _ => ?_
    constructor
    · intro h
      exact (Int.ofNat.inj (HirExprKind.intLit.inj h)).symm
    · intro h
      rw [h]
      rfl

/-- The companion of an argument that is not hidden is right if and only if its condition holds. -/
theorem highOk_iff {arg : Expr} (hhidden : b.NotHidden arg) :
    b.IsBound (b.argBound arg) (b.computeHighForArg (b.actual arg) loc) ↔ b.HighOk arg := by
  obtain ⟨kind, l⟩ := arg
  cases kind with
  | stringLit s => exact iff_of_true rfl trivial
  | designator d =>
    rw [HighOk, argBound]
    simp only
    cases hplace : b.resolveDesignator d with
    | none =>
      refine iff_of_false (fun h => h) ?_
      rintro ⟨place, h, -⟩
      cases h
    | some place =>
      simp only [Option.some.injEq, exists_eq_left']
      cases hsels : d.selectors.isEmpty with
      | false =>
        rw [selected_iff hsels hplace]
        simp
      | true =>
        obtain ⟨hplain, hsome⟩ := hhidden hsels
        obtain ⟨sym, hsym⟩ := Option.isSome_iff_exists.1 hsome
        obtain ⟨base, hbase, hstring, hvar⟩ := resolvePlainBase_of_symbol hsym
        obtain ⟨ident, sels, dloc⟩ := d
        obtain rfl := List.isEmpty_iff.1 hsels
        rw [resolveDesignator_plain hplain, hbase] at hplace
        obtain rfl := Option.some.inj hplace
        rw [if_pos rfl, and_iff_right hplain, and_iff_right hsome]
        exact named_iff rfl hsym hstring hvar
  | _ => exact Iff.rfl

theorem HighOk.notHidden {arg : Expr} (h : b.HighOk arg) : b.NotHidden arg := by
  obtain ⟨kind, l⟩ := arg
  cases kind with
  | designator d =>
    intro hsels
    obtain ⟨place, -, h⟩ := h
    rw [if_pos hsels] at h
    exact ⟨h.1, h.2.1⟩
  | _ => trivial

/-! ## Parameters of the callee -/

/-- The parameters are found as they are declared if and only if they are looked up under the right
name. -/
theorem foundModes_iff (desig : Designator) (i : Nat) :
    (modeAt (b.foundModes desig) i).2 = (modeAt (b.declaredModes desig) i).2 ↔
      b.ParamFound desig i := by
  have hfound : b.foundModes desig = (((b.paramsSymbol desig).bind b.declaredBy).or
      ((b.resolveDesignator desig).bind fun p => b.typeModes p.ty)).getD [] := rfl
  rw [hfound]
  cases hsym : (b.paramsSymbol desig).bind b.declaredBy with
  | some modes =>
    constructor
    · intro h
      refine ⟨fun modes' hmodes => ?_, fun hnone => absurd (hsym ▸ hnone) (by simp)⟩
      rw [hsym] at hmodes
      obtain rfl := Option.some.inj hmodes
      exact h
    · intro h
      exact h.symbol modes hsym
  | none =>
    rw [Option.none_or]
    constructor
    · intro h
      refine ⟨fun modes hmodes => absurd (hsym ▸ hmodes) (by simp), ?_⟩
      intro _ sid ps ty loc hplace
      rw [hplace] at h
      exact h
    · intro h
      cases hplace : b.resolveDesignator desig with
      | none => rw [declaredModes, hplace]; rfl
      | some p =>
        obtain ⟨base, ps, ty, loc⟩ := p
        cases base with
        | funcRef sid => exact h.procedure hsym sid ps ty loc hplace
        | localVar sid | globalVar sid | constant v => rw [declaredModes, hplace]; rfl

end HirBuilder

open HirBuilder

/-- **Open array arguments.** The argument list holds a group for each argument in order. If the
condition on the call holds, every group is right; and it holds if every group is right and no bare
name stands for another thing than its symbol in the scope. -/
theorem open_array_args (b : HirBuilder) (desig : Designator) (args : List Expr) (loc : SourceLoc) :
    b.callArgs desig args loc =
        (args.mapIdx fun i arg => b.argGroup (b.foundModes desig) loc arg i).flatten ∧
      (b.CompanionsOk desig args → b.ArgsRight desig args loc) ∧
      ((∀ arg ∈ args, b.NotHidden arg) → b.ArgsRight desig args loc →
        b.CompanionsOk desig args) := by
  refine ⟨expandCallArgs_groups _ loc args, ?_, ?_⟩
  · intro hok i arg harg
    obtain ⟨hmodes, hhigh⟩ := hok i arg harg
    rw [groupRight_iff]
    refine ⟨(foundModes_iff desig i).2 hmodes, fun hopen => ?_⟩
    have h := hhigh hopen
    exact (highOk_iff h.notHidden).2 h
  · intro hhidden hright i arg harg
    obtain ⟨hmodes, hbound⟩ := (groupRight_iff _ loc arg i _).1 (hright i arg harg)
    refine ⟨(foundModes_iff desig i).1 hmodes, fun hopen => ?_⟩
    exact (highOk_iff (hhidden arg (List.mem_of_getElem? harg))).1 (hbound hopen)

/-- The symbols `Sum`, with an open array, and `v`, an `ARRAY [1..3] OF INTEGER`. -/
def sumTable : SymbolTable where
  scopes :=
    [⟨[("Sum", ⟨"Sum", .procedure [⟨"a", 20, false⟩] (some tyInteger) false, tyVoid, false, none,
        false, false⟩),
      ("v", ⟨"v", .variable, 21, false, none, false, false⟩)], none, "Main"⟩]
  parent_lt := by
    intro id s hs p hp
    cases id with
    | zero =>
      obtain rfl := Option.some.inj hs
      cases hp
    | succ id => cases hs

/-- The builder of a program that calls `Sum(v)`. -/
def sumBuilder : HirBuilder :=
  { mainBuilder with
    types := ⟨[.openArray tyInteger, .array 22 tyInteger 1 3, .subrange tyInteger 1 3]⟩
    symtab := sumTable
    currentScope := some 0 }

theorem not_open_array_args :
    ¬ ∀ (b : HirBuilder) (desig : Designator) (args : List Expr) (loc : SourceLoc),
      b.ArgsRight desig args loc := by
  intro h
  have hgroup := h sumBuilder (.plain "Sum" SourceLoc.none)
    [⟨.designator (.plain "v" SourceLoc.none), SourceLoc.none⟩] SourceLoc.none 0 _ rfl
  have hbound := ((groupRight_iff _ _ _ _ _).1 hgroup).2 rfl
  have hlit : HirExprKind.intLit 3 = HirExprKind.intLit 2 := hbound
  cases hlit

end Mx.HirBuild

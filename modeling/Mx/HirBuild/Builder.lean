import Mx.Sema.Ast
import Mx.Sema.Symtab

/-!
# The HIR builder

What the builder knows while it lowers expressions, and the parts of `resolve_designator` that look
at names only: bases, fields of an open `WITH`, and selections of a record field.
-/

namespace Mx.HirBuild

open Sema List

/-- A base that is a variable. -/
def isVariableBase : PlaceBase → Bool
  | .localVar _ => true
  | .globalVar _ => true
  | _ => false

/-- A projection that evaluates no expression. -/
def isStep : Projection → Bool
  | ⟨.index _, _⟩ => false
  | ⟨.typeTransfer _, _⟩ => false
  | _ => true

/-- A variable, and the steps from it to a record. -/
structure RecordPath where
  base : PlaceBase
  projections : List Projection
  base_variable : isVariableBase base = true
  steps : ∀ p ∈ projections, isStep p = true

/-- An open `WITH`: the record variable, its type and the names of its fields. -/
structure WithScope where
  recordVar : String
  recordTid : TypeId
  fieldNames : List String
  needsDeref : Bool
  parentBase : Option RecordPath

/-- The state of the builder. The innermost `WITH` comes first; the three functions stand for the
tables of the standard library. -/
structure HirBuilder where
  types : TypeRegistry
  symtab : SymbolTable
  moduleName : String
  foreignModules : List String
  importAliasMap : List (String × String)
  importedModules : List String
  varTypes : List (String × TypeId)
  localNames : List String
  withStack : List WithScope
  inProcedure : Bool
  currentScope : Option Nat
  isStdlibModule : String → Bool
  isNativeStdlib : String → Bool
  mapStdlibCall : String → String → Option String

/-- `const_value_to_hir`. -/
def constValueToHir : ConstValue → ConstVal
  | .integer v => .integer v
  | .real bits => .real bits
  | .boolean b => .boolean b
  | .char c => .char c
  | .string s => .string s
  | .set bits => .set bits
  | .nil => .nil

/-- `symbols_in_scope`: the symbols of a scope, in the order of their types. -/
def symbolsInScope (tab : SymbolTable) (scopeId : Nat) : List Symbol :=
  match tab.scopes[scopeId]? with
  | none => []
  | some scope =>
    ((scope.symbols.map (·.2)).filter fun s => scope.symbols.lookup s.name = some s).mergeSort
      fun a b => a.typ ≤ b.typ

/-- `lookup_module_scope`: the scope of a module symbol, or the last scope of that name. -/
def lookupModuleScope (tab : SymbolTable) (name : String) : Option Nat :=
  (tab.scopes.findSome? fun scope => (scope.symbols.lookup name).bind SymbolTable.moduleScope).or
    (((List.range tab.scopes.length).filter fun id =>
      (tab.scopes[id]?).any fun scope => scope.name = name).getLast?)

namespace HirBuilder

variable (b : HirBuilder)

/-- `resolve_alias`. -/
def resolveAlias (tid : TypeId) : TypeId := b.types.resolveHirAlias tid

/-- The type behind the aliases of an id. -/
def typeOf (tid : TypeId) : RegType := b.types.get (b.resolveAlias tid)

/-- `mangle`. -/
def mangle (name : String) : String := b.moduleName ++ "_" ++ name

/-- `scope_lookup`. -/
def scopeLookup (name : String) : Option Symbol :=
  match b.currentScope with
  | some scopeId => b.symtab.lookupInScope scopeId name
  | none => b.symtab.lookupAny name

/-- `get_var_type`. -/
def getVarType (name : String) : Option TypeId := b.varTypes.lookup name

/-- The name is a variable of the scope of the current procedure. -/
def isProcLocal (name : String) : Bool :=
  b.inProcedure && ((b.currentScope.bind fun sid => b.symtab.lookupInScopeDirect sid name).any
    fun s => (s.kind = .variable || s.kind = .field) && s.moduleName = none)

/-- `resolve_canonical_name`. -/
def resolveCanonicalName (moduleName importName : String) : String :=
  match lookupModuleScope b.symtab moduleName with
  | some scopeId =>
    (((symbolsInScope b.symtab scopeId).find? fun s => s.name.toLower = importName.toLower).map
      (·.name)).getD importName
  | none => importName

/-- The mangled name of a symbol that is not local, under its name in its module. -/
def mangledName (originalName sourceModule : String) (sym : Symbol) : String :=
  if sym.moduleName.isSome ∧ ¬ b.foreignModules.contains sourceModule then
    if b.isNativeStdlib sourceModule then
      sourceModule ++ "_" ++ b.resolveCanonicalName sourceModule originalName
    else if b.isStdlibModule sourceModule then
      (b.mapStdlibCall sourceModule originalName).getD (sourceModule ++ "_" ++ originalName)
    else sourceModule ++ "_" ++ originalName
  else if b.foreignModules.contains sourceModule then originalName
  else
    match sym.kind, b.inProcedure, b.currentScope with
    | .procedure _ _ _, true, some scope =>
      match b.symtab.lookupInScopeDirect scope originalName, b.symtab.scopes[scope]? with
      | some ⟨_, .procedure _ _ _, _, _, _, _, _⟩, some parent =>
        b.moduleName ++ "_" ++ parent.name ++ "_" ++ originalName
      | _, _ => b.mangle originalName
    | _, _, _ => b.mangle originalName

/-- The base that a kind of symbol gives. -/
def kindBase (sid : SymbolId) (isLocal : Bool) : SymbolKind → PlaceBase
  | .constant v => .constant (constValueToHir v)
  | .procedure _ _ _ => .funcRef sid
  | .enumVariant v => .constant (.enumVariant v)
  | _ => if isLocal then .localVar sid else .globalVar sid

/-- `symbol_to_base`. -/
def symbolToBase (name : String) (sym : Symbol) : PlaceBase × TypeId :=
  let isLocal := b.isProcLocal name
  let sourceModule := (sym.moduleName.filter (· ≠ "")).getD b.moduleName
  let originalName := (b.importAliasMap.lookup name).getD name
  (kindBase
    { mangled := if isLocal then name else b.mangledName originalName sourceModule sym
      sourceName := name
      moduleName := if isLocal then none else some sourceModule
      ty := sym.typ
      isVarParam := sym.isVarParam
      isOpenArray := sym.isOpenArray }
    isLocal sym.kind, sym.typ)

/-- The symbol of a qualified name, without the flags of a parameter. -/
def qualifiedId (mangled moduleName name : String) (ty : TypeId) : SymbolId where
  mangled := mangled
  sourceName := name
  moduleName := some moduleName
  ty := ty
  isVarParam := false
  isOpenArray := false

/-- The mangled name of `resolve_module_qualified`. -/
def qualifiedMangled (moduleName name : String) : String :=
  if b.isStdlibModule moduleName ∧ ¬ b.isNativeStdlib moduleName then
    (b.mapStdlibCall moduleName name).getD (moduleName ++ "_" ++ name)
  else moduleName ++ "_" ++ name

/-- The symbol that `resolve_module_qualified` finds. -/
def lookupModuleField (moduleName name : String) : Option Symbol :=
  (b.symtab.lookupQualified moduleName name).or
    (b.symtab.lookupAny (b.qualifiedMangled moduleName name))

/-- The base of `resolve_module_qualified`; a name that is not found is a variable anyway. -/
def moduleFieldBase (moduleName name : String) : PlaceBase × TypeId :=
  let sid := qualifiedId (b.qualifiedMangled moduleName name) moduleName name
  match b.lookupModuleField moduleName name with
  | some sym => (kindBase (sid sym.typ) false sym.kind, sym.typ)
  | none => (.globalVar (sid tyInteger), tyInteger)

/-- `resolve_module_qualified_base`. -/
def resolveModuleQualifiedBase (moduleName name : String) : PlaceBase × TypeId :=
  let sid := qualifiedId
    (if b.foreignModules.contains moduleName then name else moduleName ++ "_" ++ name)
    moduleName name
  match b.symtab.lookupQualified moduleName name with
  | some sym => (kindBase (sid sym.typ) false sym.kind, sym.typ)
  | none => (.globalVar (sid tyInteger), tyInteger)

/-- The kinds of symbols that are inlined. -/
def isInlined : SymbolKind → Bool
  | .constant _ => true
  | .enumVariant _ => true
  | _ => false

/-- The base of a name that semantic analysis does not know. -/
def varTypeBase (name : String) (tid : TypeId) : PlaceBase × TypeId :=
  let isLocal := b.inProcedure && b.localNames.contains name
  let sid : SymbolId :=
    { mangled := if isLocal then name else b.mangle name
      sourceName := name
      moduleName := if isLocal then none else some b.moduleName
      ty := tid
      isVarParam := false
      isOpenArray := false }
  (if isLocal then .localVar sid else .globalVar sid, tid)

/-- `resolve_base` of a name without a module. -/
def resolvePlainBase (name : String) : Option (PlaceBase × TypeId) :=
  match b.scopeLookup name with
  | some sym =>
    if isInlined sym.kind then some (b.symbolToBase name sym)
    else if b.isProcLocal name then
      some
        (.localVar
          { mangled := name
            sourceName := name
            moduleName := none
            ty := sym.typ
            isVarParam := sym.isVarParam
            isOpenArray := sym.isOpenArray },
          sym.typ)
    else some (b.symbolToBase name sym)
  | none => (b.getVarType name).map (b.varTypeBase name)

/-- `resolve_base`. -/
def resolveBase (ident : Ast.QualIdent) : Option (PlaceBase × TypeId) :=
  match ident.moduleName with
  | some m => some (b.resolveModuleQualifiedBase m ident.name)
  | none => b.resolvePlainBase ident.name

/-! ## Fields -/

/-- The field of a record by its name: a fixed one, or else one of a variant. -/
def fieldIn (recordTy : TypeId) (fields : List RecordField) (variants : Option VariantInfo)
    (name : String) : Option Projection :=
  (fields.zipIdx.findSome? fun (f, idx) =>
    if f.name = name then some ⟨.field idx name recordTy, f.typ⟩ else none).or
  (variants.bind fun vi => vi.variants.zipIdx.findSome? fun (vc, vIdx) =>
    vc.fields.zipIdx.findSome? fun (f, fIdx) =>
      if f.name = name then some ⟨.variantField vIdx fIdx name recordTy, f.typ⟩ else none)

/-- `resolve_field_projection`, through at most as many pointers as given. -/
def fieldProjectionUpTo : Nat → TypeId → String → Option Projection
  | 0, _, _ => none
  | fuel + 1, recordTid, name =>
    match b.typeOf recordTid with
    | .record fields variants => fieldIn (b.resolveAlias recordTid) fields variants name
    | .pointer base => fieldProjectionUpTo fuel base name
    | _ => none

/-- `resolve_field_projection`: a chain of pointers without an end has no record. -/
def resolveFieldProjection (recordTid : TypeId) (name : String) : Option Projection :=
  b.fieldProjectionUpTo (b.types.types.length + 1) recordTid name

theorem fieldIn_step {recordTy : TypeId} {fields : List RecordField}
    {variants : Option VariantInfo} {name : String} {p : Projection}
    (h : fieldIn recordTy fields variants name = some p) : isStep p = true := by
  rw [fieldIn, Option.or_eq_some_iff] at h
  rcases h with h | ⟨-, h⟩
  · obtain ⟨⟨f, idx⟩, -, hf⟩ := exists_of_findSome?_eq_some h
    dsimp only at hf
    split at hf
    · obtain rfl := Option.some.inj hf
      rfl
    · cases hf
  · obtain ⟨vi, -, h⟩ := Option.bind_eq_some_iff.1 h
    obtain ⟨vc, -, h⟩ := exists_of_findSome?_eq_some h
    obtain ⟨⟨f, fIdx⟩, -, hf⟩ := exists_of_findSome?_eq_some h
    dsimp only at hf
    split at hf
    · obtain rfl := Option.some.inj hf
      rfl
    · cases hf

theorem resolveFieldProjection_step {recordTid : TypeId} {name : String} {p : Projection}
    (h : b.resolveFieldProjection recordTid name = some p) : isStep p = true := by
  rw [resolveFieldProjection] at h
  generalize b.types.types.length + 1 = fuel at h
  induction fuel generalizing recordTid with
  | zero => cases h
  | succ fuel ih =>
    rw [fieldProjectionUpTo] at h
    split at h
    · exact fieldIn_step h
    · exact ih h
    · cases h

/-! ## `WITH` -/

/-- The path to the record of an open `WITH`. -/
def withBase (ws : WithScope) : RecordPath :=
  match ws.parentBase with
  | some parent => parent
  | none =>
    let sid : SymbolId :=
      { mangled := ws.recordVar
        sourceName := ws.recordVar
        moduleName := none
        ty := (b.getVarType ws.recordVar).getD ws.recordTid
        isVarParam := false
        isOpenArray := false }
    { base :=
        if b.localNames.contains ws.recordVar then .localVar sid
        else .globalVar
          { sid with
            mangled := b.mangle ws.recordVar
            moduleName := some b.moduleName }
      projections := if ws.needsDeref then [⟨.deref, ws.recordTid⟩] else []
      base_variable := by split <;> rfl
      steps := by
        intro p hp
        split at hp
        · rw [mem_singleton.1 hp]
          rfl
        · cases hp }

/-- The innermost open `WITH` that has a field of that name. -/
def withOf (name : String) : Option WithScope :=
  b.withStack.find? fun ws => ws.fieldNames.contains name

end HirBuilder

end Mx.HirBuild

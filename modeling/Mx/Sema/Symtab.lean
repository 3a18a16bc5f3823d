import Mx.Types.Registry

/-!
# The symbol table

A list of scopes in the order of their creation. Every scope but the first has a parent, which was
created before it; a lookup in a scope goes on in the parent, while `lookup_any` goes through all
scopes in the order of creation.
-/

namespace Mx.Sema

open List

/-- The value of a constant. -/
inductive ConstValue where
  | integer (v : Int)
  | real (bits : UInt64)
  | boolean (b : Bool)
  | char (c : Char)
  | string (s : String)
  | set (bits : UInt64)
  | nil
  deriving DecidableEq, Repr

/-- A parameter of a procedure. -/
structure ParamInfo where
  name : String
  typ : TypeId
  isVar : Bool
  deriving DecidableEq, Repr

/-- What a symbol stands for. -/
inductive SymbolKind where
  | constant (v : ConstValue)
  | variable
  | typ
  | procedure (params : List ParamInfo) (returnType : Option TypeId) (isBuiltin : Bool)
  | modul (scopeId : Nat)
  | field
  | enumVariant (v : Int)
  deriving DecidableEq, Repr

/-- A symbol. -/
structure Symbol where
  name : String
  kind : SymbolKind
  typ : TypeId
  exported : Bool
  moduleName : Option String
  isVarParam : Bool
  isOpenArray : Bool
  deriving DecidableEq, Repr

/-- A scope. -/
structure Scope where
  symbols : List (String × Symbol)
  parent : Option Nat
  name : String
  deriving DecidableEq, Repr

/-- The scopes in the order of their creation; `push_scope` takes the parent from those that are
there. -/
structure SymbolTable where
  scopes : List Scope
  parent_lt : ∀ (id : Nat) (s : Scope), scopes[id]? = some s → ∀ p, s.parent = some p → p < id

namespace SymbolTable

variable (tab : SymbolTable)

/-- `lookup_in_scope_direct`. -/
def lookupInScopeDirect (scopeId : Nat) (name : String) : Option Symbol :=
  (tab.scopes[scopeId]?).bind fun s => s.symbols.lookup name

/-- A lookup that visits at most as many scopes as given. -/
def lookupUpTo : Nat → Nat → String → Option Symbol
  | 0, _, _ => none
  | fuel + 1, scopeId, name =>
    match tab.scopes[scopeId]? with
    | none => none
    | some scope =>
      match scope.symbols.lookup name with
      | some sym => some sym
      | none => scope.parent.bind fun parent => lookupUpTo fuel parent name

/-- `lookup_in_scope`: the scopes it visits have smaller and smaller numbers. -/
def lookupInScope (scopeId : Nat) (name : String) : Option Symbol :=
  tab.lookupUpTo (scopeId + 1) scopeId name

/-- `lookup_any`: the first scope that has the name. -/
def lookupAny (name : String) : Option Symbol :=
  tab.scopes.findSome? fun scope => scope.symbols.lookup name

/-- The scope that a symbol of a module stands for. -/
def moduleScope (sym : Symbol) : Option Nat :=
  match sym.kind with
  | .modul scopeId => some scopeId
  | _ => none

/-- `lookup_qualified`. -/
def lookupQualified (moduleName name : String) : Option Symbol :=
  match tab.scopes.findSome? fun scope => (scope.symbols.lookup moduleName).bind moduleScope with
  | none => none
  | some scopeId => (tab.lookupInScopeDirect scopeId name).filter (·.exported)

/-- `find_type`: the first scope that has the name as a type. -/
def findType (name : String) : Option TypeId :=
  tab.scopes.findSome? fun scope =>
    (scope.symbols.lookup name).bind fun sym => if sym.kind = .typ then some sym.typ else none

/-- A symbol under a name of a scope. -/
def insert (scopeId : Nat) (name : String) (sym : Symbol) : SymbolTable where
  scopes := tab.scopes.modify scopeId fun scope =>
    { scope with symbols := (name, sym) :: scope.symbols }
  parent_lt := by
    intro id s hs p hp
    rw [getElem?_modify] at hs
    obtain ⟨scope, hscope, rfl⟩ := Option.map_eq_some_iff.1 hs
    apply tab.parent_lt id scope hscope p
    split at hp
    · exact hp
    · exact hp

/-- `define`: a local definition replaces an imported symbol, and the last import another one. -/
def define (scopeId : Nat) (sym : Symbol) : Except String SymbolTable :=
  match tab.lookupInScopeDirect scopeId sym.name with
  | none => .ok (tab.insert scopeId sym.name sym)
  | some existing =>
    if ¬ (existing.moduleName.isSome ∧ sym.moduleName.isSome) ∧
        (existing.moduleName = none ∨ sym.moduleName.isSome) then
      .error ("'" ++ sym.name ++ "' is already defined in this scope")
    else
      .ok (tab.insert scopeId sym.name
        { sym with exported := (existing.exported && !sym.exported) || sym.exported })

variable {tab}

theorem lookupUpTo_congr (name : String) :
    ∀ (fuel fuel' scopeId : Nat), scopeId < fuel → scopeId < fuel' →
      tab.lookupUpTo fuel scopeId name = tab.lookupUpTo fuel' scopeId name := by
  intro fuel
  induction fuel with
  | zero =>
    intro _ _ h
    exact absurd h (Nat.not_lt_zero _)
  | succ fuel ih =>
    intro fuel' scopeId h h'
    obtain ⟨fuel', rfl⟩ := Nat.exists_eq_succ_of_ne_zero (Nat.ne_of_gt (Nat.zero_lt_of_lt h'))
    simp only [lookupUpTo]
    cases hscope : tab.scopes[scopeId]? with
    | none => rfl
    | some scope =>
      dsimp only
      split
      · rfl
      · cases hparent : scope.parent with
        | none => rfl
        | some parent =>
          have hlt := tab.parent_lt scopeId scope hscope parent hparent
          apply ih
          · omega
          · omega

variable {scopeId : Nat} {name : String}

/-- A lookup finds the symbol of the scope itself first, and goes on in the parent. -/
theorem lookupInScope_eq {scope : Scope}
    (hscope : tab.scopes[scopeId]? = some scope) (name : String) :
    tab.lookupInScope scopeId name =
      (scope.symbols.lookup name).or (scope.parent.bind fun p => tab.lookupInScope p name) := by
  rw [lookupInScope, lookupUpTo, hscope]
  dsimp only
  cases scope.symbols.lookup name with
  | some sym => rfl
  | none =>
    rw [Option.none_or]
    cases hparent : scope.parent with
    | none => rfl
    | some parent =>
      have hlt := tab.parent_lt scopeId scope hscope parent hparent
      exact lookupUpTo_congr name _ _ parent hlt (Nat.lt_succ_self parent)

/-- A symbol that the scope has is found first. -/
theorem lookupInScope_of_direct {sym : Symbol}
    (h : tab.lookupInScopeDirect scopeId name = some sym) :
    tab.lookupInScope scopeId name = some sym := by
  obtain ⟨scope, hscope, hsym⟩ := Option.bind_eq_some_iff.1 h
  rw [lookupInScope_eq hscope, hsym, Option.some_or]

theorem getElem?_insert (scopeId : Nat) (name : String) (sym : Symbol) (id : Nat) :
    (tab.insert scopeId name sym).scopes[id]? = (tab.scopes[id]?).map fun scope =>
      if scopeId = id then { scope with symbols := (name, sym) :: scope.symbols } else scope :=
  getElem?_modify _ _ _ _

/-- The scope has the symbol that was put there. -/
theorem lookupInScopeDirect_insert (hlt : scopeId < tab.scopes.length)
    (name other : String) (sym : Symbol) :
    (tab.insert scopeId name sym).lookupInScopeDirect scopeId other =
      if other = name then some sym else tab.lookupInScopeDirect scopeId other := by
  rw [lookupInScopeDirect, lookupInScopeDirect, getElem?_insert, getElem?_eq_getElem hlt,
    Option.map_some, Option.bind_some, Option.bind_some, if_pos rfl, lookup_cons]
  by_cases h : other = name
  · simp [h]
  · rw [if_neg h, beq_false_of_ne h]

/-- A lookup of another name is as before. -/
theorem lookupUpTo_insert {other : String} (hne : other ≠ name) (scopeId : Nat) (sym : Symbol) :
    ∀ fuel id, (tab.insert scopeId name sym).lookupUpTo fuel id other =
      tab.lookupUpTo fuel id other := by
  intro fuel
  induction fuel with
  | zero =>
    intro id
    rfl
  | succ fuel ih =>
    intro id
    rw [lookupUpTo, lookupUpTo, getElem?_insert]
    cases hscope : tab.scopes[id]? with
    | none => rfl
    | some scope =>
      rw [Option.map_some]
      have hsymbols : (if scopeId = id then { scope with symbols := (name, sym) :: scope.symbols }
          else scope).symbols.lookup other = scope.symbols.lookup other := by
        split
        · rw [lookup_cons, beq_false_of_ne hne]
        · rfl
      have hparent : (if scopeId = id then { scope with symbols := (name, sym) :: scope.symbols }
          else scope).parent = scope.parent := by
        split <;> rfl
      dsimp only
      rw [hsymbols, hparent]
      cases scope.symbols.lookup other with
      | some found => rfl
      | none => exact congrArg (Option.bind scope.parent) (funext fun p => ih p)

/-- A search does not see a change of an element that it answers the same for. -/
theorem findSome?_modify {α β : Type} {f : α → Option β} {g : α → α} :
    ∀ (l : List α) (i : Nat), (∀ x, l[i]? = some x → f (g x) = f x) →
      (l.modify i g).findSome? f = l.findSome? f
  | [], _, _ => by simp
  | x :: l, 0, h => by
    rw [modify_zero_cons, findSome?_cons, findSome?_cons, h x rfl]
  | x :: l, i + 1, h => by
    rw [modify_succ_cons, findSome?_cons, findSome?_cons, findSome?_modify l i fun y hy => h y hy]

theorem findType_insert_ne {other : String} (hne : other ≠ name) (scopeId : Nat)
    (sym : Symbol) : (tab.insert scopeId name sym).findType other = tab.findType other := by
  apply findSome?_modify
  intro scope _
  dsimp only
  rw [lookup_cons, beq_false_of_ne hne]

/-- A symbol that is no type, in the place of one that is none, leaves the types as they are. -/
theorem findType_insert_of_not_type {old sym : Symbol}
    (hold : tab.lookupInScopeDirect scopeId name = some old) (hkind : old.kind ≠ .typ)
    (hsym : sym.kind ≠ .typ) (other : String) :
    (tab.insert scopeId name sym).findType other = tab.findType other := by
  apply findSome?_modify
  intro scope hscope
  have hfound : scope.symbols.lookup name = some old := by
    rwa [lookupInScopeDirect, hscope, Option.bind_some] at hold
  dsimp only
  by_cases h : other = name
  · subst h
    rw [lookup_cons_self, hfound, Option.bind_some, Option.bind_some, if_neg hkind, if_neg hsym]
  · rw [lookup_cons, beq_false_of_ne h]

end SymbolTable

end Mx.Sema

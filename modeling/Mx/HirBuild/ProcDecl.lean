import Mx.Cfg.Graph

/-!
# Procedure declarations

`HirProcDecl` with the procedures nested in it, and the search by bare name that the C backend
runs over them. Every search of the source is one recursion with a projection: it stops at the
first procedure of the name, in source order and parents before children.
-/

namespace Mx.HirBuild

open List

/-- A parameter of a procedure prototype. -/
structure HirParamDecl where
  name : String
  typeId : TypeId
  isVar : Bool
  isOpenArray : Bool
  isProcType : Bool
  isChar : Bool
  needsHigh : Bool
  deriving DecidableEq, Repr

/-- A procedure signature. -/
structure HirProcSig where
  name : String
  mangled : String
  module : String
  params : List HirParamDecl
  returnType : Option TypeId
  exported : Bool
  isForeign : Bool
  exportCName : Option String
  isNested : Bool
  parentProc : Option String
  hasClosureEnv : Bool
  deriving DecidableEq, Repr

/-- A constant declaration. -/
structure HirConstDecl where
  name : String
  mangled : String
  value : ConstVal
  typeId : TypeId
  exported : Bool
  cType : String
  deriving DecidableEq, Repr

/-- A declaration inside a procedure. -/
inductive HirLocalDecl where
  | var (name : String) (typeId : TypeId)
  | type (name : String) (typeId : TypeId)
  | const (decl : HirConstDecl)
  | exception (name mangled : String) (excId : Nat)
  deriving DecidableEq, Repr

/-- A variable that a nested procedure takes from an enclosing one. -/
structure CapturedVar where
  name : String
  ty : TypeId
  isHighCompanion : Bool
  deriving DecidableEq, Repr

/-- A procedure declaration with the procedures nested in it. -/
structure HirProcDecl where
  sig : HirProcSig
  body : Option (List HirStmt)
  locals : List HirLocalDecl
  nestedProcs : List HirProcDecl
  closureCaptures : List CapturedVar
  cfg : Option Cfg

/-- The older form of a procedure, as far as it is still searched. -/
structure HirProc where
  sourceName : String
  locals : List HirLocalDecl
  nestedProcs : List HirProc

/-- A module embedded in the program, as far as it is searched. -/
structure HirEmbeddedModule where
  name : String
  procedures : List HirProcDecl

/-- A module, as far as its procedures are searched. -/
structure HirModule where
  name : String
  procDecls : List HirProcDecl
  procedures : List HirProc
  embeddedModules : List HirEmbeddedModule

/-- The name a procedure is searched by. -/
def HirProcDecl.name (pd : HirProcDecl) : String := pd.sig.name

/-- The variables among the local declarations. -/
def localVars (locals : List HirLocalDecl) : List (String × TypeId) :=
  locals.filterMap fun
    | .var name typeId => some (name, typeId)
    | _ => none

/-- The names of the nested procedures. -/
def HirProcDecl.childNames (pd : HirProcDecl) : List String := pd.nestedProcs.map HirProcDecl.name

/-- The procedures of a forest, parents before children. -/
def preorder : List HirProcDecl → List HirProcDecl
  | [] => []
  | ⟨sig, body, locals, nested, captures, cfg⟩ :: pds =>
    ⟨sig, body, locals, nested, captures, cfg⟩ :: (preorder nested ++ preorder pds)

/-- `search_nested`, `search_body`, `search_cfg`, `search_locals`, `find_locals` and
`find_children`. -/
def searchProcs {β : Type} (f : HirProcDecl → Option β) (name : String) :
    List HirProcDecl → Option β
  | [] => none
  | ⟨sig, body, locals, nested, captures, cfg⟩ :: pds =>
    if sig.name = name then f ⟨sig, body, locals, nested, captures, cfg⟩
    else (searchProcs f name nested).or (searchProcs f name pds)

/-! ## Search -/

section Search

variable {β : Type} {f : HirProcDecl → Option β} {name : String}

theorem preorder_cons (pd : HirProcDecl) (pds : List HirProcDecl) :
    preorder (pd :: pds) = pd :: (preorder pd.nestedProcs ++ preorder pds) := by
  cases pd
  rw [preorder]

theorem mem_preorder {pd : HirProcDecl} {pds : List HirProcDecl} (h : pd ∈ pds) :
    pd ∈ preorder pds := by
  induction pds with
  | nil => exact absurd h (by simp)
  | cons q pds ih =>
    rw [preorder_cons]
    obtain rfl | h := mem_cons.mp h
    · simp
    · simp [ih h]

/-- The procedures nested in a procedure of the forest are in the forest. -/
theorem nested_subset_preorder : ∀ (pds : List HirProcDecl) {pd : HirProcDecl},
    pd ∈ preorder pds → pd.nestedProcs ⊆ preorder pds
  | [], pd, h => by simp [preorder] at h
  | ⟨sig, body, locals, nested, captures, cfg⟩ :: pds, pd, h => by
    have ihn := @nested_subset_preorder nested pd
    have ihs := @nested_subset_preorder pds pd
    rw [preorder] at h ⊢
    intro q hq
    obtain rfl | h := mem_cons.mp h
    · exact mem_cons_of_mem _ (mem_append_left _ (mem_preorder hq))
    · obtain h | h := mem_append.mp h
      · exact mem_cons_of_mem _ (mem_append_left _ (ihn h hq))
      · exact mem_cons_of_mem _ (mem_append_right _ (ihs h hq))

theorem searchProcs_eq_none : ∀ (pds : List HirProcDecl),
    (∀ pd ∈ preorder pds, pd.name ≠ name) → searchProcs f name pds = none
  | [], _ => by rw [searchProcs]
  | ⟨sig, body, locals, nested, captures, cfg⟩ :: pds, h => by
    rw [preorder, forall_mem_cons] at h
    have ihn := searchProcs_eq_none nested fun pd hpd => h.2 pd (mem_append_left _ hpd)
    have ihs := searchProcs_eq_none pds fun pd hpd => h.2 pd (mem_append_right _ hpd)
    have hroot : sig.name ≠ name := h.1
    rw [searchProcs, if_neg hroot, ihn, ihs, Option.or_none]

/-- A search for data that every procedure has stops at the first procedure of the name. -/
theorem searchProcs_eq_find (g : HirProcDecl → β) (name : String) : ∀ (pds : List HirProcDecl),
    searchProcs (fun pd => some (g pd)) name pds =
      ((preorder pds).find? fun pd => pd.name = name).map g
  | [] => by simp [searchProcs, preorder]
  | ⟨sig, body, locals, nested, captures, cfg⟩ :: pds => by
    have ihn := searchProcs_eq_find g name nested
    have ihs := searchProcs_eq_find g name pds
    rw [searchProcs, preorder, find?_cons]
    by_cases hname : sig.name = name
    · simp [hname, HirProcDecl.name]
    · simp only [hname, if_false, HirProcDecl.name, decide_false, find?_append, ihn, ihs]
      exact Option.map_or.symm

/-- If the names are distinct, a search finds the procedure of the name. -/
theorem searchProcs_of_mem : ∀ (pds : List HirProcDecl) {pd : HirProcDecl},
    ((preorder pds).map HirProcDecl.name).Nodup → pd ∈ preorder pds →
    searchProcs f pd.name pds = f pd
  | [], pd, _, h => by simp [preorder] at h
  | ⟨sig, body, locals, nested, captures, cfg⟩ :: pds, pd, hnodup, h => by
    have ihn := @searchProcs_of_mem nested pd
    have ihs := @searchProcs_of_mem pds pd
    rw [preorder] at h hnodup
    rw [map_cons, nodup_cons, map_append, nodup_append] at hnodup
    obtain ⟨hroot, hnested, hrest, hdisjoint⟩ := hnodup
    obtain rfl | h := mem_cons.mp h
    · simp [searchProcs, HirProcDecl.name]
    · have hne : sig.name ≠ pd.name := by
        intro heq
        apply hroot
        rw [← map_append]
        exact mem_map.mpr ⟨pd, h, heq.symm⟩
      rw [searchProcs, if_neg hne]
      obtain h | h := mem_append.mp h
      · have hnone : searchProcs f pd.name pds = none := by
          apply searchProcs_eq_none
          intro q hq heq
          exact hdisjoint _ (mem_map_of_mem h) _ (mem_map_of_mem hq) heq.symm
        rw [ihn hnested h, hnone, Option.or_none]
      · have hnone : searchProcs f pd.name nested = none := by
          apply searchProcs_eq_none
          intro q hq heq
          exact hdisjoint _ (mem_map_of_mem hq) _ (mem_map_of_mem h) heq
        rw [hnone, Option.none_or, ihs hrest h]

end Search

end Mx.HirBuild

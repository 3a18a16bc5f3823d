import Mx.Hir.Syntax

/-!
# The type registry

Types as `types.rs` declares them. A `TypeId` is an index into the registry, whose first
twenty entries are the built-in types under their well-known ids. A name declared by
`TYPE T = U` in a block is an `Alias` entry of its own, so one type has many ids.
-/

namespace Mx

/-- A parameter of a procedure type. -/
structure ParamType where
  isVar : Bool
  typ : TypeId
  deriving DecidableEq, Repr

/-- A record field. -/
structure RecordField where
  name : String
  typ : TypeId
  deriving DecidableEq, Repr

/-- One case of a variant part. -/
structure VariantCase where
  labels : List Int
  fields : List RecordField
  deriving DecidableEq, Repr

/-- The variant part of a record. -/
structure VariantInfo where
  tagName : Option String
  tagType : TypeId
  variants : List VariantCase
  deriving DecidableEq, Repr

/-- A method of an object type. -/
structure ObjectMethod where
  name : String
  params : List ParamType
  returnType : Option TypeId
  deriving DecidableEq, Repr

/-- A registered type: `Type` of `types.rs`. -/
inductive RegType where
  | integer | cardinal | real | longReal | boolean | char | bitset | void | nil
  | word | byte | address | longInt | longCard | complex | longComplex
  | stringLit (length : Nat)
  | array (indexType elemType : TypeId) (low high : Int)
  | openArray (elemType : TypeId)
  | record (fields : List RecordField) (variants : Option VariantInfo)
  | pointer (base : TypeId)
  | set (base : TypeId)
  | enumeration (name : String) (variants : List String)
  | subrange (base : TypeId) (low high : Int)
  | procedureType (params : List ParamType) (returnType : Option TypeId)
  | opaqueType (name moduleName : String)
  | alias (name : String) (target : TypeId)
  | ref (target : TypeId) (branded : Option String)
  | refAny
  | object (name : String) (parent : Option TypeId) (fields : List RecordField)
      (methods : List ObjectMethod)
  | exception (name : String)
  | error
  deriving DecidableEq, Repr

/-! ## Well-known ids -/

def tyInteger : TypeId := 0
def tyCardinal : TypeId := 1
def tyReal : TypeId := 2
def tyLongReal : TypeId := 3
def tyChar : TypeId := 5
def tyBitset : TypeId := 6
def tyNil : TypeId := 8
def tyString : TypeId := 9
def tyWord : TypeId := 10
def tyByte : TypeId := 11
def tyLongInt : TypeId := 13
def tyLongCard : TypeId := 14
def tyComplex : TypeId := 15
def tyLongComplex : TypeId := 16
def tyRefAny : TypeId := 17
def tyProc : TypeId := 18
def tyError : TypeId := 19

/-- The entries `TypeRegistry::new` registers, in the order of their ids. -/
def builtinTypes : List RegType :=
  [.integer, .cardinal, .real, .longReal, .boolean, .char, .bitset, .void, .nil, .stringLit 0,
    .word, .byte, .address, .longInt, .longCard, .complex, .longComplex, .refAny,
    .procedureType [] none, .error]

/-- A registry: the built-in types, followed by the types of the program. -/
structure TypeRegistry where
  declared : List RegType

namespace TypeRegistry

/-- All entries. -/
def types (reg : TypeRegistry) : List RegType := builtinTypes ++ reg.declared

/-- The entry of an id. Every `TypeId` in use was returned by `register`; on any other
number, where the source panics, this is the poison type. -/
def get (reg : TypeRegistry) (id : TypeId) : RegType := reg.types.getD id .error

/-- The types of the program come after the built-in ones. -/
theorem get_builtin (reg : TypeRegistry) {id : TypeId} (h : id < builtinTypes.length) :
    reg.get id = builtinTypes.getD id .error := by
  simp [get, types, List.getD_eq_getElem?_getD, List.getElem?_append_left h]

/-- No built-in type is an alias. -/
theorem ne_of_alias {reg : TypeRegistry} {id target k : TypeId} {name : String}
    (h : reg.get id = .alias name target) (hk : k < builtinTypes.length) : id ≠ k := by
  rintro rfl
  rw [get_builtin reg hk] at h
  have hnone : ∀ t ∈ builtinTypes, t ≠ .alias name target := by simp [builtinTypes]
  have hmem : builtinTypes.getD id .error ∈ builtinTypes := by
    rw [List.getD_eq_getElem?_getD, List.getElem?_eq_getElem hk]
    exact List.getElem_mem hk
  exact hnone _ hmem h

/-- Follow at most `n` aliases. -/
def followAliases (reg : TypeRegistry) : Nat → TypeId → TypeId
  | 0, id => id
  | n + 1, id =>
    match reg.get id with
    | .alias _ target => reg.followAliases n target
    | _ => id

/-- `resolve_hir_alias`: the loop gives up once it has followed more than fifty aliases. -/
def resolveHirAlias (reg : TypeRegistry) (id : TypeId) : TypeId := reg.followAliases 51 id

/-- A chain of `n` aliases from one id to another. -/
inductive AliasChain (reg : TypeRegistry) : Nat → TypeId → TypeId → Prop where
  | refl (t : TypeId) : AliasChain reg 0 t t
  | step {n : Nat} {s t u : TypeId} {name : String} (h : reg.get s = .alias name t)
      (ht : AliasChain reg n t u) : AliasChain reg (n + 1) s u

theorem followAliases_of_chain {reg : TypeRegistry} {n : Nat} {s t : TypeId}
    (h : AliasChain reg n s t) (m : Nat) : reg.followAliases (n + m) s = reg.followAliases m t := by
  induction h with
  | refl t => simp
  | step h _ ih =>
    rw [Nat.add_right_comm, followAliases, h]
    exact ih

end TypeRegistry

end Mx

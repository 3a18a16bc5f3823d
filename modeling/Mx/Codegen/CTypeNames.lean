import Mx.Types.Registry

/-!
# C type names

`type_id_to_c` writes a C type for every type id, but not always one that can stand before the
name that it declares: an enumeration without a `TYPE` name is written by the name that the
analyzer made up for it, a procedure type without one as a bare function pointer.
-/

namespace Mx

/-- Whether the entry is a procedure type. -/
def RegType.isProcedure : RegType → Bool
  | .procedureType _ _ => true
  | _ => false

/-- Whether the entry is a name for another type. -/
def RegType.isAlias : RegType → Bool
  | .alias _ _ => true
  | _ => false

namespace CodeGen

/-- A type as `type_id_to_c` writes it. -/
inductive CTypeName where
  /-- A type of C or of the runtime. -/
  | builtin (name : String)
  /-- The name in `typeid_c_names`, which a `typedef` of the file declares. -/
  | typedef (tid : TypeId)
  /-- The source name of a type that has no such entry. -/
  | source (name : String)
  /-- `"{} *"` -/
  | pointer (base : CTypeName)
  /-- `"{} (*)({})"` -/
  | procedure (result : CTypeName) (params : List CTypeName)

namespace CTypeName

/-- The name can stand before a declarator. -/
def declares : CTypeName → Bool
  | .builtin _ | .typedef _ => true
  | .source _ | .procedure _ _ => false
  | .pointer base => base.declares

mutual

/-- The name can stand for a parameter without a name. -/
def isParam : CTypeName → Bool
  | .builtin _ | .typedef _ => true
  | .source _ => false
  | .pointer base => base.declares
  | .procedure result params => result.declares && areParams params

/-- Every one of the names can stand for a parameter. -/
def areParams : List CTypeName → Bool
  | [] => true
  | p :: ps => p.isParam && areParams ps

end

end CTypeName

/-- The C types of the ids that `type_id_to_c` knows. -/
def cBaseType (tid : TypeId) : Option String :=
  [(tyInteger, "int32_t"), (tyCardinal, "uint32_t"), (tyReal, "float"), (tyLongReal, "double"),
    (tyBoolean, "int"), (tyChar, "char"), (tyBitset, "uint32_t"), (tyAddress, "void *"),
    (tyLongInt, "int64_t"), (tyLongCard, "uint64_t"), (tyWord, "uint32_t"), (tyByte, "uint8_t"),
    (tyVoid, "void"), (tyComplex, "m2_COMPLEX"), (tyLongComplex, "m2_LONGCOMPLEX")].lookup tid

/-- `type_source_name`, for an entry that is no alias. -/
def typeSourceName : RegType → Option String
  | .enumeration name _ | .opaqueType name _ | .exception name | .object name _ _ _ => some name
  | _ => none

/-- `type_id_to_c`. `named` are the types with an entry in `typeid_c_names`; every alias has one,
as a `TYPE` declaration made it. The source follows pointers and elements without a bound. -/
def typeIdToCName (reg : TypeRegistry) (named : TypeId → Bool) : Nat → TypeId → CTypeName
  | 0, _ => .source ""
  | depth + 1, tid =>
    match cBaseType tid with
    | some name => .builtin name
    | none =>
      if named tid || (reg.get tid).isAlias then .typedef tid
      else match typeSourceName (reg.get tid) with
        | some name => .source name
        | none =>
          match reg.get tid with
          | .pointer base =>
            if (reg.get (reg.resolveHirAlias base)).isProcedure then .builtin "void *"
            else .pointer (typeIdToCName reg named depth base)
          | .array _ elemType _ _ | .openArray elemType => typeIdToCName reg named depth elemType
          | .set _ | .bitset => .builtin "uint32_t"
          | .procedureType params result =>
            .procedure (result.elim (.builtin "void") (typeIdToCName reg named depth))
              (params.map fun p => if p.isVar then .pointer (typeIdToCName reg named depth p.typ)
                else typeIdToCName reg named depth p.typ)
          | .ref _ _ | .refAny | .nil | .address => .builtin "void *"
          | .stringLit _ => .builtin "const char *"
          | .complex => .builtin "m2_COMPLEX"
          | .longComplex => .builtin "m2_LONGCOMPLEX"
          | _ => .builtin "int32_t"

/-- What `type_id_to_c` writes. Where it returns, it meets no type twice. -/
def cTypeName (reg : TypeRegistry) (named : TypeId → Bool) (tid : TypeId) : CTypeName :=
  typeIdToCName reg named (reg.types.length + 1) tid

/-- The base of a pointer type has a C type to which `*` can be added. An unnamed pointer to a
procedure type is `void *`. -/
def pointerDeclares (reg : TypeRegistry) (named : TypeId → Bool) (tid base : TypeId) : Bool :=
  (cTypeName reg named base).declares ||
    !named tid && (reg.get (reg.resolveHirAlias base)).isProcedure

/-- The result and the parameters of a procedure type can be written around the declared name, as
`proc_type_decl_from_id` does. -/
def signatureDeclares (reg : TypeRegistry) (named : TypeId → Bool) (params : List ParamType)
    (result : Option TypeId) : Bool :=
  result.all (fun r => (cTypeName reg named r).declares) &&
    params.all fun p =>
      match reg.get p.typ with
      | .openArray _ => (cTypeName reg named p.typ).declares
      | _ => if p.isVar then (cTypeName reg named p.typ).declares
        else (cTypeName reg named p.typ).isParam

/-- The upper bounds that `type_id_array_suffix` writes as dimensions, and `field_type_and_suffix`
too, for a type that is built to a depth. -/
def arraySuffix (reg : TypeRegistry) : Nat → TypeId → List Int
  | 0, _ => []
  | depth + 1, tid =>
    match reg.get tid with
    | .alias _ target => arraySuffix reg depth target
    | .array _ elemType _ high => high :: arraySuffix reg depth elemType
    | _ => []

end CodeGen

end Mx

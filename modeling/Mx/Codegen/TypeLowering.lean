import Mx.Core.Layout
import Mx.Types.Registry

/-!
# Lowering of types to LLVM

`TypeLowering` turns each registered type into an LLVM type. The fields of a record become the
members of a structure; all variants of a variant part share the members after the fixed fields.
-/

namespace Mx.CodeGen

open Mx.Core

/-! ## LLVM types -/

/-- `LLVMType`, as far as types of the program are lowered to it. -/
inductive LLVMType where
  | i8
  | i32
  | i64
  | float
  | double
  | ptr
  | void
  | array (size : Nat) (elem : LLVMType)
  | struct (fields : List LLVMType)

namespace LLVMType

mutual

/-- The natural size and alignment of a type. A member or element of type `void` is written as
`i32`. -/
def extent : LLVMType → Extent
  | i8 => ⟨1, 1⟩
  | i32 => ⟨4, 4⟩
  | i64 => ⟨8, 8⟩
  | float => ⟨4, 4⟩
  | double => ⟨8, 8⟩
  | ptr => ⟨8, 8⟩
  | void => ⟨4, 4⟩
  | array size elem => ⟨size * (extent elem).size, (extent elem).align⟩
  | struct fields => structExtent (extents fields)

/-- The extents of members. -/
def extents : List LLVMType → List Extent
  | [] => []
  | t :: ts => extent t :: extents ts

end

theorem extents_eq_map (ts : List LLVMType) : extents ts = ts.map extent := by
  induction ts with
  | nil => rw [extents, List.map_nil]
  | cons t ts ih => rw [extents, ih, List.map_cons]

end LLVMType

/-! ## Records -/

/-- `FieldInfo`. -/
structure FieldInfo where
  name : String
  m2Type : TypeId
  llvmType : LLVMType
  index : Nat

variable (ty : TypeId → LLVMType)

/-- The fields of a record without the pseudo-field `variant`, which `sema` adds to a record with a
variant part. -/
def keptFields (fields : List RecordField) (variants : Option VariantInfo) : List RecordField :=
  fields.filter fun f => !(f.name == "variant" && variants.isSome)

/-- The infos of fields that stand at consecutive indices. -/
def indexed (fields : List RecordField) (start : Nat) : List FieldInfo :=
  (fields.zipIdx start).map fun p => ⟨p.1.name, p.1.typ, ty p.1.typ, p.2⟩

/-- The infos of the fixed fields and of a tag that is not among them. -/
def fixedInfos (fields : List RecordField) (vi : VariantInfo) : List FieldInfo :=
  let infos := indexed ty (keptFields fields (some vi)) 0
  match vi.tagName with
  | none => infos
  | some tagName =>
    if infos.any fun fi => fi.name == tagName then infos
    else infos ++ [⟨tagName, vi.tagType, .i32, infos.length⟩]

/-- The fields of one variant, as far as their names are new. -/
def addVariant (unionStart : Nat) (infos : List FieldInfo) (vc : VariantCase) : List FieldInfo :=
  vc.fields.zipIdx.foldl
    (fun infos p =>
      if infos.any fun fi => fi.name == p.1.name then infos
      else infos ++ [⟨p.1.name, p.1.typ, ty p.1.typ, unionStart + p.2⟩])
    infos

/-- The members of the variant part: those of the first variant with the most fields. -/
def maxTypes (vi : VariantInfo) : List LLVMType :=
  vi.variants.foldl
    (fun best vc =>
      let vt := vc.fields.map fun vf => ty vf.typ
      if vt.length > best.length then vt else best)
    []

/-- `lower_record_fields`, where the types of the fields are lowered already. -/
def lowerRecordFields (fields : List RecordField) :
    Option VariantInfo → List FieldInfo × List LLVMType
  | none =>
    let infos := indexed ty (keptFields fields none) 0
    (infos, infos.map FieldInfo.llvmType)
  | some vi =>
    let fixed := fixedInfos ty fields vi
    (vi.variants.foldl (addVariant ty fixed.length) fixed,
      fixed.map FieldInfo.llvmType ++ maxTypes ty vi)

/-- The LLVM type of a record with these members. -/
def recordType (members : List LLVMType) : LLVMType :=
  if members.isEmpty then .struct [.i8] else .struct members

/-- `lookup_field`. -/
def lookupField (infos : List FieldInfo) (fieldName : String) : Option FieldInfo :=
  infos.find? fun fi => fi.name == fieldName

/-! ## Types -/

/-- An `i64` as `usize`. -/
def asUsize (n : Int) : Nat := (n % 18446744073709551616).toNat

/-- The id of `VOID`. -/
def tyVoid : TypeId := 7

/-- `lower_type`, to a depth: a type that contains itself would have no end. -/
def lowerType (reg : TypeRegistry) : Nat → TypeId → LLVMType
  | 0, _ => .i32
  | depth + 1, id =>
    match reg.get id with
    | .integer | .cardinal | .boolean | .bitset | .word => .i32
    | .longInt | .longCard => .i64
    | .real => .float
    | .longReal => .double
    | .char | .byte => .i8
    | .address | .nil | .stringLit _ => .ptr
    | .void => if id = tyVoid then .void else .i32
    | .complex => .struct [.float, .float]
    | .longComplex => .struct [.double, .double]
    | .pointer _ | .openArray _ | .procedureType _ _ | .opaqueType _ _ => .ptr
    | .array _ elemType _ high => .array (asUsize (high + 1)) (lowerType reg depth elemType)
    | .record fields variants =>
      recordType (lowerRecordFields (lowerType reg depth) fields variants).2
    | .set _ | .enumeration _ _ | .subrange _ _ _ => .i32
    | .alias _ target => lowerType reg depth target
    | .ref _ _ | .refAny | .object _ _ _ _ => .ptr
    | .exception _ | .error => .i32

end Mx.CodeGen

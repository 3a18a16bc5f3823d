import Mx.Core.Store
import Mx.HirBuild.ProcDecl
import Mx.Codegen.CTypeNames

/-!
# Parameter passing

How the two backends declare the parameters of a procedure and reach them in its body. Arrays are
passed as bare pointers, also for value parameters; neither backend copies what they point to.
-/

namespace Mx

namespace TypeRegistry

/-- The type behind all aliases. -/
def resolveAll (reg : TypeRegistry) (id : TypeId) : TypeId := reg.followAliases reg.types.length id

/-- The type is a fixed array. -/
def isArray (reg : TypeRegistry) (id : TypeId) : Bool :=
  match reg.get (reg.resolveAll id) with
  | .array .. => true
  | _ => false

end TypeRegistry

namespace CodeGen

open HirBuild Mx.Core

/-- What the emission of parameters reads of the rest of the code generators. -/
structure ParamContext where
  reg : TypeRegistry
  typeIdToC : TypeId → String
  mangle : String → String
  /-- `proc_type_decl_from_id` -/
  procTypeDeclFromId : TypeId → String → Bool → String
  /-- The LLVM texts of the element types of arrays. -/
  llvmElement : TypeId → String
  /-- The LLVM texts of the fields of records. -/
  llvmFields : TypeId → String

/-! ## The C backend -/

/-- A parameter declarator of a C prototype. -/
inductive CParam where
  | openArray (elemType name : String)
  | procedure (decl : String) (isVar : Bool)
  | pointer (type name : String)
  | plain (type name : String) (typeId : TypeId)

/-- One parameter in `gen_hir_proc_prototype`. -/
def genHirProcParam (x : ParamContext) (p : HirParamDecl) : CParam :=
  let cParam := x.mangle p.name
  let resolved := x.reg.get (x.reg.resolveHirAlias p.typeId)
  if p.isOpenArray then .openArray (x.typeIdToC p.typeId) cParam
  else if p.isProcType || resolved.isProcedure then
    .procedure (x.procTypeDeclFromId p.typeId cParam p.isVar) p.isVar
  else if p.isVar then .pointer (x.typeIdToC p.typeId) cParam
  else .plain (x.typeIdToC p.typeId) cParam p.typeId

/-- What a C parameter stands for. A parameter whose type is an array type is adjusted to a
pointer, and the argument decays to the address of its first element. -/
def CParam.storage (reg : TypeRegistry) : CParam → Storage
  | .openArray .. => .shared
  | .procedure _ isVar => if isVar then .shared else .own
  | .pointer .. => .shared
  | .plain _ _ typeId => if reg.isArray typeId then .shared else .own

/-! ## The LLVM backend -/

/-- `llvm_type_for_type_id`. -/
def llvmTypeForTypeId (x : ParamContext) (id : TypeId) : String :=
  match x.reg.get (x.reg.resolveAll id) with
  | .integer | .cardinal | .boolean | .bitset | .word => "i32"
  | .set _ | .enumeration .. | .subrange .. | .exception _ | .error => "i32"
  | .longInt | .longCard => "i64"
  | .char | .byte => "i8"
  | .real => "float"
  | .longReal => "double"
  | .void => "void"
  | .array _ elemType _ high =>
    "[" ++ toString (high + 1).toNat ++ " x " ++ x.llvmElement elemType ++ "]"
  | .record .. => "\x7b " ++ x.llvmFields (x.reg.resolveAll id) ++ " \x7d"
  | .complex => "\x7b float, float \x7d"
  | .longComplex => "\x7b double, double \x7d"
  | _ => "ptr"

/-- `ty.starts_with('[')`. -/
def isArrayText (ty : String) : Bool := ty.toList.head? == some '['

/-- A parameter in `gen_hir_proc_decl`: its declaration, and the type of the slot that it is
stored to. -/
structure LlvmParam where
  decl : String
  slot : String

/-- One parameter in `gen_hir_proc_decl`. -/
def genHirProcDeclParam (x : ParamContext) (p : HirParamDecl) : LlvmParam :=
  let baseTy := llvmTypeForTypeId x p.typeId
  if p.isVar || p.isOpenArray then
    let attrs := if p.isVar then " noalias nocapture" else " nocapture readonly"
    { decl := "ptr" ++ attrs ++ " %" ++ p.name
      slot := if p.isVar || isArrayText baseTy then "ptr" else baseTy }
  else if isArrayText baseTy then { decl := "ptr nocapture readonly %" ++ p.name, slot := "ptr" }
  else { decl := baseTy ++ " noundef %" ++ p.name, slot := baseTy }

/-- `emit_place_addr` takes the address of a parameter from its slot, instead of that of the
slot. -/
def loadsAddress (x : ParamContext) (p : HirParamDecl) : Bool :=
  p.isVar || p.isOpenArray || isArrayText (llvmTypeForTypeId x p.typeId)

/-- The type `T = ARRAY [0..9] OF INTEGER`, and nothing else. -/
def arrayContext : ParamContext where
  reg := { declared := [.array tyCardinal tyInteger 0 9] }
  typeIdToC id := if id = tyInteger then "int32_t" else "T"
  mangle name := name
  procTypeDeclFromId _ name _ := "void (*" ++ name ++ ")(void)"
  llvmElement _ := "i32"
  llvmFields _ := ""

end CodeGen

end Mx

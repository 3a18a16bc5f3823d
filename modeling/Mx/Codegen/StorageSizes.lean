import Mx.Core.CEval
import Mx.Codegen.CTypeNames
import Mx.Codegen.TypeLowering
import Mx.Types.Target

/-!
# Compile-time sizes and declared storage

`type_size` counts the elements of an array from its lower bound, both backends declare one element
for every index from zero on. For types without variant parts this is one of the few differences;
the others are records without fields, records without a C name, for which the C backend declares an
`int32_t`, enumerations and procedure types whose C type cannot stand in a declaration, and what
`u32` and the type of a C constant cannot represent.
-/

namespace Mx.CodeGen

open Mx.Core List

/-! ## The C backend -/

/-- The extents of the C types that `type_id_to_c` has for the built-in types. -/
def cPrimitive (tid : TypeId) : Option Extent :=
  if tid ∈ [tyInteger, tyCardinal, tyReal, tyBoolean, tyBitset, tyWord] then some ⟨4, 4⟩
  else if tid ∈ [tyChar, tyByte] then some ⟨1, 1⟩
  else if tid ∈ [tyLongReal, tyAddress, tyLongInt, tyLongCard] then some ⟨8, 8⟩
  else if tid = tyComplex then some ⟨8, 4⟩
  else if tid = tyLongComplex then some ⟨16, 8⟩
  else none

/-- The value of the constant expression in `[high + 1]`. -/
def cDimension (high : Int) : Option Nat :=
  match CGrammar.arith .add (.ofDecimal high) high .int 1 with
  | some (.int _ v) => some v.toNat
  | _ => none

/-- The extent of what the C backend declares for a type, to a depth, if that is C: the type that
`field_type_and_suffix` writes with a dimension for each array. A variable of a procedure type is
declared around its name, and an element under the name of an alias: both are declared `alone`.
Other fields and elements are not, and then a procedure type needs a name of its own. Records have
no variant part. -/
def cExtent (reg : TypeRegistry) (named : TypeId → Bool) : Nat → Bool → TypeId → Option Extent
  | 0, _, _ => none
  | depth + 1, alone, tid =>
    match reg.get tid, cPrimitive tid with
    | .alias _ target, _ => cExtent reg named depth alone target
    | _, some e => some e
    | .array _ elemType _ high, none =>
      match cDimension high, cExtent reg named depth (reg.get elemType).isAlias elemType with
      | some n, some e => some ⟨n * e.size, e.align⟩
      | _, _ => none
    | .record fields _, none =>
      if named tid then
        (fields.mapM fun f => cExtent reg named depth false f.typ).map structExtent
      else some ⟨4, 4⟩
    | .enumeration _ _, none => if named tid then some ⟨4, 4⟩ else none
    | .pointer base, none => if pointerDeclares reg named tid base then some ⟨8, 8⟩ else none
    | .procedureType params result, none =>
      if (alone || named tid) && signatureDeclares reg named params result then some ⟨8, 8⟩
      else none
    | .opaqueType _ _, none | .object _ _ _ _, none => if named tid then some ⟨8, 8⟩ else none
    | .ref _ _, none | .refAny, none | .nil, none | .stringLit _, none => some ⟨8, 8⟩
    | _, none => some ⟨4, 4⟩

/-- The extent of the innermost element, which is the type that is written before the name. -/
def elementExtent (reg : TypeRegistry) (named : TypeId → Bool) :
    Nat → Bool → TypeId → Option Extent
  | 0, _, _ => none
  | depth + 1, alone, tid =>
    match reg.get tid with
    | .alias _ target => elementExtent reg named depth alone target
    | .array _ elemType _ _ => elementExtent reg named depth (reg.get elemType).isAlias elemType
    | _ => cExtent reg named (depth + 1) alone tid

/-! ## Types without variant parts -/

/-- The types that are built, to a depth, from primitive types, enumerations, subranges, sets,
pointers and procedure types by arrays, records without variant part and aliases. -/
def Built (reg : TypeRegistry) : Nat → TypeId → Prop
  | 0, _ => False
  | depth + 1, tid =>
    match reg.get tid with
    | .alias _ target => Built reg depth target
    | .enumeration _ _ | .subrange _ _ _ | .set _ | .pointer _ | .procedureType _ _ => True
    | .array _ elemType low high =>
      0 ≤ low ∧ low ≤ high ∧ high < 2 ^ 63 ∧ Built reg depth elemType
    | .record fields none => ∀ f ∈ fields, Built reg depth f.typ
    | _ => (cPrimitive tid).isSome

/-- The extent of the LLVM type. -/
def storage (reg : TypeRegistry) (depth : Nat) (tid : TypeId) : Extent :=
  (lowerType reg depth tid).extent

/-- The compile-time size and alignment of a type are those of the storage that both backends
declare. -/
structure SizesAgree (reg : TypeRegistry) (named : TypeId → Bool) (depth : Nat) (tid : TypeId) :
    Prop where
  size : (Target.typeSize reg depth tid).toNat = (storage reg depth tid).size
  align : (Target.typeAlign reg depth tid).toNat = (storage reg depth tid).align
  declared : cExtent reg named depth true tid = some (storage reg depth tid)

/-- What holds of a type and of all types it is built from. -/
def Throughout (reg : TypeRegistry) (p : Nat → TypeId → Prop) : Nat → TypeId → Prop
  | 0, _ => True
  | depth + 1, tid =>
    p (depth + 1) tid ∧
      match reg.get tid with
      | .alias _ target => Throughout reg p depth target
      | .array _ elemType _ _ => Throughout reg p depth elemType
      | .record fields _ => ∀ f ∈ fields, Throughout reg p depth f.typ
      | _ => True

/-- A type that is nothing but one word of four bytes. -/
def isWord (reg : TypeRegistry) : Nat → TypeId → Bool
  | 0, _ => false
  | depth + 1, tid =>
    match reg.get tid with
    | .alias _ target => isWord reg depth target
    | .enumeration _ _ | .subrange _ _ _ | .set _ => true
    | .array _ elemType _ high => high == 0 && isWord reg depth elemType
    | .record [f] _ => isWord reg depth f.typ
    | .record _ _ => false
    | _ => cPrimitive tid == some ⟨4, 4⟩

/-- The type is a procedure type, or an alias of one, that has no C name. -/
def unnamedProcedure (reg : TypeRegistry) (named : TypeId → Bool) : Nat → TypeId → Bool
  | 0, _ => false
  | depth + 1, tid =>
    match reg.get tid with
    | .alias _ target => unnamedProcedure reg named depth target
    | .procedureType _ _ => !named tid
    | _ => false

/-- What a type that is not composed of others needs to be declared in C by itself. -/
def leafDeclares (reg : TypeRegistry) (named : TypeId → Bool) (tid : TypeId) : Bool :=
  match reg.get tid with
  | .enumeration _ _ => named tid
  | .pointer base => pointerDeclares reg named tid base
  | .procedureType params result => signatureDeclares reg named params result
  | _ => true

/-- What a type needs by itself: arrays start at zero and have a bound to which C can add one,
records have fields and, unless they are one word, a C name; a procedure type in either has a name.
Enumerations have a C name, and so has what pointers and procedure types mention. -/
def Sizable (reg : TypeRegistry) (named : TypeId → Bool) (depth : Nat) (tid : TypeId) : Prop :=
  (storage reg depth tid).size < 2 ^ 32 ∧
    match reg.get tid with
    | .array _ elemType low high =>
      low = 0 ∧ high ≠ 2 ^ 31 - 1 ∧
        ((reg.get elemType).isAlias = true ∨
          unnamedProcedure reg named (depth - 1) elemType = false)
    | .record fields _ =>
      fields ≠ [] ∧ (named tid = true ∨ isWord reg depth tid = true) ∧
        ∀ f ∈ fields, unnamedProcedure reg named (depth - 1) f.typ = false
    | _ => leafDeclares reg named tid = true

/-! ## Natural extents -/

/-- A size that is a positive multiple of the alignment, which is one that a type can have. -/
structure NaturalExtent (e : Extent) : Prop where
  pos : 0 < e.size
  align : e.align = 1 ∨ e.align = 4 ∨ e.align = 8
  dvd : e.align ∣ e.size

namespace NaturalExtent

variable {e : Extent} (h : NaturalExtent e)

include h

theorem align_pos : 0 < e.align := by
  obtain ha | ha | ha := h.align <;> omega

theorem align_pow : ∃ k < 32, e.align = 2 ^ k := by
  obtain ha | ha | ha := h.align
  · exact ⟨0, by decide, ha⟩
  · exact ⟨2, by decide, ha⟩
  · exact ⟨3, by decide, ha⟩

theorem add_align_le (hlt : e.size < 2 ^ 32) : e.size + e.align ≤ 2 ^ 32 := by
  have hdvd := h.dvd
  obtain ha | ha | ha := h.align <;> rw [ha] at hdvd ⊢ <;> omega

end NaturalExtent

theorem natural_struct {es : List Extent} (hne : es ≠ []) (h : ∀ e ∈ es, NaturalExtent e) :
    NaturalExtent (structExtent es) where
  pos := by
    obtain ⟨e, he⟩ := exists_mem_of_ne_nil es hne
    have hend := sum_le_endFrom 0 fun e he => (h e he).align_pos
    have hsize := size_le_sum he
    have hup := le_alignUp (endFrom 0 es) (maxAlign_pos es)
    have hpos := (h e he).pos
    change 0 < alignUp (endFrom 0 es) (maxAlign es)
    omega
  align := by
    obtain hone | ⟨e, he, heq⟩ := maxAlign_cases es
    · exact .inl hone
    · change maxAlign es = 1 ∨ maxAlign es = 4 ∨ maxAlign es = 8
      rw [heq]
      exact (h e he).align
  dvd := dvd_alignUp _ _

/-! ## Built-in types -/

section Builtin

variable {reg : TypeRegistry} {tid : TypeId}

/-- Only the built-in types have sizes of their own. -/
theorem primitive_of_ge (h : 20 ≤ tid) :
    Target.primitiveSize tid = none ∧ Target.primitiveAlign tid = none ∧ cPrimitive tid = none := by
  have hne (k : TypeId) (hk : k < 20) : tid ≠ k := by
    rintro rfl
    exact absurd h (Nat.not_le_of_lt hk)
  refine ⟨?_, ?_, ?_⟩ <;>
    simp [Target.primitiveSize, Target.primitiveAlign, cPrimitive, hne, tyInteger, tyCardinal,
      tyReal, tyLongReal, tyBoolean, tyChar, tyBitset, Mx.tyVoid, tyNil, tyWord, tyByte, tyAddress,
      tyLongInt,
      tyLongCard, tyComplex, tyLongComplex, tyRefAny, tyProc]

theorem get_mem_builtinTypes (h : tid < 20) : reg.get tid ∈ builtinTypes := by
  have hlen : tid < builtinTypes.length := h
  rw [TypeRegistry.get_builtin reg hlen, getD_eq_getElem?_getD, getElem?_eq_getElem hlen]
  exact getElem_mem hlen

theorem ge_of_get {t : RegType} (hget : reg.get tid = t) (h : t ∉ builtinTypes) : 20 ≤ tid := by
  by_contra hlt
  exact h (hget ▸ get_mem_builtinTypes (Nat.lt_of_not_le hlt))

/-- What the three functions give for a type that is not composed of others. -/
structure LeafSizes (reg : TypeRegistry) (named : TypeId → Bool) (depth : Nat) (tid : TypeId)
    (e : Extent) : Prop where
  size : (Target.typeSize reg depth tid).toNat = e.size
  align : (Target.typeAlign reg depth tid).toNat = e.align
  lowered : storage reg depth tid = e
  declared : cExtent reg named depth true tid = if leafDeclares reg named tid then some e else none
  word : isWord reg depth tid = decide (e = ⟨4, 4⟩)

theorem leaf_primitive (named : TypeId → Bool) (depth : Nat) {e : Extent}
    (h : cPrimitive tid = some e) : LeafSizes reg named (depth + 1) tid e := by
  have hlt : tid < 20 := by
    by_contra hge
    rw [(primitive_of_ge (Nat.le_of_not_lt hge)).2.2] at h
    exact nomatch h
  have hget : reg.get tid = builtinTypes.getD tid .error := TypeRegistry.get_builtin reg hlt
  have hcases : tid ∈ List.range 20 := mem_range.2 hlt
  simp only [show List.range 20 = [0, 1, 2, 3, 4, 5, 6, 7, 8, 9, 10, 11, 12, 13, 14, 15, 16, 17, 18,
    19] from rfl, mem_cons, not_mem_nil, or_false] at hcases
  rcases hcases with rfl | rfl | rfl | rfl | rfl | rfl | rfl | rfl | rfl | rfl | rfl | rfl | rfl |
    rfl | rfl | rfl | rfl | rfl | rfl | rfl
  all_goals first
    | (have hsome : some _ = some e := h
       cases hsome
       exact ⟨by rw [Target.typeSize, hget]; rfl, by rw [Target.typeAlign, hget]; rfl,
         by rw [storage, lowerType, hget]; rfl, by rw [cExtent, leafDeclares, hget]; rfl,
         by rw [isWord, hget]; rfl⟩)
    | (have hnone : none = some e := h
       exact nomatch hnone)

theorem natural_primitive {e : Extent} (h : cPrimitive tid = some e) : NaturalExtent e := by
  unfold cPrimitive at h
  split_ifs at h <;> cases h <;> exact ⟨by decide, by decide, by decide⟩

/-- Enumerations, subranges, sets, pointers and procedure types, and their extents. -/
def leafExtent : RegType → Option Extent
  | .enumeration _ _ | .subrange _ _ _ | .set _ => some ⟨4, 4⟩
  | .pointer _ | .procedureType _ _ => some ⟨8, 8⟩
  | _ => none

theorem leaf_other (named : TypeId → Bool) (depth : Nat) {e : Extent}
    (h : leafExtent (reg.get tid) = some e) : LeafSizes reg named (depth + 1) tid e := by
  by_cases hproc : tid = tyProc
  · subst hproc
    have hget : reg.get tyProc = .procedureType [] none := TypeRegistry.get_builtin reg (by decide)
    rw [hget] at h
    cases h
    exact ⟨by rw [Target.typeSize, hget]; rfl, by rw [Target.typeAlign, hget]; rfl,
      by rw [storage, lowerType, hget]; rfl, by rw [cExtent, leafDeclares, hget]; rfl,
      by rw [isWord, hget]; rfl⟩
  · have hge : 20 ≤ tid := by
      by_contra hlt
      have hnone : ∀ k < 20, k ≠ tyProc → leafExtent (builtinTypes.getD k .error) = none := by
        decide
      have hlen : tid < builtinTypes.length := Nat.lt_of_not_le hlt
      rw [TypeRegistry.get_builtin reg hlen, hnone tid hlen hproc] at h
      exact nomatch h
    obtain ⟨hsize, halign, hc⟩ := primitive_of_ge hge
    generalize hget : reg.get tid = t at h
    cases t <;> first | exact nomatch (show none = some e from h) | skip
    all_goals
      have hsome : some _ = some e := h
      cases hsome
      exact ⟨by rw [Target.typeSize, hget, hsize]; rfl, by rw [Target.typeAlign, hget, halign]; rfl,
        by rw [storage, lowerType, hget]; rfl, by simp [cExtent, leafDeclares, hget, hc],
        by simp [isWord, hget, hc]⟩

/-- A type that is not composed of others. -/
def isLeaf : RegType → Bool
  | .alias _ _ | .array _ _ _ _ | .record _ _ => false
  | _ => true

theorem isLeaf_of_primitive {e : Extent} (h : cPrimitive tid = some e) :
    isLeaf (reg.get tid) = true := by
  have hlt : tid < 20 := by
    by_contra hge
    rw [(primitive_of_ge (Nat.le_of_not_lt hge)).2.2] at h
    exact nomatch h
  have hall : ∀ t ∈ builtinTypes, isLeaf t = true := by decide
  exact hall _ (get_mem_builtinTypes hlt)

theorem isLeaf_of_leafExtent {t : RegType} {e : Extent} (h : leafExtent t = some e) :
    isLeaf t = true := by
  cases t <;> first | rfl | exact nomatch (show none = some e from h)

theorem natural_leaf {t : RegType} {e : Extent} (h : leafExtent t = some e) : NaturalExtent e := by
  unfold leafExtent at h
  split at h <;> cases h <;> exact ⟨by decide, by decide, by decide⟩

theorem cPrimitive_procedure (h : (reg.get tid).isProcedure = true) : cPrimitive tid = none := by
  cases he : cPrimitive tid with
  | none => rfl
  | some e =>
    have hlt : tid < 20 := by
      by_contra hge
      rw [(primitive_of_ge (Nat.le_of_not_lt hge)).2.2] at he
      cases he
    have hall : ∀ k < 20, (cPrimitive k).isSome = true →
        (builtinTypes.getD k .error).isProcedure = false := by decide
    rw [TypeRegistry.get_builtin reg hlt, hall tid hlt (by rw [he]; rfl)] at h
    cases h

/-- A procedure type without a name is the only type that has to be declared alone. -/
theorem cExtent_false {named : TypeId → Bool} {depth : Nat} :
    cExtent reg named depth false tid =
      if unnamedProcedure reg named depth tid then none else cExtent reg named depth true tid := by
  induction depth generalizing tid with
  | zero => rfl
  | succ depth ih =>
    rw [cExtent, cExtent, unnamedProcedure]
    generalize hget : reg.get tid = t
    cases t
    case «alias» name target => exact ih
    case procedureType params result =>
      rw [cPrimitive_procedure (by rw [hget]; rfl)]
      cases named tid <;> rfl
    all_goals cases cPrimitive tid <;> rfl

/-- A word is no procedure type. -/
theorem unnamedProcedure_of_isWord {named : TypeId → Bool} {depth : Nat}
    (h : isWord reg depth tid = true) : unnamedProcedure reg named depth tid = false := by
  induction depth generalizing tid with
  | zero => rfl
  | succ depth ih =>
    rw [isWord] at h
    rw [unnamedProcedure]
    generalize hget : reg.get tid = t at h
    cases t
    case «alias» name target => exact ih h
    case procedureType params result =>
      have hword : (cPrimitive tid == some ⟨4, 4⟩) = true := h
      rw [cPrimitive_procedure (by rw [hget]; rfl)] at hword
      exact absurd hword (by decide)
    all_goals rfl

/-- How a type is built. -/
theorem built_cases {depth : Nat} (h : Built reg (depth + 1) tid) :
    (∃ name target, reg.get tid = .alias name target ∧ Built reg depth target) ∨
    (∃ index elem low high, reg.get tid = .array index elem low high ∧ 0 ≤ low ∧ low ≤ high ∧
      high < 2 ^ 63 ∧ Built reg depth elem) ∨
    (∃ fields, reg.get tid = .record fields none ∧ ∀ f ∈ fields, Built reg depth f.typ) ∨
    (∃ e, isLeaf (reg.get tid) = true ∧ NaturalExtent e ∧
      ∀ named, LeafSizes reg named (depth + 1) tid e) := by
  have hprim (hsome : (cPrimitive tid).isSome = true) : ∃ e, isLeaf (reg.get tid) = true ∧
      NaturalExtent e ∧ ∀ named, LeafSizes reg named (depth + 1) tid e := by
    obtain ⟨e, he⟩ := Option.isSome_iff_exists.1 hsome
    exact ⟨e, isLeaf_of_primitive he, natural_primitive he,
      fun named => leaf_primitive named depth he⟩
  have hleaf {e : Extent} (he : leafExtent (reg.get tid) = some e) : ∃ e,
      isLeaf (reg.get tid) = true ∧ NaturalExtent e ∧
        ∀ named, LeafSizes reg named (depth + 1) tid e :=
    ⟨e, isLeaf_of_leafExtent he, natural_leaf he, fun named => leaf_other named depth he⟩
  rw [Built] at h
  generalize hget : reg.get tid = t at h hprim hleaf
  cases t
  case array index elem low high => exact .inr (.inl ⟨index, elem, low, high, rfl, h⟩)
  case record fields variants =>
    cases variants with
    | none => exact .inr (.inr (.inl ⟨fields, rfl, h⟩))
    | some vi => exact .inr (.inr (.inr (hprim h)))
  all_goals first
    | exact .inl ⟨_, _, rfl, h⟩
    | exact .inr (.inr (.inr (hprim h)))
    | exact .inr (.inr (.inr (hleaf rfl)))

end Builtin

/-! ## Composed types -/

section Composed

variable {reg : TypeRegistry} {named : TypeId → Bool} {depth : Nat} {tid : TypeId}

theorem asUsize_of_lt {n : Int} (hpos : 0 ≤ n) (hlt : n < 2 ^ 64) : asUsize n = n.toNat := by
  rw [asUsize, Int.emod_eq_of_lt hpos (by omega)]

theorem storage_alias {name : String} {target : TypeId} (hget : reg.get tid = .alias name target) :
    storage reg (depth + 1) tid = storage reg depth target := by
  rw [storage, lowerType, hget]
  rfl

theorem storage_array {index elem : TypeId} {low high : Int}
    (hget : reg.get tid = .array index elem low high) (hlow : 0 ≤ high) (hhigh : high < 2 ^ 63) :
    storage reg (depth + 1) tid =
      ⟨(high + 1).toNat * (storage reg depth elem).size, (storage reg depth elem).align⟩ := by
  rw [storage, lowerType, hget]
  dsimp only
  rw [LLVMType.extent, asUsize_of_lt (by omega) (by omega)]
  rfl

theorem members_of_fields (ty : TypeId → LLVMType) (fields : List RecordField) :
    (lowerRecordFields ty fields none).2 = fields.map fun f => ty f.typ := by
  have hkept : keptFields fields none = fields := by
    simp [keptFields]
  have hindexed (start : Nat) (fs : List RecordField) :
      (indexed ty fs start).map FieldInfo.llvmType = fs.map fun f => ty f.typ := by
    induction fs generalizing start with
    | nil => rfl
    | cons f fs ih =>
      simp only [indexed, zipIdx_cons, map_cons] at ih ⊢
      rw [ih]
  rw [lowerRecordFields, hkept]
  exact hindexed 0 fields

variable {fields : List RecordField}

/-- A record is laid out naturally; one without fields is a byte. -/
theorem storage_record (hget : reg.get tid = .record fields none) :
    storage reg (depth + 1) tid =
      if fields = [] then ⟨1, 1⟩
      else structExtent (fields.map fun f => storage reg depth f.typ) := by
  rw [storage, lowerType, hget]
  dsimp only
  rw [members_of_fields, recordType]
  cases fields with
  | nil => rfl
  | cons f fields =>
    rw [if_neg (by simp), if_neg (by simp), LLVMType.extent, LLVMType.extents_eq_map, map_map]
    rfl

theorem natural_storage (h : Built reg depth tid) : NaturalExtent (storage reg depth tid) := by
  induction depth generalizing tid with
  | zero => exact h.elim
  | succ depth ih =>
    obtain ⟨name, target, hget, hb⟩ | ⟨index, elem, low, high, hget, hlow, hle, hhigh, hb⟩ |
      ⟨fields, hget, hb⟩ | ⟨e, -, hnat, hleaf⟩ := built_cases h
    · rw [storage_alias hget]
      exact ih hb
    · rw [storage_array hget (by omega) hhigh]
      have hnat := ih hb
      exact ⟨Nat.mul_pos (by omega) hnat.pos, hnat.align, Nat.dvd_mul_left_of_dvd hnat.dvd _⟩
    · rw [storage_record hget]
      split
      · exact ⟨by decide, by decide, by decide⟩
      · next hne =>
        refine natural_struct (by simpa using hne) fun e he => ?_
        obtain ⟨f, hf, rfl⟩ := mem_map.1 he
        exact ih (hb f hf)
    · rw [(hleaf fun _ => false).lowered]
      exact hnat

/-! ## Arrays -/

theorem cDimension_eq {high : Int} (hpos : 0 ≤ high) (hlt : high < 2 ^ 32) :
    cDimension high = if high = 2 ^ 31 - 1 then none else some (high + 1).toNat := by
  have hone : CIntType.int.convert 1 = 1 ∧ CIntType.long.convert 1 = 1 := by decide
  by_cases hint : high < 2 ^ 31
  · have hty : CIntType.ofDecimal high = .int := if_pos (by omega)
    have hfits : CIntType.int.Fits high := by
      change -2 ^ 31 ≤ high ∧ high < 2 ^ 31
      omega
    have hconvert : CIntType.int.convert high = high := CIntType.convert_of_fits (by decide) hfits
    have hsum : CGrammar.arith .add (.ofDecimal high) high .int 1 =
        CGrammar.result .int (high + 1) := by
      rw [hty]
      change CGrammar.result .int (CIntType.int.convert high + CIntType.int.convert 1) = _
      rw [hconvert, hone.1]
    rw [cDimension, hsum, CGrammar.result]
    split_ifs with h1 h2 h2
    · rfl
    · exact absurd (by change -2 ^ 31 ≤ high + 1 ∧ high + 1 < 2 ^ 31; omega) h1.2
    · refine absurd ⟨rfl, fun h => ?_⟩ h1
      have hlt' : -2 ^ 31 ≤ high + 1 ∧ high + 1 < 2 ^ 31 := h
      omega
    · have hfits' : CIntType.int.Fits (high + 1) := by
        change -2 ^ 31 ≤ high + 1 ∧ high + 1 < 2 ^ 31
        omega
      dsimp only
      rw [CIntType.convert_of_fits (by decide) hfits']
  · have hty : CIntType.ofDecimal high = .long := if_neg (by omega)
    have hfits : CIntType.long.Fits high ∧ CIntType.long.Fits (high + 1) := by
      change (-2 ^ 63 ≤ high ∧ high < 2 ^ 63) ∧ -2 ^ 63 ≤ high + 1 ∧ high + 1 < 2 ^ 63
      omega
    have hsum : CGrammar.arith .add (.ofDecimal high) high .int 1 =
        CGrammar.result .long (high + 1) := by
      rw [hty]
      change CGrammar.result .long (CIntType.long.convert high + CIntType.long.convert 1) = _
      rw [CIntType.convert_of_fits (by decide) hfits.1, hone.2]
    rw [cDimension, hsum, CGrammar.result, if_neg (fun h => h.2 hfits.2), if_neg (by omega)]
    dsimp only
    rw [CIntType.convert_of_fits (by decide) hfits.2]

/-- The dimensions of what is declared are those of `type_id_array_suffix`. -/
theorem cExtent_eq_suffix (alone : Bool) :
    cExtent reg named depth alone tid =
      ((arraySuffix reg depth tid).mapM cDimension).bind fun dims =>
        (elementExtent reg named depth alone tid).map fun e => ⟨dims.prod * e.size, e.align⟩ := by
  induction depth generalizing alone tid with
  | zero => rfl
  | succ depth ih =>
    rw [arraySuffix, elementExtent]
    generalize hget : reg.get tid = t
    cases t
    case «alias» name target =>
      rw [cExtent, hget]
      exact ih alone
    case array index elem low high =>
      rw [cExtent, hget, (primitive_of_ge (ge_of_get hget (by simp [builtinTypes]))).2.2]
      dsimp only
      rw [ih, mapM_cons]
      cases cDimension high with
      | none => rfl
      | some n =>
        cases (arraySuffix reg depth elem).mapM cDimension with
        | none => rfl
        | some dims =>
          cases elementExtent reg named depth (reg.get elem).isAlias elem with
          | none => rfl
          | some e => simp [Nat.mul_assoc]
    all_goals
      cases cExtent reg named (depth + 1) alone tid with
      | none => rfl
      | some e => simp

section Array

variable {index elem : TypeId} {low high : Int}

theorem stride_eq {size align : UInt32} {e : Extent} (hnat : NaturalExtent e)
    (hsize : size.toNat = e.size) (halign : align.toNat = e.align) :
    Target.alignUp size align = size := by
  obtain ⟨k, hk, hpow⟩ := hnat.align_pow
  have hle := hnat.add_align_le (hsize ▸ size.toNat_lt)
  apply UInt32.toNat_inj.1
  rw [Target.toNat_alignUp hk (halign.trans hpow) (by omega), halign, hsize,
    alignUp_of_dvd hnat.align_pos hnat.dvd]

theorem elementCount_eq (hlow : 0 ≤ low) (hle : low ≤ high) (hlt : high + 1 < 2 ^ 32) :
    (Target.elementCount low high).toNat = (high - low + 1).toNat := by
  have hbmod : (high - low + 1).bmod (2 ^ 64) = high - low + 1 :=
    Int.bmod_eq_of_le (by omega) (by omega)
  rw [Target.elementCount, hbmod, Int.max_eq_right (by omega), UInt32.toNat_ofNat']
  exact Nat.mod_eq_of_lt (by omega)

theorem array_agrees_iff (hget : reg.get tid = .array index elem low high) (hlow : 0 ≤ low)
    (hle : low ≤ high) (hhigh : high < 2 ^ 63) (hb : Built reg depth elem)
    (helem : SizesAgree reg named depth elem) :
    SizesAgree reg named (depth + 1) tid ↔ Sizable reg named (depth + 1) tid := by
  have hnat := natural_storage hb
  obtain ⟨hsize, halign, hc⟩ := primitive_of_ge (ge_of_get hget (by simp [builtinTypes]))
  have hstorage : storage reg (depth + 1) tid =
      ⟨(high + 1).toNat * (storage reg depth elem).size, (storage reg depth elem).align⟩ :=
    storage_array hget (Int.le_trans hlow hle) hhigh
  have htypeSize : Target.typeSize reg (depth + 1) tid =
      Target.elementCount low high * Target.typeSize reg depth elem := by
    rw [Target.typeSize, hget, hsize]
    dsimp only
    rw [stride_eq hnat helem.size helem.align]
  have htypeAlign : Target.typeAlign reg (depth + 1) tid = Target.typeAlign reg depth elem := by
    rw [Target.typeAlign, hget, halign]
  have helement : cExtent reg named depth (reg.get elem).isAlias elem =
      if (reg.get elem).isAlias = true ∨ unnamedProcedure reg named depth elem = false then
        some (storage reg depth elem) else none := by
    cases (reg.get elem).isAlias
    · rw [cExtent_false, helem.declared]
      cases unnamedProcedure reg named depth elem <;> rfl
    · rw [helem.declared, if_pos (.inl rfl)]
  have hcExtent : cExtent reg named (depth + 1) true tid =
      if (reg.get elem).isAlias = true ∨ unnamedProcedure reg named depth elem = false then
        (cDimension high).map fun n =>
          ⟨n * (storage reg depth elem).size, (storage reg depth elem).align⟩
      else none := by
    rw [cExtent, hget, hc]
    dsimp only
    rw [helement]
    by_cases hunnamed : (reg.get elem).isAlias = true ∨
      unnamedProcedure reg named depth elem = false
    · rw [if_pos hunnamed, if_pos hunnamed]
      cases cDimension high <;> rfl
    · rw [if_neg hunnamed, if_neg hunnamed]
      cases cDimension high <;> rfl
  have hpos := hnat.pos
  -- With less than 2^32 bytes nothing overflows.
  have hcount (hlt : (high + 1).toNat * (storage reg depth elem).size < 2 ^ 32) :
      high + 1 < 2 ^ 32 ∧ (Target.typeSize reg (depth + 1) tid).toNat =
        (high - low + 1).toNat * (storage reg depth elem).size := by
    have hhigh' : (high + 1).toNat < 2 ^ 32 :=
      Nat.lt_of_le_of_lt (Nat.le_mul_of_pos_right _ hpos) hlt
    have hless : (high - low + 1).toNat * (storage reg depth elem).size ≤
        (high + 1).toNat * (storage reg depth elem).size := Nat.mul_le_mul_right _ (by omega)
    refine ⟨by omega, ?_⟩
    rw [htypeSize, UInt32.toNat_mul, elementCount_eq hlow hle (by omega), helem.size]
    exact Nat.mod_eq_of_lt (Nat.lt_of_le_of_lt hless hlt)
  rw [Sizable, hget]
  dsimp only
  rw [Nat.add_sub_cancel]
  constructor
  · intro h
    have hdeclared := h.declared
    rw [hcExtent] at hdeclared
    obtain ⟨hunnamed, hdeclared⟩ := (Option.ite_none_right_eq_some ..).1 hdeclared
    have hsize' := h.size
    rw [hstorage] at hsize'
    dsimp only at hsize'
    have hlt : (high + 1).toNat * (storage reg depth elem).size < 2 ^ 32 :=
      hsize' ▸ UInt32.toNat_lt _
    obtain ⟨hhigh', hcounted⟩ := hcount hlt
    rw [hcounted] at hsize'
    have hsame := Nat.eq_of_mul_eq_mul_right hpos hsize'
    refine ⟨by rw [hstorage]; exact hlt, by omega, ?_, hunnamed⟩
    rintro rfl
    rw [cDimension_eq (by omega) (by omega), if_pos rfl] at hdeclared
    exact absurd hdeclared (by simp)
  · rintro ⟨hlt, rfl, hne, hunnamed⟩
    rw [hstorage] at hlt
    obtain ⟨hhigh', hcounted⟩ := hcount hlt
    refine ⟨?_, ?_, ?_⟩
    · rw [hcounted, hstorage, Int.sub_zero]
    · rw [htypeAlign, hstorage, helem.align]
    · rw [hcExtent, if_pos hunnamed, cDimension_eq hle (by omega), if_neg hne, hstorage]
      rfl

end Array

/-! ## Records -/

theorem struct_word_iff {es : List Extent} (h : ∀ e ∈ es, NaturalExtent e) :
    structExtent es = ⟨4, 4⟩ ↔ es = [⟨4, 4⟩] := by
  refine ⟨fun heq => ?_, fun heq => by rw [heq]; decide⟩
  have hsize : alignUp (endFrom 0 es) (maxAlign es) = 4 := congrArg Extent.size heq
  have halign : maxAlign es = 4 := congrArg Extent.align heq
  have hup := le_alignUp (endFrom 0 es) (maxAlign_pos es)
  have hsum := sum_le_endFrom 0 fun e he => (h e he).align_pos
  obtain hone | ⟨e, he, hmax⟩ := maxAlign_cases es
  · omega
  · have hfour : 4 ≤ e.size := by
      have hdvd := (h e he).dvd
      have hpos := (h e he).pos
      rw [← hmax, halign] at hdvd
      omega
    cases es with
    | nil => exact absurd he not_mem_nil
    | cons x es =>
      cases es with
      | nil =>
        obtain rfl := mem_singleton.1 he
        have hx : e.size = 4 := by
          simp only [map_cons, map_nil, sum_cons, sum_nil] at hsum
          omega
        obtain ⟨size, align⟩ := e
        simp_all
      | cons y es =>
        exfalso
        have hx := (h x mem_cons_self).pos
        have hy := (h y (mem_cons_of_mem _ mem_cons_self)).pos
        simp only [map_cons, sum_cons] at hsum
        obtain rfl | he := mem_cons.1 he
        · omega
        · have hrest := size_le_sum he
          simp only [map_cons, sum_cons] at hrest
          omega

theorem isWord_iff (h : Built reg depth tid) :
    storage reg depth tid = ⟨4, 4⟩ ↔ isWord reg depth tid = true := by
  induction depth generalizing tid with
  | zero => exact h.elim
  | succ depth ih =>
    obtain ⟨name, target, hget, hb⟩ | ⟨index, elem, low, high, hget, hlow, hle, hhigh, hb⟩ |
      ⟨fields, hget, hb⟩ | ⟨e, -, -, hleaf⟩ := built_cases h
    · rw [storage_alias hget, isWord, hget]
      exact ih hb
    · have hnat := natural_storage hb
      have hdvd := hnat.dvd
      have hpos := hnat.pos
      rw [storage_array hget (by omega) hhigh, isWord, hget]
      dsimp only
      rw [Bool.and_eq_true, beq_iff_eq, ← ih hb]
      generalize storage reg depth elem = e at hdvd hpos
      obtain ⟨size, align⟩ := e
      simp only [Extent.mk.injEq]
      constructor
      · rintro ⟨hsize, rfl⟩
        have hfour : 4 ≤ size := Nat.le_of_dvd hpos hdvd
        have hcount : (high + 1).toNat * 4 ≤ (high + 1).toNat * size :=
          Nat.mul_le_mul_left _ hfour
        rw [hsize] at hcount
        have hzero : high = 0 := by omega
        subst hzero
        exact ⟨rfl, by simpa using hsize, rfl⟩
      · rintro ⟨rfl, rfl, rfl⟩
        exact ⟨rfl, rfl⟩
    · have hnat : ∀ e ∈ fields.map (fun f => storage reg depth f.typ), NaturalExtent e := by
        intro e he
        obtain ⟨f, hf, rfl⟩ := mem_map.1 he
        exact natural_storage (hb f hf)
      rw [storage_record hget, isWord, hget]
      match fields, hb, hnat with
      | [], _, _ => exact iff_of_false (by simp) Bool.false_ne_true
      | [f], hb, hnat =>
        rw [if_neg (by simp), struct_word_iff hnat, map_cons, map_nil, singleton_inj]
        exact ih (hb f mem_cons_self)
      | f :: g :: fields, _, hnat =>
        rw [if_neg (by simp), struct_word_iff hnat]
        exact iff_of_false (by simp) Bool.false_ne_true
    · rw [(hleaf fun _ => false).lowered, (hleaf fun _ => false).word]
      simp

theorem foldl_typeAlign {align : TypeId → UInt32}
    {extent : RecordField → Extent} (h : ∀ f ∈ fields, (align f.typ).toNat = (extent f).align)
    (start : UInt32) :
    (fields.foldl (fun a f => max a (align f.typ)) start).toNat =
      (fields.map extent).foldl (fun a e => max a e.align) start.toNat := by
  induction fields generalizing start with
  | nil => rfl
  | cons f fields ih =>
    rw [foldl_cons, map_cons, foldl_cons,
      ih (fun g hg => h g (mem_cons_of_mem _ hg)), Target.toNat_max, h f mem_cons_self]

/-- Below 2^32 bytes `compute_record_size` is the size of the structure. -/
theorem computeRecordSize_eq (hne : fields ≠ []) (hb : ∀ f ∈ fields, Built reg depth f.typ)
    (hfields : ∀ f ∈ fields, SizesAgree reg named depth f.typ)
    (hlt : (structExtent (fields.map fun f => storage reg depth f.typ)).size < 2 ^ 32) :
    (Target.computeRecordSize (Target.typeSize reg depth) (Target.typeAlign reg depth) fields
      none).toNat = (structExtent (fields.map fun f => storage reg depth f.typ)).size := by
  have hnat : ∀ e ∈ fields.map (fun f => storage reg depth f.typ), NaturalExtent e := by
    intro e he
    obtain ⟨f, hf, rfl⟩ := mem_map.1 he
    exact natural_storage (hb f hf)
  have hstruct := natural_struct (by simpa using hne) hnat
  have hroom := hstruct.add_align_le hlt
  obtain ⟨k, hk, hpow⟩ := hstruct.align_pow
  generalize hes : fields.map (fun f => storage reg depth f.typ) = es at *
  have hup := le_alignUp (endFrom 0 es) (maxAlign_pos es)
  have hend : endFrom 0 es + maxAlign es ≤ 2 ^ 32 := Nat.le_trans (Nat.add_le_add_right hup _) hroom
  obtain ⟨h1, h2⟩ := Target.foldl_addField (Target.typeSize reg depth)
    (Target.typeAlign reg depth) (fun f => storage reg depth f.typ)
    (fun f hf => (hfields f hf).size) (fun f hf => (hfields f hf).align)
    (fun f hf => (natural_storage (hb f hf)).align_pow) (maxAlign_pos es)
    (fun f hf => le_maxAlign (hes ▸ mem_map_of_mem hf)) (0, 1) (by rw [hes]; exact hend)
  rw [hes] at h1 h2
  have hmax : (fields.foldl (Target.addField (Target.typeSize reg depth)
      (Target.typeAlign reg depth)) (0, 1)).2.toNat = maxAlign es := h2
  change (Target.alignUp _ _).toNat = _
  rw [Target.toNat_alignUp hk (hmax.trans hpow) (by rw [h1, hmax]; exact hend), h1, hmax]
  rfl

/-- Fields are declared unless one of them is a procedure type without a name. -/
theorem mapM_cExtent (hfields : ∀ f ∈ fields, SizesAgree reg named depth f.typ) :
    fields.mapM (fun f => cExtent reg named depth false f.typ) =
      if ∀ f ∈ fields, unnamedProcedure reg named depth f.typ = false then
        some (fields.map fun f => storage reg depth f.typ) else none := by
  induction fields with
  | nil => rfl
  | cons f fields ih =>
    rw [forall_mem_cons] at hfields
    rw [mapM_cons, cExtent_false, hfields.1.declared, ih hfields.2]
    simp only [forall_mem_cons]
    cases hf : unnamedProcedure reg named depth f.typ with
    | true => simp
    | false =>
      simp only [Bool.false_eq_true, if_false, true_and]
      split <;> rfl

theorem record_agrees_iff (hget : reg.get tid = .record fields none)
    (hb : ∀ f ∈ fields, Built reg depth f.typ)
    (hfields : ∀ f ∈ fields, SizesAgree reg named depth f.typ) :
    SizesAgree reg named (depth + 1) tid ↔ Sizable reg named (depth + 1) tid := by
  obtain ⟨hsize, halign, hc⟩ := primitive_of_ge (ge_of_get hget (by simp [builtinTypes]))
  have hbuilt : Built reg (depth + 1) tid := by
    rw [Built, hget]
    exact hb
  have htypeSize : Target.typeSize reg (depth + 1) tid = Target.computeRecordSize
      (Target.typeSize reg depth) (Target.typeAlign reg depth) fields none := by
    rw [Target.typeSize, hget, hsize]
  rw [Sizable, ← isWord_iff hbuilt, hget]
  dsimp only
  rw [Nat.add_sub_cancel]
  by_cases hne : fields = []
  · subst hne
    refine iff_of_false (fun h => ?_) fun h => h.2.1 rfl
    have hzero := h.size
    rw [htypeSize, storage_record hget, if_pos rfl] at hzero
    have hempty : Target.computeRecordSize (Target.typeSize reg depth)
        (Target.typeAlign reg depth) [] none = 0 := by
      change Target.alignUp 0 1 = 0
      decide
    rw [hempty] at hzero
    exact absurd hzero (by decide)
  · have hstorage : storage reg (depth + 1) tid =
        structExtent (fields.map fun f => storage reg depth f.typ) := by
      rw [storage_record hget, if_neg hne]
    have htypeAlign : (Target.typeAlign reg (depth + 1) tid).toNat =
        maxAlign (fields.map fun f => storage reg depth f.typ) := by
      rw [Target.typeAlign, hget, halign]
      exact foldl_typeAlign (fun f hf => (hfields f hf).align) 1
    have hcExtent : cExtent reg named (depth + 1) true tid =
        if named tid then
          if ∀ f ∈ fields, unnamedProcedure reg named depth f.typ = false then
            some (storage reg (depth + 1) tid) else none
        else some ⟨4, 4⟩ := by
      rw [cExtent, hget, hc, hstorage]
      dsimp only
      rw [mapM_cExtent hfields]
      split
      · split <;> rfl
      · rfl
    constructor
    · intro h
      have hlt : (storage reg (depth + 1) tid).size < 2 ^ 32 := h.size ▸ UInt32.toNat_lt _
      have hdeclared := h.declared
      rw [hcExtent] at hdeclared
      refine ⟨hlt, hne, ?_⟩
      by_cases hnamed : named tid = true
      · rw [if_pos hnamed] at hdeclared
        exact ⟨.inl hnamed, ((Option.ite_none_right_eq_some ..).1 hdeclared).1⟩
      · rw [if_neg hnamed] at hdeclared
        have hword := (Option.some.inj hdeclared).symm
        refine ⟨.inr hword, ?_⟩
        -- The only field of a word is a word.
        rw [isWord_iff hbuilt, isWord, hget] at hword
        obtain _ | ⟨f, _ | ⟨g, fields⟩⟩ := fields
        · exact absurd rfl hne
        · rw [forall_mem_singleton]
          exact unnamedProcedure_of_isWord hword
        · exact absurd hword Bool.false_ne_true
    · rintro ⟨hlt, -, hnamed, hunnamed⟩
      refine ⟨?_, ?_, ?_⟩
      · rw [hstorage] at hlt ⊢
        rw [htypeSize]
        exact computeRecordSize_eq hne hb hfields hlt
      · rw [htypeAlign, hstorage]
        rfl
      · rw [hcExtent, if_pos hunnamed]
        obtain hnamed | hword := hnamed
        · rw [if_pos hnamed]
        · rw [hword, ite_self]

end Composed

/-! ## All types -/

section All

variable {reg : TypeRegistry} {named : TypeId → Bool} {depth : Nat} {tid : TypeId}

theorem throughout_leaf {p : Nat → TypeId → Prop} (h : isLeaf (reg.get tid) = true) :
    Throughout reg p (depth + 1) tid ↔ p (depth + 1) tid := by
  rw [Throughout]
  generalize reg.get tid = t at h
  cases t <;> first | exact absurd h (by decide) | exact and_iff_left trivial | exact nomatch h

theorem sizable_leaf (h : isLeaf (reg.get tid) = true) :
    Sizable reg named depth tid ↔
      (storage reg depth tid).size < 2 ^ 32 ∧ leafDeclares reg named tid = true := by
  rw [Sizable]
  generalize reg.get tid = t at h
  cases t <;> first | exact Iff.rfl | exact absurd h Bool.false_ne_true

theorem throughout_self {p : Nat → TypeId → Prop} (hb : Built reg depth tid)
    (h : Throughout reg p depth tid) : p depth tid := by
  cases depth with
  | zero => exact hb.elim
  | succ depth => exact h.1

theorem SizesAgree.lt (h : SizesAgree reg named depth tid) :
    (storage reg depth tid).size < 2 ^ 32 := h.size ▸ UInt32.toNat_lt _

theorem alias_agrees_iff {name : String} {target : TypeId}
    (hget : reg.get tid = .alias name target) (h : SizesAgree reg named depth target) :
    SizesAgree reg named (depth + 1) tid ↔ Sizable reg named (depth + 1) tid := by
  have hstorage : storage reg (depth + 1) tid = storage reg depth target := storage_alias hget
  refine iff_of_true ⟨?_, ?_, ?_⟩ ?_
  · rw [Target.typeSize, hget, hstorage]
    exact h.size
  · rw [Target.typeAlign, hget, hstorage]
    exact h.align
  · rw [cExtent, hget, hstorage]
    exact h.declared
  · rw [Sizable, leafDeclares, hget, hstorage]
    exact ⟨h.lt, rfl⟩

end All

/-- The compile-time sizes and alignments of a type and of all types it is built from are those of
the declared storage just if every array among them starts at zero, every record has fields, no
enumeration, procedure type or record misses a C name that it needs, and no bound or size is one
that C or `u32` cannot represent. -/
theorem sizesAgree_iff_sizable {reg : TypeRegistry} (named : TypeId → Bool) {depth : Nat}
    {tid : TypeId} (h : Built reg depth tid) :
    Throughout reg (SizesAgree reg named) depth tid ↔
      Throughout reg (Sizable reg named) depth tid := by
  induction depth generalizing tid with
  | zero => exact h.elim
  | succ depth ih =>
    obtain ⟨name, target, hget, hb⟩ | ⟨index, elem, low, high, hget, hlow, hle, hhigh, hb⟩ |
      ⟨fields, hget, hb⟩ | ⟨e, hleaf, -, hsizes⟩ := built_cases h
    · rw [Throughout, Throughout, hget]
      dsimp only
      rw [← ih hb]
      exact and_congr_left fun hall => alias_agrees_iff hget (throughout_self hb hall)
    · rw [Throughout, Throughout, hget]
      dsimp only
      rw [← ih hb]
      exact and_congr_left fun hall =>
        array_agrees_iff hget hlow hle hhigh hb (throughout_self hb hall)
    · rw [Throughout, Throughout, hget]
      dsimp only
      have hfields : (∀ f ∈ fields, Throughout reg (SizesAgree reg named) depth f.typ) ↔
          ∀ f ∈ fields, Throughout reg (Sizable reg named) depth f.typ :=
        forall₂_congr fun f hf => ih (hb f hf)
      rw [← hfields]
      exact and_congr_left fun hall =>
        record_agrees_iff hget hb fun f hf => throughout_self (hb f hf) (hall f hf)
    · rw [throughout_leaf hleaf, throughout_leaf hleaf, sizable_leaf hleaf]
      obtain ⟨hsize, halign, hlowered, hdeclared, -⟩ := hsizes named
      rw [← hlowered] at hsize halign hdeclared
      constructor
      · intro h
        exact ⟨h.lt, ((Option.ite_none_right_eq_some ..).1 (hdeclared.symm.trans h.declared)).1⟩
      · rintro ⟨-, hc⟩
        exact ⟨hsize, halign, hdeclared.trans (if_pos hc)⟩

/-- `ARRAY [0..9] OF LONGINT`, `RECORD a: CHAR; b: ARRAY [0..9] OF LONGINT END`,
`ARRAY [1..4] OF INTEGER`, `ARRAY [1..1] OF CHAR` and
`RECORD a: ARRAY [1..1] OF CHAR; b: INTEGER END`. -/
def sizesRegistry : TypeRegistry :=
  ⟨[.array tyInteger tyLongInt 0 9, .record [⟨"a", tyChar⟩, ⟨"b", 20⟩] none,
    .array tyInteger tyInteger 1 4, .array tyInteger tyChar 1 1,
    .record [⟨"a", 23⟩, ⟨"b", tyInteger⟩] none]⟩

-- The padding of a record can hide that an array in it is counted short.
example : (Target.typeSize sizesRegistry 3 24).toNat = (storage sizesRegistry 3 24).size ∧
    (Target.typeSize sizesRegistry 3 23).toNat ≠ (storage sizesRegistry 3 23).size := by
  decide +kernel

-- `VAR f: PROC` is C, `h: PROC` in a record and `VAR c: (red, green)` are not.
example : cExtent ⟨[.record [⟨"h", tyProc⟩] none, .enumeration "enum@1:8" ["red", "green"]]⟩
      (fun t => t == 20) 2 true tyProc = some ⟨8, 8⟩ ∧
    cExtent ⟨[.record [⟨"h", tyProc⟩] none]⟩ (fun t => t == 20) 2 true 20 = none ∧
    cExtent ⟨[.record [] none, .enumeration "enum@1:8" ["red", "green"]]⟩
      (fun t => t == 20) 2 true 21 = none := by
  decide +kernel

/-- A record with a character and an array from zero on. -/
theorem sizesAgree_record : Built sizesRegistry 3 21 ∧
    Throughout sizesRegistry (SizesAgree sizesRegistry fun _ => true) 3 21 := by
  have hbuilt : Built sizesRegistry 3 21 := by
    change ∀ f ∈ [(⟨"a", tyChar⟩ : RecordField), ⟨"b", 20⟩], Built sizesRegistry 2 f.typ
    rw [forall_mem_cons, forall_mem_singleton]
    exact ⟨rfl, by decide, by decide, by decide, rfl⟩
  have hsizable : Throughout sizesRegistry (Sizable sizesRegistry fun _ => true) 3 21 := by
    refine ⟨⟨by decide +kernel, by simp, .inl rfl, ?_⟩, ?_⟩
    · rw [forall_mem_cons, forall_mem_singleton]
      exact ⟨rfl, rfl⟩
    change ∀ f ∈ [(⟨"a", tyChar⟩ : RecordField), ⟨"b", 20⟩], Throughout sizesRegistry _ 2 f.typ
    rw [forall_mem_cons, forall_mem_singleton]
    exact ⟨⟨⟨by decide +kernel, rfl⟩, trivial⟩, ⟨by decide +kernel, rfl, by decide, .inr rfl⟩,
      ⟨by decide +kernel, rfl⟩, trivial⟩
  exact ⟨hbuilt, (sizesAgree_iff_sizable _ hbuilt).2 hsizable⟩

/-- `TSIZE` of `ARRAY [1..4] OF INTEGER` is 16, and both backends declare five elements. -/
theorem not_sizesAgree_shifted :
    ¬ ∀ (reg : TypeRegistry) (named : TypeId → Bool) (depth : Nat) (tid : TypeId),
      Built reg depth tid →
        (Target.typeSize reg depth tid).toNat = (storage reg depth tid).size ∧
          (cExtent reg named depth true tid).map Extent.size =
            some (Target.typeSize reg depth tid).toNat := by
  intro h
  have hbuilt : Built sizesRegistry 2 22 := ⟨by decide, by decide, by decide, rfl⟩
  exact absurd (h sizesRegistry (fun _ => true) 2 22 hbuilt).1 (by decide +kernel)

example : tyInteger ≠ tyChar := by decide +kernel

end Mx.CodeGen

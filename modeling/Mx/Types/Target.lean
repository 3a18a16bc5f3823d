import Mx.Core.Layout
import Mx.Types.Registry

/-!
# Compile-time sizes

`TargetInfo` of the supported targets, which all have the same sizes and alignments. `TSIZE` and
`SIZE` fold to `type_size`. The arithmetic is that of `u32`.
-/

namespace Mx.Target

open List

/-- `align_up`. -/
def alignUp (offset align : UInt32) : UInt32 :=
  if align = 0 then offset else (offset + align - 1) &&& ~~~(align - 1)

/-- `pointer_bytes`. -/
def pointerBytes : UInt32 := 8

/-- `primitive_size`. -/
def primitiveSize (tid : TypeId) : Option UInt32 :=
  if tid ∈ [tyInteger, tyCardinal, tyReal, tyBoolean, tyBitset, tyWord] then some 4
  else if tid ∈ [tyChar, tyByte] then some 1
  else if tid ∈ [tyLongReal, tyLongInt, tyLongCard] then some 8
  else if tid ∈ [tyAddress, tyRefAny, tyProc] then some pointerBytes
  else if tid = tyComplex then some (4 * 2)
  else if tid = tyLongComplex then some (8 * 2)
  else if tid ∈ [tyVoid, tyNil] then some 0
  else none

/-- `primitive_align`. -/
def primitiveAlign (tid : TypeId) : Option UInt32 :=
  if tid ∈ [tyChar, tyByte] then some 1
  else if tid ∈ [tyInteger, tyCardinal, tyBitset, tyWord, tyBoolean] then some 4
  else if tid ∈ [tyLongInt, tyLongCard] then some 8
  else if tid ∈ [tyReal, tyComplex] then some 4
  else if tid ∈ [tyLongReal, tyLongComplex] then some 8
  else if tid ∈ [tyAddress, tyRefAny, tyProc] then some 8
  else if tid ∈ [tyVoid, tyNil] then some 1
  else none

/-- `type_align`, to a depth. -/
def typeAlign (reg : TypeRegistry) : Nat → TypeId → UInt32
  | 0, _ => 1
  | depth + 1, tid =>
    let fieldsAlign (start : UInt32) (fields : List RecordField) : UInt32 :=
      fields.foldl (fun a f => max a (typeAlign reg depth f.typ)) start
    match reg.get tid, primitiveAlign tid with
    | .alias _ target, _ => typeAlign reg depth target
    | _, some align => align
    | .enumeration _ _, none | .subrange _ _ _, none | .set _, none => 4
    | .pointer _, none | .ref _ _, none | .opaqueType _ _, none | .procedureType _ _, none => 8
    | .array _ elemType _ _, none => typeAlign reg depth elemType
    | .openArray elemType, none => typeAlign reg depth elemType
    | .record fields _, none => fieldsAlign 1 fields
    | .object _ _ fields _, none => fieldsAlign 8 fields
    | _, none => 1

section Record

variable (size align : TypeId → UInt32)

/-- One field more: the offset behind it and the largest alignment so far. -/
def addField (s : UInt32 × UInt32) (f : RecordField) : UInt32 × UInt32 :=
  (alignUp s.1 (align f.typ) + size f.typ, max s.2 (align f.typ))

/-- The variants of a variant part: the largest size and alignment. -/
def variantsExtent (variants : List VariantCase) : UInt32 × UInt32 :=
  variants.foldl
    (fun u vc =>
      let s := vc.fields.foldl (addField size align) (0, 1)
      (max u.1 (alignUp s.1 s.2), max u.2 s.2))
    (0, 1)

/-- `compute_record_size`. -/
def computeRecordSize (fields : List RecordField) (variants : Option VariantInfo) : UInt32 :=
  let s := fields.foldl (addField size align) (0, 1)
  match variants with
  | none => alignUp s.1 s.2
  | some vi =>
    let s := addField size align s ⟨vi.tagName.getD "", vi.tagType⟩
    let u := variantsExtent size align vi.variants
    alignUp (alignUp s.1 u.2 + u.1) (max s.2 u.2)

end Record

/-- The number of elements: an `i64`, cut to `u32`. -/
def elementCount (low high : Int) : UInt32 :=
  UInt32.ofNat (max 0 ((high - low + 1).bmod (2 ^ 64))).toNat

/-- `type_size`, to a depth. -/
def typeSize (reg : TypeRegistry) : Nat → TypeId → UInt32
  | 0, _ => 0
  | depth + 1, tid =>
    match reg.get tid, primitiveSize tid with
    | .alias _ target, _ => typeSize reg depth target
    | _, some size => size
    | .enumeration _ _, none | .subrange _ _ _, none | .set _, none => 4
    | .pointer _, none | .ref _ _, none | .procedureType _ _, none | .opaqueType _ _, none =>
      pointerBytes
    | .array _ elemType low high, none =>
      elementCount low high *
        alignUp (typeSize reg depth elemType) (typeAlign reg depth elemType)
    | .openArray _, none => pointerBytes + 4
    | .record fields variants, none =>
      computeRecordSize (typeSize reg depth) (typeAlign reg depth) fields variants
    | .object _ _ fields _, none =>
      let s := fields.foldl (addField (typeSize reg depth) (typeAlign reg depth)) (pointerBytes, 8)
      alignUp s.1 s.2
    | .stringLit length, none => UInt32.ofNat length + 1
    | _, none => 0

/-! ## Without overflow -/

theorem and_not_mask (y : UInt32) {k : Nat} (hk : k < 32) :
    (y &&& ~~~(UInt32.ofNat (2 ^ k - 1))).toNat = y.toNat / 2 ^ k * 2 ^ k := by
  have hpow : 2 ^ k - 1 < 2 ^ 32 :=
    Nat.lt_of_le_of_lt (Nat.sub_le _ _) (Nat.pow_lt_pow_right (by decide) hk)
  have hnot : (~~~(UInt32.ofNat (2 ^ k - 1))).toNat = 2 ^ 32 - (2 ^ k - 1 + 1) := by
    rw [UInt32.toNat_not, UInt32.toNat_ofNat', Nat.mod_eq_of_lt hpow]
    simp only [UInt32.size]
    omega
  apply Nat.eq_of_testBit_eq
  intro i
  rw [UInt32.toNat_and, hnot, Nat.testBit_and, Nat.testBit_two_pow_sub_succ hpow,
    Nat.testBit_two_pow_sub_one, Nat.testBit_mul_two_pow, Nat.testBit_div_two_pow]
  by_cases hi : i < 32
  · by_cases hki : k ≤ i
    · simp [hi, hki, Nat.not_lt.2 hki]
    · simp [hki, Nat.lt_of_not_le hki]
  · have hy : y.toNat.testBit i = false :=
      Nat.testBit_lt_two_pow (Nat.lt_of_lt_of_le y.toNat_lt
        (Nat.pow_le_pow_right (by decide) (by omega)))
    rw [hy]
    by_cases hki : k ≤ i
    · simp [hki, hy]
    · simp [hki]

theorem toNat_max (a b : UInt32) : (max a b).toNat = max a.toNat b.toNat := by
  have hdef : max a b = if a ≤ b then b else a := rfl
  rw [hdef]
  split
  · next h => rw [Nat.max_eq_right (UInt32.le_iff_toNat_le.1 h)]
  · next h => rw [Nat.max_eq_left (Nat.le_of_not_le (fun hle => h (UInt32.le_iff_toNat_le.2 hle)))]

/-- As long as nothing overflows, `align_up` gives the next multiple. -/
theorem toNat_alignUp {offset align : UInt32} {k : Nat} (hk : k < 32) (ha : align.toNat = 2 ^ k)
    (h : offset.toNat + align.toNat ≤ 2 ^ 32) :
    (alignUp offset align).toNat = Core.alignUp offset.toNat align.toNat := by
  have hpos : 0 < align.toNat := by
    rw [ha]
    exact Nat.two_pow_pos k
  have hne : align ≠ 0 := by
    rintro rfl
    exact Nat.lt_irrefl _ hpos
  have hone : (1 : UInt32).toNat = 1 := rfl
  have hmask : align - 1 = UInt32.ofNat (2 ^ k - 1) := by
    apply UInt32.toNat_inj.1
    have hlt := align.toNat_lt
    rw [UInt32.toNat_sub, UInt32.toNat_ofNat', ← ha, hone]
    omega
  have hsum : (offset + align - 1).toNat = offset.toNat + align.toNat - 1 := by
    rw [UInt32.toNat_sub, UInt32.toNat_add, hone]
    omega
  rw [alignUp, if_neg hne, hmask, and_not_mask _ hk, hsum, Core.alignUp, ha]

/-- The fields of a record end where things of their sizes and alignments do, if with the largest
alignment they end below 2^32. -/
theorem foldl_addField (size align : TypeId → UInt32) (extent : RecordField → Core.Extent)
    {fields : List RecordField} (hsize : ∀ f ∈ fields, (size f.typ).toNat = (extent f).size)
    (halign : ∀ f ∈ fields, (align f.typ).toNat = (extent f).align)
    (hpow : ∀ f ∈ fields, ∃ k < 32, (extent f).align = 2 ^ k) {bound : Nat} (hpos : 0 < bound)
    (hbound : ∀ f ∈ fields, (extent f).align ≤ bound) (s : UInt32 × UInt32)
    (hend : Core.endFrom s.1.toNat (fields.map extent) + bound ≤ 2 ^ 32) :
    (fields.foldl (addField size align) s).1.toNat =
        Core.endFrom s.1.toNat (fields.map extent) ∧
      (fields.foldl (addField size align) s).2.toNat =
        (fields.map extent).foldl (fun a e => max a e.align) s.2.toNat := by
  induction fields generalizing s with
  | nil => exact ⟨rfl, rfl⟩
  | cons f fields ih =>
    obtain ⟨k, hk, hf⟩ := hpow f mem_cons_self
    have hpos' : ∀ e ∈ fields.map extent, 0 < e.align := by
      intro e he
      obtain ⟨g, hg, rfl⟩ := mem_map.1 he
      obtain ⟨m, -, hm⟩ := hpow g (mem_cons_of_mem _ hg)
      rw [hm]
      exact Nat.two_pow_pos m
    have hstep : (alignUp s.1 (align f.typ) + size f.typ).toNat =
        Core.place s.1.toNat (extent f) := by
      have hle := Core.le_endFrom (Core.place s.1.toNat (extent f)) hpos'
      rw [map_cons, Core.endFrom_cons] at hend
      have hle' : Core.alignUp s.1.toNat (extent f).align ≤ Core.place s.1.toNat (extent f) :=
        Nat.le_add_right _ _
      have hup : s.1.toNat ≤ Core.alignUp s.1.toNat (extent f).align :=
        Core.le_alignUp _ (by rw [hf]; exact Nat.two_pow_pos k)
      have hb := hbound f mem_cons_self
      have ha := halign f mem_cons_self
      rw [UInt32.toNat_add, toNat_alignUp hk (ha.trans hf) (by omega), ha,
        hsize f mem_cons_self, ← Core.place, Nat.mod_eq_of_lt (by omega)]
    have hmax : (max s.2 (align f.typ)).toNat = max s.2.toNat (extent f).align := by
      rw [toNat_max, halign f mem_cons_self]
    obtain ⟨h1, h2⟩ := ih (fun g hg => hsize g (mem_cons_of_mem _ hg))
      (fun g hg => halign g (mem_cons_of_mem _ hg))
      (fun g hg => hpow g (mem_cons_of_mem _ hg))
      (fun g hg => hbound g (mem_cons_of_mem _ hg)) (addField size align s f) (by
        rw [addField, hstep]
        exact hend)
    rw [addField] at h1 h2
    rw [foldl_cons, map_cons, Core.endFrom_cons, foldl_cons]
    rw [hstep] at h1
    rw [hmax] at h2
    exact ⟨h1, h2⟩

end Mx.Target

import Mx.Codegen.TypeLowering

/-!
# Storage of variant parts

The members of a variant part are those of the variant with the most fields, which need not be the
one with the most bytes. A field is found by its name, so a variant field with the name of a fixed
one is found there.
-/

namespace Mx.CodeGen

open Mx.Core List

variable (ty : TypeId → LLVMType) (fields : List RecordField) (vi : VariantInfo)

/-! ## What a variant part needs -/

/-- The index of the first member of the variant part. -/
def unionStart : Nat := (fixedInfos ty fields vi).length

/-- The members of the lowered record. -/
def members : List LLVMType := (lowerRecordFields ty fields (some vi)).2

/-- The offset of the variant part in the lowered record. -/
def partStart : Nat :=
  startFrom (endFrom 0
    (((members ty fields vi).take (unionStart ty fields vi)).map LLVMType.extent))
    (((members ty fields vi).drop (unionStart ty fields vi)).map LLVMType.extent)

/-- The extents of the fields of a variant. -/
def caseExtents (vc : VariantCase) : List Extent := vc.fields.map fun vf => (ty vf.typ).extent

/-- The storage of the record has room for every variant, and no field of a variant is found among
the fixed fields or the tag. -/
structure Stored (storage : LLVMType) : Prop where
  fits : ∀ vc ∈ vi.variants,
    endFrom (partStart ty fields vi) (caseExtents ty vc) ≤ storage.extent.size
  apart : ∀ vc ∈ vi.variants, ∀ vf ∈ vc.fields,
    ∃ info, lookupField (lowerRecordFields ty fields (some vi)).1 vf.name = some info ∧
      unionStart ty fields vi ≤ info.index

/-- The first variant with the most fields. -/
def longestVariant (variants : List VariantCase) : VariantCase :=
  variants.foldl (fun best vc => if vc.fields.length > best.fields.length then vc else best)
    ⟨[], []⟩

/-- The extents of the fixed fields and the tag. -/
def fixedExtents : List Extent := (fixedInfos ty fields vi).map fun fi => fi.llvmType.extent

/-- No variant needs more room than the first one with the most fields has, with the padding at the
end of the record, and no variant field has the name of a fixed field or the tag. -/
structure Storable : Prop where
  longest : ∀ vc ∈ vi.variants,
    endFrom (startFrom (endFrom 0 (fixedExtents ty fields vi))
        (caseExtents ty (longestVariant vi.variants))) (caseExtents ty vc) ≤
      alignUp (endFrom (endFrom 0 (fixedExtents ty fields vi))
          (caseExtents ty (longestVariant vi.variants)))
        (maxAlign (fixedExtents ty fields vi ++ caseExtents ty (longestVariant vi.variants)))
  names : ∀ vc ∈ vi.variants, ∀ vf ∈ vc.fields,
    vf.name ∉ (fixedInfos ty fields vi).map FieldInfo.name

variable {ty fields vi}

/-! ## Room -/

theorem foldl_longest (variants : List VariantCase) (best : VariantCase) :
    variants.foldl
        (fun types vc =>
          let vt := vc.fields.map fun vf => ty vf.typ
          if vt.length > types.length then vt else types)
        (best.fields.map fun vf => ty vf.typ) =
      (variants.foldl
          (fun best vc => if vc.fields.length > best.fields.length then vc else best)
          best).fields.map fun vf => ty vf.typ := by
  induction variants generalizing best with
  | nil => rfl
  | cons vc variants ih =>
    simp only [foldl_cons, length_map]
    rw [← apply_ite fun vc : VariantCase => vc.fields.map fun vf => ty vf.typ]
    simpa only [length_map] using ih _

theorem maxTypes_eq :
    maxTypes ty vi = (longestVariant vi.variants).fields.map fun vf => ty vf.typ :=
  foldl_longest vi.variants ⟨[], []⟩

theorem foldl_longest_le (variants : List VariantCase) (best : VariantCase) :
    (∀ vc ∈ variants, vc.fields.length ≤ (variants.foldl
        (fun best vc => if vc.fields.length > best.fields.length then vc else best)
        best).fields.length) ∧
      best.fields.length ≤ (variants.foldl
        (fun best vc => if vc.fields.length > best.fields.length then vc else best)
        best).fields.length := by
  induction variants generalizing best with
  | nil => exact ⟨nofun, le_rfl⟩
  | cons vc variants ih =>
    rw [foldl_cons]
    obtain ⟨hrest, hbest⟩ := ih (if vc.fields.length > best.fields.length then vc else best)
    have hvc : vc.fields.length ≤
        (if vc.fields.length > best.fields.length then vc else best).fields.length := by
      split <;> omega
    have hold : best.fields.length ≤
        (if vc.fields.length > best.fields.length then vc else best).fields.length := by
      split <;> omega
    refine ⟨fun vc' hvc' => ?_, Nat.le_trans hold hbest⟩
    cases hvc' with
    | head => exact Nat.le_trans hvc hbest
    | tail _ hmem => exact hrest vc' hmem

/-- No variant has more fields than the longest one. -/
theorem length_le_longestVariant {vc : VariantCase} (h : vc ∈ vi.variants) :
    vc.fields.length ≤ (longestVariant vi.variants).fields.length :=
  (foldl_longest_le vi.variants ⟨[], []⟩).1 vc h

theorem members_eq :
    members ty fields vi = (fixedInfos ty fields vi).map FieldInfo.llvmType ++ maxTypes ty vi :=
  rfl

theorem extents_maxTypes :
    (maxTypes ty vi).map LLVMType.extent = caseExtents ty (longestVariant vi.variants) := by
  rw [maxTypes_eq, map_map]
  rfl

theorem extents_fixed :
    ((fixedInfos ty fields vi).map FieldInfo.llvmType).map LLVMType.extent =
      fixedExtents ty fields vi := by
  rw [map_map]
  rfl

theorem partStart_eq :
    partStart ty fields vi = startFrom (endFrom 0 (fixedExtents ty fields vi))
      (caseExtents ty (longestVariant vi.variants)) := by
  have hlen : ((fixedInfos ty fields vi).map FieldInfo.llvmType).length =
      unionStart ty fields vi := length_map ..
  rw [partStart, members_eq, ← hlen, take_left, drop_left, extents_fixed, extents_maxTypes]

/-- The size of a record that has a member. -/
theorem size_recordType (h : members ty fields vi ≠ []) :
    (recordType (members ty fields vi)).extent.size =
      alignUp (endFrom (endFrom 0 (fixedExtents ty fields vi))
          (caseExtents ty (longestVariant vi.variants)))
        (maxAlign (fixedExtents ty fields vi ++ caseExtents ty (longestVariant vi.variants))) := by
  have hempty : (members ty fields vi).isEmpty = false := isEmpty_eq_false_iff.2 h
  rw [recordType, hempty, if_neg Bool.false_ne_true, LLVMType.extent, LLVMType.extents_eq_map,
    members_eq, map_append, extents_fixed, extents_maxTypes, structExtent, endFrom_append]

theorem caseExtents_of_members_nil (h : members ty fields vi = []) {vc : VariantCase}
    (hvc : vc ∈ vi.variants) : caseExtents ty vc = [] := by
  rw [members_eq, append_eq_nil_iff, maxTypes_eq, map_eq_nil_iff, map_eq_nil_iff] at h
  have hle := length_le_longestVariant hvc
  rw [h.2, length_nil, Nat.le_zero, length_eq_zero_iff] at hle
  rw [caseExtents, hle, map_nil]

/-- Where a variant ends, with the start of the part given by the longest one. -/
theorem fits_iff {vc : VariantCase} (hvc : vc ∈ vi.variants) :
    endFrom (partStart ty fields vi) (caseExtents ty vc) ≤
        (recordType (members ty fields vi)).extent.size ↔
      endFrom (startFrom (endFrom 0 (fixedExtents ty fields vi))
          (caseExtents ty (longestVariant vi.variants))) (caseExtents ty vc) ≤
        alignUp (endFrom (endFrom 0 (fixedExtents ty fields vi))
            (caseExtents ty (longestVariant vi.variants)))
          (maxAlign (fixedExtents ty fields vi ++
            caseExtents ty (longestVariant vi.variants))) := by
  rw [partStart_eq]
  by_cases h : members ty fields vi = []
  · -- Nothing is stored, in a structure of one byte.
    have hmem := h
    rw [members_eq, append_eq_nil_iff, map_eq_nil_iff] at hmem
    have hfixed : fixedExtents ty fields vi = [] := by rw [fixedExtents, hmem.1, map_nil]
    have hlong : caseExtents ty (longestVariant vi.variants) = [] := by
      rw [← extents_maxTypes, hmem.2, map_nil]
    rw [caseExtents_of_members_nil h hvc, hfixed, hlong]
    exact iff_of_true (Nat.zero_le _) (Nat.zero_le _)
  · rw [size_recordType h]

/-! ## Names -/

theorem mem_indexed {kept : List RecordField} {start : Nat} {fi : FieldInfo}
    (h : fi ∈ indexed ty kept start) : fi.index < start + kept.length := by
  obtain ⟨p, hp, rfl⟩ := mem_map.1 h
  exact snd_lt_add_of_mem_zipIdx hp

theorem length_indexed (kept : List RecordField) (start : Nat) :
    (indexed ty kept start).length = kept.length := by
  rw [indexed, length_map, length_zipIdx]

/-- The fixed fields and the tag stand before the variant part. -/
theorem index_lt_unionStart {fi : FieldInfo} (h : fi ∈ fixedInfos ty fields vi) :
    fi.index < unionStart ty fields vi := by
  have hindexed {fi : FieldInfo} (h : fi ∈ indexed ty (keptFields fields (some vi)) 0) :
      fi.index < (indexed ty (keptFields fields (some vi)) 0).length := by
    rw [length_indexed]
    simpa using mem_indexed h
  unfold unionStart
  unfold fixedInfos at h ⊢
  cases htag : vi.tagName with
  | none =>
    rw [htag] at h
    exact hindexed h
  | some tagName =>
    simp only [htag] at h ⊢
    split at h
    · next hany =>
      rw [if_pos hany]
      exact hindexed h
    · next hany =>
      rw [if_neg hany, length_append]
      rcases mem_append.1 h with hmem | hmem
      · exact Nat.lt_add_right _ (hindexed hmem)
      · rw [mem_singleton.1 hmem]
        exact Nat.lt_succ_self _

/-- Infos to which others were added that stand in the variant part. -/
def Grows (start : Nat) (infos infos' : List FieldInfo) : Prop :=
  ∃ added, infos' = infos ++ added ∧ ∀ fi ∈ added, start ≤ fi.index

theorem Grows.refl (start : Nat) (infos : List FieldInfo) : Grows start infos infos :=
  ⟨[], (append_nil _).symm, nofun⟩

theorem Grows.trans {start : Nat} {infos infos' infos'' : List FieldInfo}
    (h : Grows start infos infos') (h' : Grows start infos' infos'') :
    Grows start infos infos'' := by
  obtain ⟨added, rfl, hadded⟩ := h
  obtain ⟨added', rfl, hadded'⟩ := h'
  refine ⟨added ++ added', append_assoc .., fun fi hfi => ?_⟩
  exact (mem_append.1 hfi).elim (hadded fi) (hadded' fi)

theorem Grows.names {start : Nat} {infos infos' : List FieldInfo} (h : Grows start infos infos')
    {name : String} (hname : name ∈ infos.map FieldInfo.name) :
    name ∈ infos'.map FieldInfo.name := by
  obtain ⟨added, rfl, -⟩ := h
  rw [map_append]
  exact mem_append_left _ hname

theorem any_name_iff {infos : List FieldInfo} {name : String} :
    (infos.any fun fi => fi.name == name) = true ↔ name ∈ infos.map FieldInfo.name := by
  simp [any_eq_true]

/-- One variant adds its fields in the variant part, and all of them are there afterwards. -/
theorem grows_addVariant (ty : TypeId → LLVMType) (start : Nat) (infos : List FieldInfo)
    (vc : VariantCase) :
    Grows start infos (addVariant ty start infos vc) ∧
      ∀ vf ∈ vc.fields, vf.name ∈ (addVariant ty start infos vc).map FieldInfo.name := by
  have hfold (ps : List (RecordField × Nat)) (infos : List FieldInfo) :
      Grows start infos (ps.foldl
          (fun infos p =>
            if infos.any fun fi => fi.name == p.1.name then infos
            else infos ++ [⟨p.1.name, p.1.typ, ty p.1.typ, start + p.2⟩]) infos) ∧
        ∀ p ∈ ps, p.1.name ∈ (ps.foldl
          (fun infos p =>
            if infos.any fun fi => fi.name == p.1.name then infos
            else infos ++ [⟨p.1.name, p.1.typ, ty p.1.typ, start + p.2⟩]) infos).map
          FieldInfo.name := by
    induction ps generalizing infos with
    | nil => exact ⟨Grows.refl _ _, nofun⟩
    | cons p ps ih =>
      rw [foldl_cons]
      -- After the step the name of the field is there, old or new.
      have hstep : Grows start infos (if infos.any fun fi => fi.name == p.1.name then infos
            else infos ++ [⟨p.1.name, p.1.typ, ty p.1.typ, start + p.2⟩]) ∧
          p.1.name ∈ (if infos.any fun fi => fi.name == p.1.name then infos
            else infos ++ [⟨p.1.name, p.1.typ, ty p.1.typ, start + p.2⟩]).map
              FieldInfo.name := by
        split
        · next hany => exact ⟨Grows.refl _ _, any_name_iff.1 hany⟩
        · refine ⟨⟨_, rfl, fun fi hfi => ?_⟩, by simp⟩
          rw [mem_singleton.1 hfi]
          exact Nat.le_add_right _ _
      obtain ⟨hgrows, hnames⟩ := ih _
      refine ⟨hstep.1.trans hgrows, fun q hq => ?_⟩
      cases hq with
      | head => exact hgrows.names hstep.2
      | tail _ hmem => exact hnames q hmem
  obtain ⟨hgrows, hnames⟩ := hfold vc.fields.zipIdx infos
  refine ⟨hgrows, fun vf hvf => ?_⟩
  obtain ⟨n, hn, rfl⟩ := getElem_of_mem hvf
  exact hnames (vc.fields.get ⟨n, hn⟩, n)
    (mem_iff_getElem.2 ⟨n, by simpa using hn, by simp⟩)

/-- All variants add their fields in the variant part, and all of them are there afterwards. -/
theorem grows_variants (ty : TypeId → LLVMType) (start : Nat) (variants : List VariantCase)
    (infos : List FieldInfo) :
    Grows start infos (variants.foldl (addVariant ty start) infos) ∧
      ∀ vc ∈ variants, ∀ vf ∈ vc.fields,
        vf.name ∈ (variants.foldl (addVariant ty start) infos).map FieldInfo.name := by
  induction variants generalizing infos with
  | nil => exact ⟨Grows.refl _ _, nofun⟩
  | cons vc variants ih =>
    rw [foldl_cons]
    obtain ⟨hfirst, hnames⟩ := grows_addVariant ty start infos vc
    obtain ⟨hrest, hnames'⟩ := ih (addVariant ty start infos vc)
    refine ⟨hfirst.trans hrest, fun vc' hvc' => ?_⟩
    cases hvc' with
    | head => exact fun vf hvf => hrest.names (hnames vf hvf)
    | tail _ hmem => exact hnames' vc' hmem

/-- A variant field is found in the variant part unless its name is that of a fixed field or the
tag. -/
theorem apart_iff {vc : VariantCase} (hvc : vc ∈ vi.variants) {vf : RecordField}
    (hvf : vf ∈ vc.fields) :
    (∃ info, lookupField (lowerRecordFields ty fields (some vi)).1 vf.name = some info ∧
        unionStart ty fields vi ≤ info.index) ↔
      vf.name ∉ (fixedInfos ty fields vi).map FieldInfo.name := by
  obtain ⟨⟨added, hadded, hindex⟩, hnames⟩ :=
    grows_variants ty (unionStart ty fields vi) vi.variants (fixedInfos ty fields vi)
  have hinfos : (lowerRecordFields ty fields (some vi)).1 = fixedInfos ty fields vi ++ added :=
    hadded
  have hmem := hnames vc hvc vf hvf
  rw [hadded, map_append, mem_append] at hmem
  rw [hinfos, lookupField, find?_append]
  constructor
  · rintro ⟨info, hfind, hle⟩ hfixed
    obtain ⟨fi, hfi, hname⟩ := mem_map.1 hfixed
    -- The fixed field is found first.
    cases hfirst : (fixedInfos ty fields vi).find? fun fi => fi.name == vf.name with
    | none => simpa [hname] using find?_eq_none.1 hfirst fi hfi
    | some fi' =>
      rw [hfirst, Option.some_or, Option.some.injEq] at hfind
      subst hfind
      exact absurd (index_lt_unionStart (mem_of_find?_eq_some hfirst)) (Nat.not_lt.2 hle)
  · intro hfixed
    have hnone : ((fixedInfos ty fields vi).find? fun fi => fi.name == vf.name) = none := by
      rw [find?_eq_none]
      intro fi hfi heq
      exact hfixed (mem_map.2 ⟨fi, hfi, by simpa using heq⟩)
    rw [hnone, Option.none_or]
    obtain ⟨fi, hfi, hname⟩ := mem_map.1 (hmem.resolve_left hfixed)
    cases hfind : added.find? fun fi => fi.name == vf.name with
    | none => simpa [hname] using find?_eq_none.1 hfind fi hfi
    | some info => exact ⟨info, rfl, hindex info (mem_of_find?_eq_some hfind)⟩

/-! ## Records with a variant part -/

/-- The storage of a record with a variant part holds every variant apart from the fixed fields just
when no variant needs more room than the first one with the most fields has and the names of variant
fields are new. -/
theorem stored_iff_storable (reg : TypeRegistry) (depth : Nat) {id : TypeId}
    {fields : List RecordField} {vi : VariantInfo}
    (h : reg.get id = .record fields (some vi)) :
    Stored (lowerType reg depth) fields vi (lowerType reg (depth + 1) id) ↔
      Storable (lowerType reg depth) fields vi := by
  have hstorage : lowerType reg (depth + 1) id =
      recordType (members (lowerType reg depth) fields vi) := by
    rw [lowerType, h]
    rfl
  rw [hstorage]
  constructor
  · rintro ⟨hfits, hapart⟩
    exact ⟨fun vc hvc => (fits_iff hvc).1 (hfits vc hvc),
      fun vc hvc vf hvf => (apart_iff hvc hvf).1 (hapart vc hvc vf hvf)⟩
  · rintro ⟨hlongest, hnames⟩
    exact ⟨fun vc hvc => (fits_iff hvc).2 (hlongest vc hvc),
      fun vc hvc vf hvf => (apart_iff hvc hvf).2 (hnames vc hvc vf hvf)⟩

/-- The fields of a record with a tag and a variant part. -/
def taggedFields : List RecordField := [⟨"tag", tyInteger⟩, ⟨"variant", 21⟩]

/-- `CASE tag: INTEGER OF 0: a, b: CHAR | 1: x: ... END`, where `x` has the given type. -/
def twoVariants (x : TypeId) : VariantInfo :=
  ⟨some "tag", tyInteger, [⟨[0], [⟨"a", tyChar⟩, ⟨"b", tyChar⟩]⟩, ⟨[1], [⟨"x", x⟩]⟩]⟩

/-- A registry with `ARRAY [0..99] OF CHAR` and the record of the two variants. -/
def variantRegistry (x : TypeId) : TypeRegistry :=
  ⟨[.array tyInteger tyChar 0 99, .record [] none, .record taggedFields (some (twoVariants x))]⟩

theorem stored_iff_storable_char :
    Stored (lowerType (variantRegistry tyChar) 3) taggedFields (twoVariants tyChar)
        (lowerType (variantRegistry tyChar) 4 22) ↔
      Storable (lowerType (variantRegistry tyChar) 3) taggedFields (twoVariants tyChar) :=
  stored_iff_storable (variantRegistry tyChar) 3 rfl

/-- A hundred characters do not fit beside the two of the variant with the most fields. -/
theorem not_stored_hundred :
    ¬ Stored (lowerType (variantRegistry 20) 3) taggedFields (twoVariants 20)
        (lowerType (variantRegistry 20) 4 22) := by
  rintro ⟨hfits, -⟩
  have hle := hfits ⟨[1], [⟨"x", 20⟩]⟩ (by simp [twoVariants])
  revert hle
  decide +kernel

end Mx.CodeGen

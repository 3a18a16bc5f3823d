import Mx.Types.Target

/-!
# Record layouts

`compute_record_layout` places the fields of a record, then the tag of its variant part, and reports
the total size and the alignment. The analyzer has put a named tag among the fields already, and
`type_align` looks at the fields alone.
-/

namespace Mx.Target

open List

/-! ## The layout -/

/-- A field of a layout. -/
structure FieldLayout where
  name : String
  offset : UInt32
  size : UInt32
  align : UInt32
  deriving DecidableEq, Repr

/-- A layout of a record. -/
structure RecordLayout where
  fields : List FieldLayout
  totalSize : UInt32
  alignment : UInt32
  deriving DecidableEq, Repr

/-- The running state of the loop: the fields placed so far, the offset behind them and the largest
alignment. -/
structure Placed where
  fields : List FieldLayout
  offset : UInt32
  maxAlign : UInt32

section Layout

variable (size align : TypeId → UInt32)

/-- One field more. -/
def layField (s : Placed) (f : RecordField) : Placed :=
  let offset := alignUp s.offset (align f.typ)
  { fields := s.fields ++ [⟨f.name, offset, size f.typ, align f.typ⟩]
    offset := offset + size f.typ
    maxAlign := max s.maxAlign (align f.typ) }

/-- The layout of a record with these fields. -/
def recordLayout (fields : List RecordField) (variants : Option VariantInfo) : RecordLayout :=
  let s := fields.foldl (layField size align) ⟨[], 0, 1⟩
  match variants with
  | none => ⟨s.fields, alignUp s.offset s.maxAlign, s.maxAlign⟩
  | some vi =>
    let tagAlign := align vi.tagType
    let tagSize := size vi.tagType
    let offset := alignUp s.offset tagAlign
    let listed := match vi.tagName with
      | some tagName => s.fields ++ [⟨tagName, offset, tagSize, tagAlign⟩]
      | none => s.fields
    let u := variantsExtent size align vi.variants
    let maxAlign := max (max s.maxAlign tagAlign) u.2
    ⟨listed, alignUp (alignUp (offset + tagSize) u.2 + u.1) maxAlign, maxAlign⟩

end Layout

/-- `compute_record_layout`, to a depth. -/
def computeRecordLayout (reg : TypeRegistry) : Nat → TypeId → Option RecordLayout
  | 0, _ => none
  | depth + 1, tid =>
    match reg.get tid with
    | .alias _ target => computeRecordLayout reg depth target
    | .record fields variants =>
      some (recordLayout (typeSize reg depth) (typeAlign reg depth) fields variants)
    | _ => none

/-! ## Termination -/

/-- The types that the size or the alignment of a type is computed from. -/
def parts : RegType → List TypeId
  | .alias _ target => [target]
  | .array _ elemType _ _ | .openArray elemType => [elemType]
  | .record fields variants =>
    fields.map RecordField.typ ++ match variants with
      | none => []
      | some vi => vi.tagType :: vi.variants.flatMap fun vc => vc.fields.map RecordField.typ
  | .object _ _ fields _ => fields.map RecordField.typ
  | _ => []

/-- The recursion through the parts of a type ends within a depth. -/
def EndsWithin (reg : TypeRegistry) : Nat → TypeId → Prop
  | 0, _ => False
  | depth + 1, tid => ∀ t ∈ parts (reg.get tid), EndsWithin reg depth t

section Termination

variable {reg : TypeRegistry} {d d' : Nat} {tid : TypeId}

theorem foldl_congr_mem {α β : Type} {f g : α → β → α} {l : List β}
    (h : ∀ a, ∀ b ∈ l, f a b = g a b) (a : α) : l.foldl f a = l.foldl g a := by
  induction l generalizing a with
  | nil => rfl
  | cons b l ih =>
    rw [foldl_cons, foldl_cons, h a b mem_cons_self]
    exact ih (fun a b hb => h a b (mem_cons_of_mem _ hb)) _

theorem typeAlign_congr
    (h : ∀ t ∈ parts (reg.get tid), typeAlign reg d t = typeAlign reg d' t) :
    typeAlign reg (d + 1) tid = typeAlign reg (d' + 1) tid := by
  cases hget : reg.get tid with
  | «alias» name target =>
    simp only [typeAlign, hget]
    exact h target (by simp [hget, parts])
  | array index elem low high | openArray elem =>
    have helem := h elem (by simp [hget, parts])
    simp only [typeAlign, hget]
    cases primitiveAlign tid with
    | some align => rfl
    | none => exact helem
  | record fields variants =>
    have hfields := foldl_congr_mem (f := fun a f => max a (typeAlign reg d f.typ))
      (g := fun a f => max a (typeAlign reg d' f.typ)) (l := fields) (fun a f hf => by
        rw [h f.typ (by rw [hget]; exact mem_append_left _ (mem_map_of_mem hf))])
    simp only [typeAlign, hget]
    cases primitiveAlign tid with
    | some align => rfl
    | none => exact hfields 1
  | object name parent fields methods =>
    have hfields := foldl_congr_mem (f := fun a f => max a (typeAlign reg d f.typ))
      (g := fun a f => max a (typeAlign reg d' f.typ)) (l := fields) (fun a f hf => by
        rw [h f.typ (by rw [hget]; exact mem_map_of_mem hf)])
    simp only [typeAlign, hget]
    cases primitiveAlign tid with
    | some align => rfl
    | none => exact hfields 8
  | _ =>
    simp only [typeAlign, hget]
    cases primitiveAlign tid <;> rfl

/-- The extent of the variants depends on their fields. -/
theorem variantsExtent_congr {size size' align align' : TypeId → UInt32}
    {variants : List VariantCase}
    (h : ∀ vc ∈ variants, ∀ f ∈ vc.fields,
      size f.typ = size' f.typ ∧ align f.typ = align' f.typ) :
    variantsExtent size align variants = variantsExtent size' align' variants := by
  apply foldl_congr_mem
  intro u vc hvc
  have hfields : vc.fields.foldl (addField size align) (0, 1) =
      vc.fields.foldl (addField size' align') (0, 1) := by
    apply foldl_congr_mem
    intro s f hf
    rw [addField, addField, (h vc hvc f hf).1, (h vc hvc f hf).2]
  rw [hfields]

theorem computeRecordSize_congr {size size' align align' : TypeId → UInt32}
    {fields : List RecordField} {variants : Option VariantInfo}
    (h : ∀ t ∈ parts (.record fields variants), size t = size' t ∧ align t = align' t) :
    computeRecordSize size align fields variants =
      computeRecordSize size' align' fields variants := by
  have hfields : fields.foldl (addField size align) (0, 1) =
      fields.foldl (addField size' align') (0, 1) := by
    apply foldl_congr_mem
    intro s f hf
    have hf := h f.typ (mem_append_left _ (mem_map_of_mem hf))
    rw [addField, addField, hf.1, hf.2]
  cases variants with
  | none =>
    simp only [computeRecordSize, hfields]
  | some vi =>
    have htag := h vi.tagType (mem_append_right _ mem_cons_self)
    have hvariants : variantsExtent size align vi.variants =
        variantsExtent size' align' vi.variants := by
      apply variantsExtent_congr
      intro vc hvc f hf
      apply h
      refine mem_append_right _ (mem_cons_of_mem _ (mem_flatMap.2 ⟨vc, hvc, ?_⟩))
      exact mem_map_of_mem hf
    simp only [computeRecordSize, hfields, addField, htag.1, htag.2, hvariants]

theorem typeSize_congr
    (h : ∀ t ∈ parts (reg.get tid),
      typeSize reg d t = typeSize reg d' t ∧ typeAlign reg d t = typeAlign reg d' t) :
    typeSize reg (d + 1) tid = typeSize reg (d' + 1) tid := by
  cases hget : reg.get tid with
  | «alias» name target =>
    simp only [typeSize, hget]
    exact (h target (by simp [hget, parts])).1
  | array index elem low high =>
    have helem := h elem (by simp [hget, parts])
    simp only [typeSize, hget]
    cases primitiveSize tid with
    | some size => rfl
    | none =>
      dsimp only
      rw [helem.1, helem.2]
  | record fields variants =>
    rw [hget] at h
    simp only [typeSize, hget]
    cases primitiveSize tid with
    | some size => rfl
    | none => exact computeRecordSize_congr h
  | object name parent fields methods =>
    have hfields : fields.foldl (addField (typeSize reg d) (typeAlign reg d)) (pointerBytes, 8) =
        fields.foldl (addField (typeSize reg d') (typeAlign reg d')) (pointerBytes, 8) := by
      apply foldl_congr_mem
      intro s f hf
      have hf := h f.typ (by rw [hget]; exact mem_map_of_mem hf)
      rw [addField, addField, hf.1, hf.2]
    simp only [typeSize, hget]
    cases primitiveSize tid with
    | some size => rfl
    | none =>
      dsimp only
      rw [hfields]
  | _ =>
    simp only [typeSize, hget]
    cases primitiveSize tid <;> rfl

/-- Beyond the depth at which the recursion ends, size and alignment do not depend on the depth. -/
theorem typeSize_stable (h : EndsWithin reg d tid) (hle : d ≤ d') :
    typeSize reg d' tid = typeSize reg d tid ∧ typeAlign reg d' tid = typeAlign reg d tid := by
  induction d generalizing d' tid with
  | zero => exact h.elim
  | succ d ih =>
    obtain ⟨e, rfl⟩ : ∃ e, d' = e + 1 := ⟨d' - 1, by omega⟩
    have hparts : ∀ t ∈ parts (reg.get tid),
        typeSize reg e t = typeSize reg d t ∧ typeAlign reg e t = typeAlign reg d t :=
      fun t ht => ih (h t ht) (by omega)
    exact ⟨typeSize_congr hparts, typeAlign_congr fun t ht => (hparts t ht).2⟩

end Termination

/-! ## Alignments -/

/-- A power of two. -/
def IsPow (a : UInt32) : Prop := ∃ k < 32, a.toNat = 2 ^ k

theorem IsPow.max {a b : UInt32} (ha : IsPow a) (hb : IsPow b) : IsPow (max a b) := by
  rw [IsPow, toNat_max]
  obtain h | h := Nat.le_total a.toNat b.toNat
  · rw [Nat.max_eq_right h]
    exact hb
  · rw [Nat.max_eq_left h]
    exact ha

theorem foldl_max_isPow {align : TypeId → UInt32} (h : ∀ t, IsPow (align t))
    (fields : List RecordField) {start : UInt32} (hstart : IsPow start) :
    IsPow (fields.foldl (fun a f => max a (align f.typ)) start) := by
  induction fields generalizing start with
  | nil => exact hstart
  | cons f fields ih => exact ih (hstart.max (h f.typ))

theorem isPow_one : IsPow 1 := ⟨0, by decide, rfl⟩

theorem isPow_four : IsPow 4 := ⟨2, by decide, rfl⟩

theorem isPow_eight : IsPow 8 := ⟨3, by decide, rfl⟩

theorem primitiveAlign_isPow {tid : TypeId} {a : UInt32} (h : primitiveAlign tid = some a) :
    IsPow a := by
  have hcases : a = 1 ∨ a = 4 ∨ a = 8 := by
    unfold primitiveAlign at h
    split_ifs at h <;> simp_all
  obtain rfl | rfl | rfl := hcases
  · exact isPow_one
  · exact isPow_four
  · exact isPow_eight

theorem typeAlign_isPow (reg : TypeRegistry) (depth : Nat) (tid : TypeId) :
    IsPow (typeAlign reg depth tid) := by
  induction depth generalizing tid with
  | zero => exact isPow_one
  | succ depth ih =>
    rw [typeAlign]
    split
    · exact ih _
    · next h _ => exact primitiveAlign_isPow h
    all_goals first
      | exact isPow_one
      | exact isPow_four
      | exact isPow_eight
      | exact ih _
      | exact foldl_max_isPow ih _ isPow_one
      | exact foldl_max_isPow ih _ isPow_eight

/-! ## Offsets modulo the word -/

/-- In `u32`, rounding up is rounding up modulo the word. -/
theorem alignUp_mod {offset align : UInt32} {n : Nat} (ha : IsPow align)
    (h : offset.toNat = n % 2 ^ 32) :
    (alignUp offset align).toNat = Core.alignUp n align.toNat % 2 ^ 32 := by
  obtain ⟨k, hk, ha⟩ := ha
  have hpos : 0 < align.toNat := by
    rw [ha]
    exact Nat.two_pow_pos k
  have hne : align ≠ 0 := by
    rintro rfl
    exact Nat.lt_irrefl _ hpos
  have hone : (1 : UInt32).toNat = 1 := rfl
  have hlt := align.toNat_lt
  have hmask : align - 1 = UInt32.ofNat (2 ^ k - 1) := by
    apply UInt32.toNat_inj.1
    rw [UInt32.toNat_sub, UInt32.toNat_ofNat', ← ha, hone]
    omega
  have hsum : (offset + align - 1).toNat = (n + align.toNat - 1) % 2 ^ 32 := by
    rw [UInt32.toNat_sub, UInt32.toNat_add, hone]
    omega
  have hword : 2 ^ 32 = 2 ^ k * 2 ^ (32 - k) := by
    rw [← Nat.pow_add]
    congr 1
    omega
  rw [alignUp, if_neg hne, hmask, and_not_mask _ hk, hsum, Core.alignUp, ha, hword,
    Nat.mod_mul_right_div_self, Nat.mul_comm _ (2 ^ k), Nat.mul_comm _ (2 ^ k),
    Nat.mul_mod_mul_left]

/-- An offset that was rounded up is a multiple, even after an overflow. -/
theorem dvd_alignUp_mod {align : UInt32} (ha : IsPow align) (offset : UInt32) :
    align.toNat ∣ (alignUp offset align).toNat := by
  obtain ⟨k, hk, hpow⟩ := id ha
  rw [alignUp_mod ha (Nat.mod_eq_of_lt offset.toNat_lt).symm]
  apply (Nat.dvd_mod_iff _).2 (Core.dvd_alignUp _ _)
  rw [hpow]
  exact Nat.pow_dvd_pow 2 (by omega)

theorem add_mod {a b : UInt32} {n : Nat} (h : a.toNat = n % 2 ^ 32) :
    (a + b).toNat = (n + b.toNat) % 2 ^ 32 := by
  rw [UInt32.toNat_add, h, Nat.mod_add_mod]

section Offsets

variable (size align : TypeId → UInt32)

/-- The extent of a field. -/
def extentOf (f : RecordField) : Core.Extent := ⟨(size f.typ).toNat, (align f.typ).toNat⟩

/-- The entries of fields that are placed from an offset on. -/
def entries : UInt32 → List RecordField → List FieldLayout
  | _, [] => []
  | start, f :: fields =>
    ⟨f.name, alignUp start (align f.typ), size f.typ, align f.typ⟩ ::
      entries (alignUp start (align f.typ) + size f.typ) fields

variable {size align}

theorem entries_append (start : UInt32) (a : UInt32) (fields rest : List RecordField) :
    entries size align start (fields ++ rest) = entries size align start fields ++
      entries size align (fields.foldl (addField size align) (start, a)).1 rest := by
  induction fields generalizing start a with
  | nil => rfl
  | cons f fields ih =>
    rw [cons_append, entries, entries, cons_append, foldl_cons]
    rw [ih _ (max a (align f.typ)), addField]

/-- The loop lists the entries of the fields. -/
theorem foldl_layField (fields : List RecordField) (s : Placed) :
    fields.foldl (layField size align) s =
      ⟨s.fields ++ entries size align s.offset fields,
        (fields.foldl (addField size align) (s.offset, s.maxAlign)).1,
        (fields.foldl (addField size align) (s.offset, s.maxAlign)).2⟩ := by
  induction fields generalizing s with
  | nil => simp [entries]
  | cons f fields ih =>
    rw [foldl_cons, ih, foldl_cons, entries, layField, addField, append_assoc]
    rfl

theorem entries_map (start : UInt32) (fields : List RecordField) :
    (entries size align start fields).map (fun e => (e.name, e.size, e.align)) =
      fields.map fun f => (f.name, size f.typ, align f.typ) := by
  induction fields generalizing start with
  | nil => rfl
  | cons f fields ih => rw [entries, map_cons, map_cons, ih]

/-- The fields end, modulo the word, where things of their extents do. -/
theorem foldl_addField_mod (halign : ∀ t, IsPow (align t)) (fields : List RecordField)
    {s : UInt32 × UInt32} {n : Nat} (h : s.1.toNat = n % 2 ^ 32) :
    (fields.foldl (addField size align) s).1.toNat =
        Core.endFrom n (fields.map (extentOf size align)) % 2 ^ 32 ∧
      (fields.foldl (addField size align) s).2.toNat =
        (fields.map (extentOf size align)).foldl (fun a e => max a e.align) s.2.toNat := by
  induction fields generalizing s n with
  | nil => exact ⟨h, rfl⟩
  | cons f fields ih =>
    have hstep : (alignUp s.1 (align f.typ) + size f.typ).toNat =
        Core.place n (extentOf size align f) % 2 ^ 32 :=
      add_mod (alignUp_mod (halign f.typ) h)
    have hrest := ih (s := addField size align s f) hstep
    rw [foldl_cons, map_cons, Core.endFrom_cons, foldl_cons]
    rw [addField, toNat_max] at hrest
    exact hrest

theorem dvd_of_entries (halign : ∀ t, IsPow (align t)) {start : UInt32}
    {fields : List RecordField} {e : FieldLayout} (he : e ∈ entries size align start fields) :
    e.align.toNat ∣ e.offset.toNat := by
  induction fields generalizing start with
  | nil => exact absurd he not_mem_nil
  | cons f fields ih =>
    rw [entries] at he
    obtain rfl | he := mem_cons.1 he
    · exact dvd_alignUp_mod (halign f.typ) start
    · exact ih he

theorem extentOf_pos (halign : ∀ t, IsPow (align t)) {fields : List RecordField}
    {e : Core.Extent} (he : e ∈ fields.map (extentOf size align)) : 0 < e.align := by
  obtain ⟨f, -, rfl⟩ := mem_map.1 he
  obtain ⟨k, -, hk⟩ := halign f.typ
  rw [extentOf, hk]
  exact Nat.two_pow_pos k

/-- Rounding up loses nothing, or it passes the end of the word. -/
theorem alignUp_exact {offset align : UInt32} (ha : IsPow align)
    (h : offset ≤ alignUp offset align) :
    (alignUp offset align).toNat = Core.alignUp offset.toNat align.toNat := by
  obtain ⟨k, hk, hpow⟩ := id ha
  have hmod := alignUp_mod ha (Nat.mod_eq_of_lt offset.toNat_lt).symm
  have hle := UInt32.le_iff_toNat_le.1 h
  have hpos : 0 < align.toNat := by
    rw [hpow]
    exact Nat.two_pow_pos k
  rw [hmod] at hle ⊢
  apply Nat.mod_eq_of_lt
  by_contra hge
  have hword : align.toNat ∣ 2 ^ 32 := by
    rw [hpow]
    exact Nat.pow_dvd_pow 2 (by omega)
  have hup : Core.alignUp offset.toNat align.toNat ≤ 2 ^ 32 := by
    have hend : Core.alignUp (2 ^ 32) align.toNat = 2 ^ 32 := Core.alignUp_of_dvd hpos hword
    rw [← hend]
    apply Nat.mul_le_mul_right
    apply Nat.div_le_div_right
    have hlt := offset.toNat_lt
    omega
  have heq : Core.alignUp offset.toNat align.toNat = 2 ^ 32 := by omega
  have hzero : offset.toNat = 0 := by
    rw [heq, Nat.mod_self] at hle
    omega
  rw [hzero, Core.alignUp_of_dvd hpos (Nat.dvd_zero _)] at heq
  omega

/-- One field ends no later than the next one starts. -/
def Before (a b : FieldLayout) : Prop := a.offset.toNat + a.size.toNat ≤ b.offset.toNat

/-- Fields stand one behind another below an end if and only if they do so without overflow. -/
theorem entries_apart (halign : ∀ t, IsPow (align t)) {stop : Nat} (hstop : stop < 2 ^ 32)
    (start : UInt32) (fields : List RecordField) :
    ((entries size align start fields).Pairwise Before ∧
        ∀ e ∈ entries size align start fields,
          start.toNat ≤ e.offset.toNat ∧ e.offset.toNat + e.size.toNat ≤ stop) ↔
      fields = [] ∨
        Core.endFrom start.toNat (fields.map (extentOf size align)) ≤ stop := by
  induction fields generalizing start with
  | nil => simp [entries]
  | cons f fields ih =>
    have hrest := ih (alignUp start (align f.typ) + size f.typ)
    have hpos := fun e => @extentOf_pos size align halign (f :: fields) e
    have hposRest : ∀ e ∈ fields.map (extentOf size align), 0 < e.align :=
      fun e he => hpos e (by rw [map_cons]; exact mem_cons_of_mem _ he)
    have hplace := Core.le_endFrom (Core.place start.toNat (extentOf size align f)) hposRest
    have hup := Core.le_alignUp start.toNat (hpos (extentOf size align f)
      (by rw [map_cons]; exact mem_cons_self))
    have hdef : Core.place start.toNat (extentOf size align f) =
        Core.alignUp start.toNat (align f.typ).toNat + (size f.typ).toNat := rfl
    have hmod := alignUp_mod (halign f.typ) (Nat.mod_eq_of_lt start.toNat_lt).symm
    rw [entries, pairwise_cons, map_cons, Core.endFrom_cons]
    constructor
    · rintro ⟨⟨hfirst, hpair⟩, hinside⟩
      obtain ⟨hstart, hend⟩ := hinside _ mem_cons_self
      have hexact := alignUp_exact (halign f.typ) (UInt32.le_iff_toNat_le.2 hstart)
      dsimp only at hend
      have hnext : (alignUp start (align f.typ) + size f.typ).toNat =
          Core.place start.toNat (extentOf size align f) := by
        rw [UInt32.toNat_add, Nat.mod_eq_of_lt (Nat.lt_of_le_of_lt hend hstop), hexact, hdef]
      right
      obtain rfl | hle := hrest.1 ⟨hpair, fun e he => ⟨by
        rw [hnext, hdef, ← hexact]
        exact hfirst e he, (hinside e (mem_cons_of_mem _ he)).2⟩⟩
      · rw [map_nil, Core.endFrom_nil, ← hnext, UInt32.toNat_add,
          Nat.mod_eq_of_lt (Nat.lt_of_le_of_lt hend hstop)]
        exact hend
      · rw [← hnext]
        exact hle
    · rintro (hnil | hle)
      · exact absurd hnil (by simp)
      have hexact : (alignUp start (align f.typ)).toNat =
          Core.alignUp start.toNat (align f.typ).toNat := by
        rw [hmod]
        apply Nat.mod_eq_of_lt
        omega
      have hnext : (alignUp start (align f.typ) + size f.typ).toNat =
          Core.place start.toNat (extentOf size align f) := by
        rw [UInt32.toNat_add, hexact, ← hdef]
        apply Nat.mod_eq_of_lt
        omega
      obtain ⟨hpair, hinside⟩ := hrest.2 (.inr (by rw [hnext]; exact hle))
      refine ⟨⟨fun e he => ?_, hpair⟩, fun e he => ?_⟩
      · have hbefore := (hinside e he).1
        rw [hnext, hdef, ← hexact] at hbefore
        exact hbefore
      · obtain rfl | he := mem_cons.1 he
        · dsimp only
          rw [extentOf] at hup
          dsimp only at hup
          omega
        · have hin := hinside e he
          rw [extentOf] at hup
          dsimp only at hup
          omega

/-! ## The layout of a record -/

variable (size align)

/-- The union of the variants: its size is computed in `u32`. -/
def unionExtent (variants : List VariantCase) : Core.Extent :=
  variants.foldl
    (fun u vc =>
      let e := Core.structExtent (vc.fields.map (extentOf size align))
      ⟨max u.size (e.size % 2 ^ 32), max u.align e.align⟩)
    ⟨0, 1⟩

/-- What a variant part adds to a record: the tag and the union of the variants. -/
def variantMembers : Option VariantInfo → List Core.Extent
  | none => []
  | some vi => [⟨(size vi.tagType).toNat, (align vi.tagType).toNat⟩,
      unionExtent size align vi.variants]

/-- A named tag as a field. -/
def tagFields : Option VariantInfo → List RecordField
  | some ⟨some tagName, tagType, _⟩ => [⟨tagName, tagType⟩]
  | _ => []

variable {size align} (fields : List RecordField) (variants : Option VariantInfo)

theorem recordLayout_fields :
    (recordLayout size align fields variants).fields =
      entries size align 0 (fields ++ tagFields variants) := by
  have hloop := @foldl_layField size align fields ⟨[], 0, 1⟩
  rcases variants with _ | ⟨_ | tagName, tagType, cases⟩
  · simp only [recordLayout, hloop, tagFields, append_nil, nil_append]
  · simp only [recordLayout, hloop, tagFields, append_nil, nil_append]
  · rw [tagFields, entries_append 0 1]
    simp only [recordLayout, hloop, entries, nil_append]

/-- The layout and `type_size` agree on the size. -/
theorem recordLayout_totalSize :
    (recordLayout size align fields variants).totalSize =
      computeRecordSize size align fields variants := by
  have hloop := @foldl_layField size align fields ⟨[], 0, 1⟩
  cases variants with
  | none => simp only [recordLayout, hloop, computeRecordSize]
  | some vi => simp only [recordLayout, hloop, computeRecordSize, addField]

theorem recordLayout_alignment :
    (recordLayout size align fields variants).alignment =
      match variants with
      | none => (fields.foldl (addField size align) (0, 1)).2
      | some vi => max (max (fields.foldl (addField size align) (0, 1)).2 (align vi.tagType))
          (variantsExtent size align vi.variants).2 := by
  have hloop := @foldl_layField size align fields ⟨[], 0, 1⟩
  cases variants with
  | none | some vi => simp only [recordLayout, hloop]

theorem foldl_addField_align (s : UInt32 × UInt32) :
    (fields.foldl (addField size align) s).2 =
      fields.foldl (fun a f => max a (align f.typ)) s.2 := by
  induction fields generalizing s with
  | nil => rfl
  | cons f fields ih => exact ih (addField size align s f)

variable {fields variants} (halign : ∀ t, IsPow (align t))

include halign

/-- A size and an alignment in `u32`. -/
def Represents (u : UInt32 × UInt32) (e : Core.Extent) : Prop :=
  u.1.toNat = e.size ∧ u.2.toNat = e.align ∧ IsPow u.2

theorem foldl_addField_isPow (s : UInt32) :
    IsPow (fields.foldl (addField size align) (s, 1)).2 := by
  rw [foldl_addField_align]
  exact foldl_max_isPow halign fields isPow_one

theorem variantsExtent_mod (variants : List VariantCase) :
    Represents (variantsExtent size align variants) (unionExtent size align variants) := by
  refine foldl_rel (r := Represents) ⟨rfl, rfl, isPow_one⟩ ?_
  rintro vc - u e ⟨hsize, hmaxAlign, hpow⟩
  obtain ⟨hend, hmax⟩ := foldl_addField_mod halign vc.fields (s := (0, 1)) (n := 0) rfl
  have hcasePow := @foldl_addField_isPow size align vc.fields halign 0
  have hcase : (alignUp (vc.fields.foldl (addField size align) (0, 1)).1
      (vc.fields.foldl (addField size align) (0, 1)).2).toNat =
      (Core.structExtent (vc.fields.map (extentOf size align))).size % 2 ^ 32 := by
    rw [alignUp_mod hcasePow hend, hmax]
    rfl
  refine ⟨?_, ?_, hpow.max hcasePow⟩
  · rw [toNat_max, hsize, hcase]
  · rw [toNat_max, hmaxAlign, hmax]
    rfl

/-- The size of a record is that of its members, modulo the word. -/
theorem computeRecordSize_mod :
    (computeRecordSize size align fields variants).toNat =
      (Core.structExtent
        (fields.map (extentOf size align) ++
          variantMembers size align variants)).size % 2 ^ 32 := by
  obtain ⟨hend, hmax⟩ :=
    @foldl_addField_mod size align halign fields (0, 1) 0 rfl
  have hpow := @foldl_addField_isPow size align fields halign 0
  cases variants with
  | none =>
    rw [variantMembers, append_nil]
    simp only [computeRecordSize]
    rw [alignUp_mod hpow hend, hmax]
    rfl
  | some vi =>
    obtain ⟨husize, hualign, hupow⟩ := @variantsExtent_mod size align halign vi.variants
    have htag := add_mod (b := size vi.tagType) (alignUp_mod (halign vi.tagType) hend)
    have hunion := add_mod (b := (variantsExtent size align vi.variants).1)
      (alignUp_mod hupow htag)
    simp only [computeRecordSize, addField]
    rw [alignUp_mod ((hpow.max (halign vi.tagType)).max hupow) hunion, toNat_max, toNat_max, hmax,
      husize, hualign, Core.structExtent, variantMembers, Core.endFrom_append, Core.maxAlign,
      foldl_append]
    rfl

theorem recordLayout_alignment_toNat :
    (recordLayout size align fields variants).alignment.toNat =
      Core.maxAlign
        (fields.map (extentOf size align) ++ variantMembers size align variants) := by
  obtain ⟨-, hmax⟩ := @foldl_addField_mod size align halign fields (0, 1) 0 rfl
  rw [recordLayout_alignment]
  cases variants with
  | none =>
    rw [variantMembers, append_nil]
    exact hmax
  | some vi =>
    dsimp only
    rw [toNat_max, toNat_max, hmax, (@variantsExtent_mod size align halign vi.variants).2.1,
      variantMembers, Core.maxAlign, foldl_append]
    rfl

theorem recordLayout_dvd :
    (recordLayout size align fields variants).alignment.toNat ∣
      (recordLayout size align fields variants).totalSize.toNat := by
  have hpow := @foldl_addField_isPow size align fields halign 0
  cases variants with
  | none =>
    rw [recordLayout_totalSize, recordLayout_alignment]
    exact dvd_alignUp_mod hpow _
  | some vi =>
    rw [recordLayout_totalSize, recordLayout_alignment]
    exact dvd_alignUp_mod ((hpow.max (halign vi.tagType)).max
      (@variantsExtent_mod size align halign vi.variants).2.2) _

omit halign

end Offsets

/-! ## Well-formed layouts -/

/-- The fields of a record and its named tag. -/
def declaredFields (fields : List RecordField) (variants : Option VariantInfo) :
    List RecordField :=
  fields ++ (tagFields variants).filter fun tag => tag.name ∉ fields.map RecordField.name

/-- A layout lists the fields in order and apart, and agrees with the size and the alignment of the
type. -/
structure WellFormed (reg : TypeRegistry) (depth : Nat) (tid : TypeId) (declared : List RecordField)
    (layout : RecordLayout) : Prop where
  listed : layout.fields.map (fun e => (e.name, e.size, e.align)) =
    declared.map fun f => (f.name, typeSize reg depth f.typ, typeAlign reg depth f.typ)
  aligned : ∀ e ∈ layout.fields, e.align.toNat ∣ e.offset.toNat
  apart : layout.fields.Pairwise Before
  inside : ∀ e ∈ layout.fields, e.offset.toNat + e.size.toNat ≤ layout.totalSize.toNat
  padded : layout.alignment.toNat ∣ layout.totalSize.toNat
  size_eq : layout.totalSize = typeSize reg depth tid
  align_eq : layout.alignment = typeAlign reg depth tid

/-- A record that is laid out well: no field is called like the tag, the variant part is aligned no
wider than the fields, and the fields end inside the size modulo the word. -/
structure Regular (size align : TypeId → UInt32) (fields : List RecordField)
    (variants : Option VariantInfo) : Prop where
  tag_not_field : ∀ tag ∈ tagFields variants, tag.name ∉ fields.map RecordField.name
  narrow : ∀ e ∈ variantMembers size align variants,
    e.align ≤ Core.maxAlign (fields.map (extentOf size align))
  fits : Core.endFrom 0 ((fields ++ tagFields variants).map (extentOf size align)) ≤
    (Core.structExtent
      (fields.map (extentOf size align) ++ variantMembers size align variants)).size % 2 ^ 32

section WellFormed

variable {reg : TypeRegistry} {size align : TypeId → UInt32} {fields : List RecordField}
  {variants : Option VariantInfo}

theorem declaredFields_eq_iff :
    fields ++ tagFields variants = declaredFields fields variants ↔
      ∀ tag ∈ tagFields variants, tag.name ∉ fields.map RecordField.name := by
  rw [declaredFields, append_cancel_left_eq, eq_comm, filter_eq_self]
  simp only [decide_eq_true_eq]

theorem declaredFields_length_iff :
    (fields ++ tagFields variants).length = (declaredFields fields variants).length ↔
      fields ++ tagFields variants = declaredFields fields variants := by
  refine ⟨fun h => ?_, fun h => by rw [← h]⟩
  rw [declaredFields, length_append, length_append] at h
  rw [declaredFields, filter_eq_self.2]
  exact length_filter_eq_length_iff.1 (by omega)

/-- The layout lists the fields and the tag once each. -/
theorem recordLayout_listed :
    (recordLayout size align fields variants).fields.map (fun e => (e.name, e.size, e.align)) =
        (declaredFields fields variants).map (fun f => (f.name, size f.typ, align f.typ)) ↔
      ∀ tag ∈ tagFields variants, tag.name ∉ fields.map RecordField.name := by
  rw [recordLayout_fields, entries_map, ← declaredFields_eq_iff]
  constructor
  · intro h
    have hlength := congrArg List.length h
    rw [length_map, length_map] at hlength
    exact declaredFields_length_iff.1 hlength
  · intro h
    rw [← h]

/-- The alignments agree if and only if the variant part is aligned no wider than the fields. -/
theorem maxAlign_append_eq_iff (es vs : List Core.Extent) :
    Core.maxAlign (es ++ vs) = Core.maxAlign es ↔ ∀ e ∈ vs, e.align ≤ Core.maxAlign es := by
  have hsplit : Core.maxAlign (es ++ vs) =
      vs.foldl (fun a e => max a e.align) (Core.maxAlign es) := foldl_append ..
  rw [hsplit]
  constructor
  · intro h e he
    rw [← h]
    exact (Core.le_foldl_max_align _ vs).2 e he
  · intro h
    obtain heq | ⟨e, he, heq⟩ := Core.foldl_max_align (Core.maxAlign es) vs
    · exact heq
    · exact Nat.le_antisymm (heq ▸ h e he) (Core.le_foldl_max_align _ vs).1

theorem alignment_eq_iff (halign : ∀ t, IsPow (align t)) :
    (recordLayout size align fields variants).alignment =
        fields.foldl (fun a f => max a (align f.typ)) 1 ↔
      ∀ e ∈ variantMembers size align variants,
        e.align ≤ Core.maxAlign (fields.map (extentOf size align)) := by
  rw [← maxAlign_append_eq_iff, ← recordLayout_alignment_toNat halign, ← UInt32.toNat_inj,
    ← @foldl_addField_align size align fields (0, 1),
    (foldl_addField_mod halign fields (s := (0, 1)) (n := 0) rfl).2]
  rfl

theorem recordLayout_total_mod (halign : ∀ t, IsPow (align t)) :
    (recordLayout size align fields variants).totalSize.toNat =
      (Core.structExtent
        (fields.map (extentOf size align) ++
          variantMembers size align variants)).size % 2 ^ 32 := by
  rw [recordLayout_totalSize]
  exact computeRecordSize_mod halign

/-- No built-in type is a record. -/
theorem not_primitive {t : TypeId} (hget : reg.get t = .record fields variants) :
    primitiveSize t = none ∧ primitiveAlign t = none := by
  have hle : builtinTypes.length ≤ t := by
    by_contra hlt
    rw [TypeRegistry.get_builtin reg (Nat.lt_of_not_le hlt)] at hget
    have hnone : ∀ b ∈ builtinTypes, b ≠ .record fields variants := by simp [builtinTypes]
    apply hnone _ _ hget
    rw [getD_eq_getElem?_getD, getElem?_eq_getElem (Nat.lt_of_not_le hlt)]
    exact getElem_mem _
  have hne : ∀ k < 20, t ≠ k := fun k hk => (Nat.lt_of_lt_of_le hk hle).ne'
  constructor
  · simp [primitiveSize, tyInteger, tyCardinal, tyReal, tyBoolean, tyBitset, tyWord, tyChar,
      tyByte, tyLongReal, tyLongInt, tyLongCard, tyAddress, tyRefAny, tyProc, tyComplex,
      tyLongComplex, tyVoid, tyNil, hne]
  · simp [primitiveAlign, tyInteger, tyCardinal, tyReal, tyBoolean, tyBitset, tyWord, tyChar,
      tyByte, tyLongReal, tyLongInt, tyLongCard, tyAddress, tyRefAny, tyProc, tyComplex,
      tyLongComplex, tyVoid, tyNil, hne]

/-- What the code computes for a record behind some aliases. -/
theorem compute_of_chain {n : Nat} {tid t : TypeId}
    (hchain : TypeRegistry.AliasChain reg n tid t) (hget : reg.get t = .record fields variants)
    (depth : Nat) :
    computeRecordLayout reg (n + depth + 1) tid =
        some (recordLayout (typeSize reg depth) (typeAlign reg depth) fields variants) ∧
      typeSize reg (n + depth + 1) tid =
        computeRecordSize (typeSize reg depth) (typeAlign reg depth) fields variants ∧
      typeAlign reg (n + depth + 1) tid =
        fields.foldl (fun a f => max a (typeAlign reg depth f.typ)) 1 := by
  induction hchain with
  | refl t =>
    obtain ⟨hsize, halign⟩ := not_primitive hget
    rw [Nat.zero_add, computeRecordLayout, typeSize, typeAlign, hget, hsize, halign]
    exact ⟨rfl, rfl, rfl⟩
  | @step n s t u name h _ ih =>
    have hdepth : n + 1 + depth + 1 = n + depth + 1 + 1 := by omega
    rw [hdepth, computeRecordLayout, typeSize, typeAlign, h]
    exact ih hget

/-- The recursion ends if it does for the parts of the record. -/
theorem endsWithin_of_chain {n : Nat} {tid t : TypeId}
    (hchain : TypeRegistry.AliasChain reg n tid t) (hget : reg.get t = .record fields variants)
    (depth : Nat) :
    EndsWithin reg (n + depth + 1) tid ↔
      ∀ p ∈ parts (.record fields variants), EndsWithin reg depth p := by
  induction hchain with
  | refl t => rw [Nat.zero_add, EndsWithin, hget]
  | @step n s t u name h _ ih =>
    have hdepth : n + 1 + depth + 1 = n + depth + 1 + 1 := by omega
    rw [hdepth, EndsWithin, h, ← ih hget]
    simp [parts]

theorem lt_of_endsWithin {n depth : Nat} {tid t : TypeId}
    (hchain : TypeRegistry.AliasChain reg n tid t) (h : EndsWithin reg depth tid) :
    n < depth := by
  induction hchain generalizing depth with
  | refl t =>
    cases depth with
    | zero => exact h.elim
    | succ depth => exact Nat.succ_pos depth
  | step hget _ ih =>
    cases depth with
    | zero => exact h.elim
    | succ depth =>
      rw [EndsWithin, hget] at h
      exact Nat.succ_lt_succ (ih (h _ mem_cons_self))

/-- The layout is well formed if and only if the record is regular. -/
theorem wellFormed_iff {n depth : Nat} {tid t : TypeId}
    (hchain : TypeRegistry.AliasChain reg n tid t) (hget : reg.get t = .record fields variants)
    (hends : ∀ p ∈ parts (.record fields variants), EndsWithin reg depth p) :
    WellFormed reg (n + depth + 1) tid (declaredFields fields variants)
        (recordLayout (typeSize reg depth) (typeAlign reg depth) fields variants) ↔
      Regular (typeSize reg depth) (typeAlign reg depth) fields variants := by
  have halign := typeAlign_isPow reg depth
  obtain ⟨-, hsize, hmax⟩ := compute_of_chain hchain hget depth
  have hstable : ∀ f ∈ declaredFields fields variants,
      typeSize reg (n + depth + 1) f.typ = typeSize reg depth f.typ ∧
        typeAlign reg (n + depth + 1) f.typ = typeAlign reg depth f.typ := by
    intro f hf
    apply typeSize_stable _ (by omega)
    apply hends
    rw [declaredFields, mem_append, mem_filter] at hf
    obtain hf | ⟨hf, -⟩ := hf
    · exact mem_append_left _ (mem_map_of_mem hf)
    · rcases variants with _ | ⟨_ | tagName, tagType, cases⟩
      · exact absurd hf not_mem_nil
      · exact absurd hf not_mem_nil
      · rw [tagFields, mem_singleton] at hf
        rw [hf]
        exact mem_append_right _ mem_cons_self
  have hdeclared : ((declaredFields fields variants).map fun f =>
        (f.name, typeSize reg (n + depth + 1) f.typ, typeAlign reg (n + depth + 1) f.typ)) =
      (declaredFields fields variants).map fun f =>
        (f.name, typeSize reg depth f.typ, typeAlign reg depth f.typ) := by
    apply map_congr_left
    intro f hf
    rw [(hstable f hf).1, (hstable f hf).2]
  have hfit := @entries_apart (typeSize reg depth) _ halign _
    (recordLayout (typeSize reg depth) (typeAlign reg depth) fields variants).totalSize.toNat_lt
    0 (fields ++ tagFields variants)
  rw [← recordLayout_fields] at hfit
  have htotal := @recordLayout_total_mod (typeSize reg depth) _ fields variants halign
  have hnarrow := @alignment_eq_iff (typeSize reg depth) _ fields variants halign
  constructor
  · intro h
    refine ⟨recordLayout_listed.1 (h.listed.trans hdeclared),
      hnarrow.1 (h.align_eq.trans hmax), ?_⟩
    rw [← htotal]
    obtain hnil | hle := hfit.1 ⟨h.apart, fun e he => ⟨Nat.zero_le _, h.inside e he⟩⟩
    · rw [hnil]
      exact Nat.zero_le _
    · exact hle
  · intro h
    obtain ⟨hapart, hinside⟩ := hfit.2 (.inr (by
      rw [htotal]
      exact h.fits))
    refine ⟨(recordLayout_listed.2 h.tag_not_field).trans hdeclared.symm, fun e he => ?_, hapart,
      fun e he => (hinside e he).2, recordLayout_dvd halign, ?_,
      (hnarrow.2 h.narrow).trans hmax.symm⟩
    · rw [recordLayout_fields] at he
      exact dvd_of_entries halign he
    · rw [recordLayout_totalSize, hsize]

/-- `compute_record_layout` ends with a well-formed layout if and only if the recursion through the
parts of the record ends and the record is regular. -/
theorem record_layout_iff {n : Nat} {tid t : TypeId}
    (hchain : TypeRegistry.AliasChain reg n tid t) (hget : reg.get t = .record fields variants) :
    (∃ depth layout, EndsWithin reg depth tid ∧
        computeRecordLayout reg depth tid = some layout ∧
        WellFormed reg depth tid (declaredFields fields variants) layout) ↔
      ∃ depth, (∀ p ∈ parts (.record fields variants), EndsWithin reg depth p) ∧
        Regular (typeSize reg depth) (typeAlign reg depth) fields variants := by
  constructor
  · rintro ⟨depth, layout, hends, hlayout, hwell⟩
    have hlt := lt_of_endsWithin hchain hends
    obtain ⟨e, rfl⟩ : ∃ e, depth = n + e + 1 := ⟨depth - n - 1, by omega⟩
    have hparts := (endsWithin_of_chain hchain hget e).1 hends
    rw [(compute_of_chain hchain hget e).1] at hlayout
    obtain rfl := Option.some.inj hlayout
    exact ⟨e, hparts, (wellFormed_iff hchain hget hparts).1 hwell⟩
  · rintro ⟨e, hparts, hregular⟩
    exact ⟨n + e + 1, _, (endsWithin_of_chain hchain hget e).2 hparts,
      (compute_of_chain hchain hget e).1, (wellFormed_iff hchain hget hparts).2 hregular⟩

/-- A record of a character and an integer, declared under a name. -/
def pairTypes : TypeRegistry :=
  ⟨[.alias "Pair" 21, .record [⟨"c", tyChar⟩, ⟨"n", tyInteger⟩] none]⟩

theorem record_layout_pair :
    ∃ depth layout, EndsWithin pairTypes depth 20 ∧
      computeRecordLayout pairTypes depth 20 = some layout ∧
      WellFormed pairTypes depth 20
        (declaredFields [⟨"c", tyChar⟩, ⟨"n", tyInteger⟩] none) layout := by
  have hpair : pairTypes.AliasChain 1 20 21 := by
    have hget : pairTypes.get 20 = .alias "Pair" 21 := rfl
    exact .step hget (.refl 21)
  refine (record_layout_iff hpair rfl).2 ⟨1, ?_, ?_⟩
  · intro p hp
    have hcases : p = tyChar ∨ p = tyInteger := by
      simpa [parts] using hp
    obtain rfl | rfl := hcases <;> exact fun t ht => absurd ht not_mem_nil
  · constructor
    · exact fun tag htag => absurd htag not_mem_nil
    · exact fun e he => absurd he not_mem_nil
    · decide

/-- A record of an integer and a variant part with a named tag, which the analyzer has put among the
fields. -/
def taggedTypes : TypeRegistry :=
  ⟨[.record [⟨"n", tyInteger⟩, ⟨"kind", tyInteger⟩]
    (some ⟨some "kind", tyInteger, [⟨[0], [⟨"r", tyReal⟩]⟩]⟩)]⟩

/-- The layout lists the tag twice. -/
theorem not_record_layout :
    ¬ ∀ (reg : TypeRegistry) (tid : TypeId) (fields : List RecordField)
        (variants : Option VariantInfo), reg.get tid = .record fields variants →
      ∃ depth layout, EndsWithin reg depth tid ∧
        computeRecordLayout reg depth tid = some layout ∧
        WellFormed reg depth tid (declaredFields fields variants) layout := by
  intro h
  obtain ⟨depth, layout, -, hlayout, hwell⟩ := h taggedTypes 20 _ _ rfl
  cases depth with
  | zero => cases hlayout
  | succ depth =>
    have hchain : taggedTypes.AliasChain 0 20 20 := .refl 20
    have hcompute := (compute_of_chain hchain rfl depth).1
    rw [Nat.zero_add] at hcompute
    obtain rfl := Option.some.inj (hcompute.symm.trans hlayout)
    have hlength := congrArg List.length hwell.listed
    rw [recordLayout_fields, length_map, length_map] at hlength
    simp [entries, tagFields, declaredFields] at hlength

end WellFormed

end Mx.Target

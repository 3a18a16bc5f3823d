import Mx.Core.Layout
import Mx.Codegen.IndexEval
import Mx.Codegen.StorageSizes

/-!
# Array subscripts in the C backend

Arrays are declared with a dimension `[high + 1]` for every index type, and subscripts are emitted
as they are. An element is inside the storage if its index vector is, and the vectors with lower
bounds from zero on are, but for character codes that a signed `char` cannot hold.
-/

namespace Mx

open CGrammar Mx.Core List

/-! ## Array types -/

namespace TypeRegistry

/-- `get_ordinal_range`. -/
def getOrdinalRange (reg : TypeRegistry) (tid : TypeId) : Int × Int :=
  match reg.get (reg.resolveHirAlias tid) with
  | .subrange _ low high => (low, high)
  | .enumeration _ variants => (0, variants.length - 1)
  | .boolean => (0, 1)
  | .char => (0, 255)
  | .integer => (-2 ^ 31, 2 ^ 31 - 1)
  | .cardinal => (0, 2 ^ 32 - 1)
  | _ => (0, 0)

/-- A dimension of an array type: the index type and the upper bound that was recorded when the
type was declared. -/
structure Dimension where
  indexType : TypeId
  high : Int

/-- An array type of these dimensions. -/
inductive IsArray (reg : TypeRegistry) : TypeId → List Dimension → Prop where
  | elem {tid : TypeId} (h : ∀ index elem low high,
      reg.get (reg.resolveHirAlias tid) ≠ .array index elem low high) : IsArray reg tid []
  | array {tid index elem : TypeId} {low high : Int} {dims : List Dimension}
      (h : reg.get (reg.resolveHirAlias tid) = .array index elem low high)
      (he : IsArray reg elem dims) : IsArray reg tid (⟨index, high⟩ :: dims)

/-- The upper bounds that `type_id_array_suffix` and `field_type_and_suffix` write as `[high + 1]`,
to a depth. -/
def typeIdArraySuffix (reg : TypeRegistry) : Nat → TypeId → Option (List Int)
  | 0, _ => none
  | depth + 1, tid =>
    match reg.get (reg.resolveHirAlias tid) with
    | .array _ elem _ high => (typeIdArraySuffix reg depth elem).map (high :: ·)
    | _ => some []

/-- The index is within the bounds of the dimension. -/
def InRange (reg : TypeRegistry) (d : Dimension) (v : Int) : Prop :=
  (reg.getOrdinalRange d.indexType).1 ≤ v ∧ v ≤ (reg.getOrdinalRange d.indexType).2

/-- The index vectors of an array type. -/
def IsIndexVector (reg : TypeRegistry) (dims : List Dimension) (vs : List Int) : Prop :=
  List.Forall₂ reg.InRange dims vs

/-- The C type of the variables of an index type. -/
def indexCType (reg : TypeRegistry) (charSigned : Bool) (tid : TypeId) : CIntType :=
  match reg.get (reg.resolveHirAlias tid) with
  | .char => ⟨8, charSigned⟩
  | .cardinal | .enumeration _ _ => .uint
  | _ => .int

end TypeRegistry

namespace CodeGen

open TypeRegistry

/-! ## Elements -/

/-- The values of the subscripts of a designator. -/
def subscripts (E : CEnv) : Nat → Tree → Option (List Int)
  | 0, _ => some []
  | n + 1, .index a i =>
    match subscripts E n a, eval E i with
    | some ws, some (.int _ w) => some (ws ++ [w])
    | _, _ => none
  | _, _ => none

/-- A variable, or a part of one. -/
def isVariable (p : Place) : Prop :=
  (∃ sym, p.base = .localVar sym) ∨ ∃ sym, p.base = .globalVar sym

/-- The place with the indices behind it. -/
def indexedBy (p : Place) (es : List HirExpr) : Place :=
  { p with projections := p.projections ++ es.map fun e => ⟨.index e, e.ty⟩ }

/-- The element that is designated, if it is inside the storage. -/
def element (g : CodeGen) (E : CEnv) (ds : List Nat) (p : Place) (es : List HirExpr) : Option Int :=
  match subscripts E es.length (g.placeText (indexedBy p es)).tree with
  | some ws => if Core.Inside ds ws then some (offset ds ws) else none
  | none => none

/-- The C value of an index: its number, or what a variable of the index type holds for it. -/
def Held (reg : TypeRegistry) (charSigned : Bool) (d : Dimension × Int) (w : Int) : Prop :=
  w = d.2 ∨ w = (reg.indexCType charSigned d.1.indexType).convert d.2

/-- The index expression has the given index as its value where it is emitted outside of a
subscript. -/
def IsIndex (g : CodeGen) (charSigned : Bool) (E : CEnv) (d : Dimension × Int) (e : HirExpr) :
    Prop :=
  ∃ t w, eval E (g.exprTree e) = some (.int t w) ∧ Held g.types charSigned d w

/-- An access to the element of an array variable with the given index vector. -/
structure Accesses (g : CodeGen) (charSigned : Bool) (dims : List Dimension) (vs : List Int)
    (E : CEnv) (p : Place) (es : List HirExpr) : Prop where
  onVariable : isVariable p
  indices : List.Forall₂ (g.IsIndex charSigned E) (dims.zip vs) es

/-- The operands in the designator bind strongly enough, and nothing that its subscripts leave out
or write differently matters. -/
structure Computed (g : CodeGen) (named : String → Option CIntType) (store : Tree → Option CValue)
    (p : Place) (es : List HirExpr) : Prop where
  keeps : KeepsPlace g (indexedBy p es)
  kept : ∀ e ∈ es, g.IndexKept named store false e

/-- Every index vector denotes an element inside the declared storage, and different ones denote
different elements: the text of each access whose subscripts are computed like expressions parses
to a designator of that element. -/
def SubscriptsInside (g : CodeGen) (charSigned : Bool) (tid : TypeId) (dims : List Dimension) :
    Prop :=
  (∃ vs, g.types.IsIndexVector dims vs) →
    ∃ depth highs ds, g.types.typeIdArraySuffix depth tid = some highs ∧
      highs.map cDimension = ds.map some ∧
      ∃ elementOf : List Int → Int,
        Set.InjOn elementOf {vs | g.types.IsIndexVector dims vs} ∧
        ∀ vs, g.types.IsIndexVector dims vs → ∀ named store p es,
          g.Accesses charSigned dims vs (cEnv named store) p es → g.Computed named store p es →
            Derives 2 (tokenize (g.placeText (indexedBy p es)).text)
                (g.placeText (indexedBy p es)).tree ∧
              g.element (cEnv named store) ds p es = some (elementOf vs)

/-- A dimension is declared wide enough for its index type: the lower bound is not negative, C can
compute the dimension, and variables of the index type hold the upper bound. -/
structure Covered (reg : TypeRegistry) (charSigned : Bool) (d : Dimension) : Prop where
  low : 0 ≤ (reg.getOrdinalRange d.indexType).1
  high : ∃ n, cDimension d.high = some n ∧ (reg.getOrdinalRange d.indexType).2 < n
  held : (reg.indexCType charSigned d.indexType).Fits (reg.getOrdinalRange d.indexType).2

/-- The index type has no values. -/
def IsEmpty (reg : TypeRegistry) (d : Dimension) : Prop :=
  (reg.getOrdinalRange d.indexType).2 < (reg.getOrdinalRange d.indexType).1

/-! ## The emitted subscripts -/

section Emission

variable (g : CodeGen)

/-- The indices of a designator. -/
def indexedTree (a : Tree) (es : List HirExpr) : Tree :=
  es.foldl (fun a e => .index a (g.indexTree e)) a

theorem projectText_map_index (a : Layout) (es : List HirExpr) :
    (g.projectText a (es.map fun e => ⟨.index e, e.ty⟩)).tree = g.indexedTree a.tree es := by
  induction es generalizing a with
  | nil => simp only [map_nil, projectText, indexedTree, foldl_nil]
  | cons e es ih =>
    simp only [map_cons, projectText]
    exact ih _

/-- Whatever precedes them, indices are written behind one another. -/
theorem projectText_indices : ∀ (a : Layout) (front : List Projection) (e : HirExpr)
    (es : List HirExpr), ∃ b : Layout,
      (g.projectText a (front ++ (e :: es).map fun e => ⟨.index e, e.ty⟩)).tree =
        g.indexedTree b.tree (e :: es)
  | a, [], e, es => ⟨a, g.projectText_map_index a (e :: es)⟩
  | a, ⟨.field _ name _, _⟩ :: front, e, es | a, ⟨.variantField v _ name _, _⟩ :: front, e, es
  | a, ⟨.index i, _⟩ :: front, e, es | a, ⟨.typeTransfer i, _⟩ :: front, e, es
  | a, ⟨.deref, _⟩ :: ⟨.field _ name _, _⟩ :: front, e, es
  | a, ⟨.deref, _⟩ :: ⟨.variantField v _ name _, _⟩ :: front, e, es
  | a, ⟨.deref, _⟩ :: ⟨.typeTransfer i, t⟩ :: front, e, es => by
    simp only [cons_append, projectText]
    exact projectText_indices _ front e es
  | a, [⟨.deref, ty⟩], e, [] => by
    simp only [cons_append, nil_append, map_cons, map_nil, projectText]
    split_ifs
    · exact ⟨.paren (.cast "char*" a), rfl⟩
    · exact ⟨.paren (.unary .deref a), rfl⟩
  | a, [⟨.deref, ty⟩], e, e' :: es => by
    simp only [cons_append, nil_append, map_cons, projectText]
    exact ⟨.paren (.unary .deref a), g.projectText_map_index _ es⟩
  | a, [⟨.deref, _⟩, ⟨.index i, _⟩], e, es => by
    simp only [cons_append, nil_append, map_cons, projectText]
    exact ⟨.index (.paren (.unary .deref a)) (g.exprText true i), g.projectText_map_index _ es⟩
  | a, ⟨.deref, _⟩ :: ⟨.index i, _⟩ :: p :: front, e, es => by
    simp only [cons_append, projectText]
    exact projectText_indices _ (p :: front) e es
  | a, ⟨.deref, _⟩ :: ⟨.deref, t⟩ :: front, e, es => by
    simp only [cons_append, projectText]
    exact projectText_indices _ (⟨.deref, t⟩ :: front) e es

/-- The designator of an indexed variable. -/
theorem placeText_indexed {p : Place} (hp : isVariable p) (es : List HirExpr) :
    ∃ b, (g.placeText (indexedBy p es)).tree = g.indexedTree b es := by
  obtain ⟨base, front, ty, loc⟩ := p
  obtain ⟨sym, rfl⟩ | ⟨sym, rfl⟩ := hp <;>
  · simp only [indexedBy, placeText]
    cases es with
    | nil => exact ⟨_, rfl⟩
    | cons e es =>
      obtain ⟨b, hb⟩ := g.projectText_indices _ front e es
      exact ⟨b.tree, hb⟩

variable {g} {E : CEnv}

/-- The subscripts are those of what is indexed, followed by the indices. -/
theorem subscripts_indexedTree {m : Nat} {b : Tree} {us ws : List Int} {es : List HirExpr}
    (hb : subscripts E m b = some us)
    (h : List.Forall₂ (fun e w => ∃ t, eval E (g.indexTree e) = some (.int t w)) es ws) :
    subscripts E (m + es.length) (g.indexedTree b es) = some (us ++ ws) := by
  induction h generalizing m b us with
  | nil => rw [append_nil, length_nil, Nat.add_zero, indexedTree, foldl_nil, hb]
  | @cons e w es ws hw _ ih =>
    obtain ⟨t, ht⟩ := hw
    have hstep : subscripts E (m + 1) (.index b (g.indexTree e)) = some (us ++ [w]) := by
      rw [subscripts, hb, ht]
    have hrest := ih hstep
    rw [append_assoc, singleton_append] at hrest
    rw [length_cons, Nat.add_comm es.length, ← Nat.add_assoc]
    exact hrest

/-- The element is that of the values of the subscripts. -/
theorem element_eq {p : Place} (hp : isVariable p) {es : List HirExpr} {ws : List Int}
    (h : List.Forall₂ (fun e w => ∃ t, eval E (g.indexTree e) = some (.int t w)) es ws)
    (ds : List Nat) :
    g.element E ds p es = if Core.Inside ds ws then some (offset ds ws) else none := by
  obtain ⟨b, hb⟩ := g.placeText_indexed hp es
  have hread := subscripts_indexedTree (m := 0) (b := b) rfl h
  rw [Nat.zero_add, nil_append] at hread
  rw [element, hb, hread]

end Emission

/-! ## Covered dimensions -/

section Covered

variable {reg : TypeRegistry} {charSigned : Bool} {dims : List Dimension}

/-- The suffix has a dimension for every index type. -/
theorem exists_suffix {tid : TypeId} (h : reg.IsArray tid dims) :
    ∃ depth, reg.typeIdArraySuffix depth tid = some (dims.map Dimension.high) := by
  induction h with
  | @elem tid h =>
    refine ⟨1, ?_⟩
    rw [typeIdArraySuffix]
    split
    · next hget => exact absurd hget (h _ _ _ _)
    · rfl
  | array hget _ ih =>
    obtain ⟨depth, hdepth⟩ := ih
    refine ⟨depth + 1, ?_⟩
    rw [typeIdArraySuffix, hget]
    dsimp only
    rw [hdepth]
    rfl

theorem suffix_unique {tid : TypeId} (h : reg.IsArray tid dims) {depth : Nat} {highs : List Int}
    (hs : reg.typeIdArraySuffix depth tid = some highs) : highs = dims.map Dimension.high := by
  induction h generalizing depth highs with
  | @elem tid h =>
    cases depth with
    | zero => cases hs
    | succ depth =>
      rw [typeIdArraySuffix] at hs
      split at hs
      · next hget => exact absurd hget (h _ _ _ _)
      · exact (Option.some.inj hs).symm
  | array hget _ ih =>
    cases depth with
    | zero => cases hs
    | succ depth =>
      rw [typeIdArraySuffix, hget] at hs
      obtain ⟨rest, hrest, rfl⟩ := Option.map_eq_some_iff.1 hs
      rw [ih hrest]
      rfl

theorem fits_of_convert {t : CIntType} (hbits : 0 < t.bits) {v : Int} (h : t.convert v = v) :
    t.Fits v := by
  obtain ⟨k, hk⟩ := Nat.exists_eq_succ_of_ne_zero hbits.ne'
  have hpow : ((2 ^ (k + 1) : Nat) : Int) = 2 * 2 ^ k := by
    rw [Nat.pow_succ']
    push_cast
    rfl
  have hpos : (0 : Int) < 2 ^ k := by positivity
  rw [CIntType.convert] at h
  rw [CIntType.Fits, hk, Nat.succ_eq_add_one, Nat.add_sub_cancel]
  rw [hk, Nat.succ_eq_add_one] at h
  split_ifs at h ⊢ with hsigned
  · have hle := Int.le_bmod (x := v) (m := 2 ^ (k + 1)) (by positivity)
    have hlt := Int.bmod_lt (x := v) (m := 2 ^ (k + 1)) (by positivity)
    rw [hpow] at hle hlt
    omega
  · have hpos' : (0 : Int) < 2 ^ (k + 1) := by positivity
    have hnonneg := Int.emod_nonneg v hpos'.ne'
    have hlt := Int.emod_lt_of_pos v hpos'
    omega

theorem fits_of_le {t : CIntType} {v hi : Int} (h : t.Fits hi) (hv : 0 ≤ v) (hle : v ≤ hi) :
    t.Fits v := by
  have hpos : (0 : Int) < 2 ^ (t.bits - 1) := by positivity
  unfold CIntType.Fits at h ⊢
  split_ifs at h ⊢
  · constructor <;> omega
  · constructor <;> omega

theorem indexCType_bits (tid : TypeId) : 0 < (reg.indexCType charSigned tid).bits := by
  unfold indexCType
  split
  · exact Nat.succ_pos 7
  · decide
  · decide
  · decide

theorem Covered.held_eq {d : Dimension} (hd : Covered reg charSigned d) {v w : Int}
    (hv : reg.InRange d v) (hw : Held reg charSigned (d, v) w) : w = v := by
  obtain rfl | rfl := hw
  · rfl
  · exact CIntType.convert_of_fits (indexCType_bits _)
      (fits_of_le hd.held (Int.le_trans hd.low hv.1) hv.2)

/-- The vector of the lower bounds. -/
def lows (reg : TypeRegistry) (dims : List Dimension) : List Int :=
  dims.map fun d => (reg.getOrdinalRange d.indexType).1

theorem isIndexVector_lows (hne : ∀ d ∈ dims, ¬ IsEmpty reg d) :
    reg.IsIndexVector dims (lows reg dims) := by
  induction dims with
  | nil => exact .nil
  | cons d dims ih =>
    have hd := hne d mem_cons_self
    exact .cons ⟨Int.le_refl _, Int.not_lt.1 hd⟩
      (ih fun e he => hne e (mem_cons_of_mem _ he))

theorem held_self {vs : List Int} (hv : reg.IsIndexVector dims vs) :
    List.Forall₂ (Held reg charSigned) (dims.zip vs) vs := by
  induction hv with
  | nil => exact .nil
  | cons _ _ ih => exact .cons (.inl rfl) ih

/-- All indices are held as they are and are inside if and only if all dimensions are covered. -/
theorem covered_iff (hne : ∀ d ∈ dims, ¬ IsEmpty reg d) {ds : List Nat}
    (hds : (dims.map Dimension.high).map cDimension = ds.map some) :
    (∀ vs ws, reg.IsIndexVector dims vs →
        List.Forall₂ (Held reg charSigned) (dims.zip vs) ws → Core.Inside ds vs ∧ ws = vs) ↔
      ∀ d ∈ dims, Covered reg charSigned d := by
  induction dims generalizing ds with
  | nil =>
    cases ds with
    | nil =>
      refine ⟨fun _ d hd => absurd hd not_mem_nil, fun _ vs ws hv hw => ?_⟩
      cases hv
      cases hw
      exact ⟨.nil, rfl⟩
    | cons n ds => cases hds
  | cons d dims ih =>
    cases ds with
    | nil => cases hds
    | cons n ds =>
      rw [map_cons, map_cons, map_cons, cons_eq_cons] at hds
      obtain ⟨hn, hds⟩ := hds
      have hd := Int.not_lt.1 (hne d mem_cons_self)
      have hrest := fun e he => hne e (mem_cons_of_mem d he)
      have hlows := isIndexVector_lows hrest
      constructor
      · intro h
        -- the other indices at their lower bounds
        have hhead : ∀ v, reg.InRange d v →
            (0 ≤ v ∧ v < n) ∧ (reg.indexCType charSigned d.indexType).convert v = v := by
          intro v hv
          obtain ⟨hin, heq⟩ := h _ (_ :: lows reg dims) (.cons hv hlows)
            (.cons (.inr rfl) (held_self hlows))
          cases hin with
          | cons hv _ => exact ⟨hv, (cons_eq_cons.1 heq).1⟩
        have htail := (ih hrest hds).1 fun vs ws hv hw => by
          obtain ⟨hin, heq⟩ := h (_ :: vs) (_ :: ws) (.cons ⟨Int.le_refl _, hd⟩ hv)
            (.cons (.inl rfl) hw)
          cases hin with
          | cons _ hin => exact ⟨hin, (cons_eq_cons.1 heq).2⟩
        have hlow := hhead _ ⟨Int.le_refl _, hd⟩
        have hhigh := hhead _ ⟨hd, Int.le_refl _⟩
        have hcovered : Covered reg charSigned d :=
          ⟨hlow.1.1, ⟨n, hn, hhigh.1.2⟩, fits_of_convert (indexCType_bits _) hhigh.2⟩
        exact forall_mem_cons.2 ⟨hcovered, htail⟩
      · intro h vs ws hv hw
        rw [forall_mem_cons] at h
        cases hv with
        | cons hv hvs =>
          cases hw with
          | cons hw hws =>
            obtain ⟨hin, rfl⟩ := (ih hrest hds).2 h.2 _ _ hvs hws
            obtain ⟨m, hm, hlt⟩ := h.1.high
            obtain rfl := Option.some.inj (hm.symm.trans hn)
            have heq := h.1.held_eq hv hw
            exact ⟨.cons ⟨Int.le_trans h.1.low hv.1, Int.lt_of_le_of_lt hv.2 hlt⟩ hin,
              by rw [heq]⟩

end Covered

/-! ## Accesses -/

section Accesses

variable {g : CodeGen} {charSigned : Bool} {dims : List Dimension} {tid : TypeId}

/-- An index whose value is in a field of a variable; the length of the field's name tells the
indices apart. -/
def probe (k : Nat) : HirExpr :=
  ⟨.place ⟨.localVar ⟨"x", "x", none, tyInteger, false, false⟩,
    [⟨.field 0 (String.ofList (List.replicate k 'x')) 0, tyInteger⟩], tyInteger, ⟨"", 0, 0⟩⟩,
    tyInteger, ⟨"", 0, 0⟩⟩

/-- The store in which the probes have the given values. -/
def probeStore (ws : List Int) : Tree → Option CValue
  | .field _ name => (ws[name.length]?).map (.int .long)
  | _ => none

theorem indexTree_probe (k : Nat) : g.indexTree (probe k) = g.exprTree (probe k) := by
  simp only [indexTree, exprTree, probe, exprText]

theorem eval_probe (named : String → Option CIntType) {ws : List Int} {k : Nat} {w : Int}
    (h : ws[k]? = some w) :
    eval (cEnv named (probeStore ws)) (g.exprTree (probe k)) = some (.int .long w) := by
  have hlength : (String.ofList (List.replicate k 'x')).length = k := by
    rw [String.length_ofList, length_replicate]
  simp only [probe, exprTree, exprText, placeText, projectText, Layout.tree, eval, cEnv,
    probeStore, hlength, h, Option.map_some]

/-- As many probes as there are values have these values, in a subscript and elsewhere. -/
theorem eval_probes (ws : List Int) {f : HirExpr → Tree}
    (hf : ∀ k, f (probe k) = g.exprTree (probe k)) :
    List.Forall₂ (fun e w => eval (cEnv (fun _ => none) (probeStore ws)) (f e) =
      some (.int .long w)) ((List.range ws.length).map probe) ws := by
  rw [forall₂_iff_get]
  refine ⟨by simp, fun k hk hk' => ?_⟩
  simp only [get_eq_getElem, getElem_map, getElem_range, hf]
  exact eval_probe _ (getElem?_eq_getElem hk')

theorem keepsProjections_indices : ∀ (es : List HirExpr) (kept : Prop),
    KeepsProjections g kept (es.map fun e => ⟨.index e, e.ty⟩) ↔
      kept ∧ ∀ e ∈ es, KeepsTree g .index e
  | [], kept => by simp [KeepsProjections]
  | e :: es, kept => by
    rw [map_cons, KeepsProjections, keepsProjections_indices es, forall_mem_cons, and_assoc]

theorem forall₂_isIndex {E : CEnv} {ds : List (Dimension × Int)} {es : List HirExpr}
    {ws : List Int} (hw : List.Forall₂ (Held g.types charSigned) ds ws)
    (he : List.Forall₂ (fun e w => eval E (g.exprTree e) = some (.int .long w)) es ws) :
    List.Forall₂ (g.IsIndex charSigned E) ds es := by
  induction hw generalizing es with
  | nil =>
    cases he
    exact .nil
  | cons hw _ ih =>
    cases he with
    | cons he hes => exact .cons ⟨_, _, he, hw⟩ (ih hes)

/-- The subscripts of an access have the values that hold its indices. -/
theorem exists_values {named : String → Option CIntType} {store : Tree → Option CValue}
    {ds : List (Dimension × Int)} {es : List HirExpr}
    (h : List.Forall₂ (g.IsIndex charSigned (cEnv named store)) ds es)
    (hkept : ∀ e ∈ es, g.IndexKept named store false e) :
    ∃ ws, List.Forall₂ (Held g.types charSigned) ds ws ∧
      List.Forall₂ (fun e w => ∃ t, eval (cEnv named store) (g.indexTree e) = some (.int t w))
        es ws := by
  induction h with
  | nil => exact ⟨[], .nil, .nil⟩
  | cons hd _ ih =>
    rw [forall_mem_cons] at hkept
    obtain ⟨t, w, heval, hw⟩ := hd
    obtain ⟨t', hindex, -⟩ := sameInteger_of_kept _ false hkept.1 t w heval
    obtain ⟨ws, hws, hes⟩ := ih hkept.2
    exact ⟨w :: ws, .cons hw hws, .cons ⟨t', hindex⟩ hes⟩

/-- Some variable. -/
def anyVariable : Place := ⟨.localVar ⟨"a", "a", none, 20, false, false⟩, [], 20, ⟨"", 0, 0⟩⟩

/-- Probes are written in subscripts as they are elsewhere. -/
theorem computed_probes (n : Nat) (named : String → Option CIntType)
    (store : Tree → Option CValue) :
    g.Computed named store anyVariable ((List.range n).map probe) := by
  constructor
  · simp only [anyVariable, indexedBy, nil_append, KeepsPlace, keepsProjections_indices, true_and]
    intro e he
    obtain ⟨k, -, rfl⟩ := mem_map.1 he
    simp [probe, KeepsTree, KeepsPlace, KeepsProjections]
  · intro e he
    obtain ⟨k, -, rfl⟩ := mem_map.1 he
    simp [probe, IndexKept]

/-- If every index vector denotes one element, every index is held as it is and is inside. -/
theorem inside_of_element {ds : List Nat} {elementOf : List Int → Int}
    (h : ∀ vs, g.types.IsIndexVector dims vs → ∀ named store p es,
      g.Accesses charSigned dims vs (cEnv named store) p es → g.Computed named store p es →
        Derives 2 (tokenize (g.placeText (indexedBy p es)).text)
            (g.placeText (indexedBy p es)).tree ∧
          g.element (cEnv named store) ds p es = some (elementOf vs))
    {vs ws : List Int} (hv : g.types.IsIndexVector dims vs)
    (hw : List.Forall₂ (Held g.types charSigned) (dims.zip vs) ws) :
    Core.Inside ds vs ∧ ws = vs := by
  have hread : ∀ us, List.Forall₂ (Held g.types charSigned) (dims.zip vs) us →
      Core.Inside ds us ∧ offset ds us = elementOf vs := by
    intro us hus
    have haccess : g.Accesses charSigned dims vs (cEnv (fun _ => none) (probeStore us))
        anyVariable ((List.range us.length).map probe) :=
      ⟨.inl ⟨_, rfl⟩, forall₂_isIndex hus (eval_probes us fun _ => rfl)⟩
    obtain ⟨-, helement⟩ := h vs hv _ _ anyVariable _ haccess (computed_probes _ _ _)
    have hread := eval_probes (g := g) us indexTree_probe
    rw [element_eq (.inl ⟨_, rfl⟩) (hread.imp fun _ _ he => ⟨_, he⟩)] at helement
    split_ifs at helement with hin
    exact ⟨hin, Option.some.inj helement⟩
  obtain ⟨hin, hoffset⟩ := hread vs (held_self hv)
  obtain ⟨hin', hoffset'⟩ := hread ws hw
  exact ⟨hin, offset_injective hin' hin (hoffset'.trans hoffset.symm)⟩

theorem element_of_covered {ds : List Nat}
    (hds : (dims.map Dimension.high).map cDimension = ds.map some)
    (hne : ∀ d ∈ dims, ¬ IsEmpty g.types d) (h : ∀ d ∈ dims, Covered g.types charSigned d)
    {vs : List Int} (hv : g.types.IsIndexVector dims vs) {named : String → Option CIntType}
    {store : Tree → Option CValue} {p : Place} {es : List HirExpr}
    (ha : g.Accesses charSigned dims vs (cEnv named store) p es)
    (hkept : ∀ e ∈ es, g.IndexKept named store false e) :
    g.element (cEnv named store) ds p es = some (offset ds vs) := by
  obtain ⟨ws, hw, hes⟩ := exists_values ha.indices hkept
  obtain ⟨hin, rfl⟩ := (covered_iff hne hds).2 h vs ws hv hw
  rw [element_eq ha.onVariable hes, if_pos hin]

/-- The text of a designator whose operands bind strongly enough parses. -/
theorem derives_placeText {p : Place} (h : KeepsPlace g p) :
    Derives 2 (tokenize (g.placeText p).text) (g.placeText p).tree := by
  have hparses := (g.parses_placeText p).2 h
  have hstrength : 2 ≤ (g.placeText p).strength := by
    rw [(g.placeText_front p).2]
    exact Nat.le_trans (by decide) (fourteen_le_placeBinding p)
  rw [Layout.derives_text_iff_fits]
  exact (Layout.fits_iff_parses hstrength).2 hparses

theorem exists_dimensions (h : ∀ d ∈ dims, Covered g.types charSigned d) :
    ∃ ds : List Nat, (dims.map Dimension.high).map cDimension = ds.map some := by
  induction dims with
  | nil => exact ⟨[], rfl⟩
  | cons d dims ih =>
    obtain ⟨n, hn, -⟩ := (h d mem_cons_self).high
    obtain ⟨ds, hds⟩ := ih fun e he => h e (mem_cons_of_mem _ he)
    exact ⟨n :: ds, by rw [map_cons, map_cons, hn, hds, map_cons]⟩

theorem not_isEmpty_of_vector {vs : List Int} (hv : g.types.IsIndexVector dims vs) :
    ∀ d ∈ dims, ¬ IsEmpty g.types d := by
  induction hv with
  | nil => exact fun d hd => absurd hd not_mem_nil
  | cons hv _ ih =>
    exact forall_mem_cons.2 ⟨Int.not_lt.2 (Int.le_trans hv.1 hv.2), ih⟩

theorem covered_of_inside (h : g.types.IsArray tid dims)
    (hinside : g.SubscriptsInside charSigned tid dims) (hne : ∀ d ∈ dims, ¬ IsEmpty g.types d) :
    ∀ d ∈ dims, Covered g.types charSigned d := by
  obtain ⟨depth, highs, ds, hsuffix, hds, elementOf, -, helement⟩ :=
    hinside ⟨_, isIndexVector_lows hne⟩
  rw [suffix_unique h hsuffix] at hds
  exact (covered_iff hne hds).1 fun vs ws hv hw => inside_of_element helement hv hw

/-- The subscripts of an array type that are computed like expressions stay inside the declared
storage, and different index vectors denote different elements, if and only if the type has no index
vectors or all its dimensions are covered. -/
theorem subscriptsInside_iff (h : g.types.IsArray tid dims) :
    g.SubscriptsInside charSigned tid dims ↔
      (∃ d ∈ dims, IsEmpty g.types d) ∨ ∀ d ∈ dims, Covered g.types charSigned d := by
  constructor
  · intro hinside
    by_cases hempty : ∃ d ∈ dims, IsEmpty g.types d
    · exact .inl hempty
    · exact .inr (covered_of_inside h hinside fun d hd he => hempty ⟨d, hd, he⟩)
  · rintro hcond ⟨vs, hvs⟩
    have hne := not_isEmpty_of_vector hvs
    obtain ⟨d, hd, hempty⟩ | hcovered := hcond
    · exact absurd hempty (hne d hd)
    · obtain ⟨depth, hdepth⟩ := exists_suffix h
      obtain ⟨ds, hds⟩ := exists_dimensions hcovered
      refine ⟨depth, _, ds, hdepth, hds, offset ds, ?_, ?_⟩
      · intro us hus us' hus' heq
        have hin := ((covered_iff hne hds).2 hcovered us us hus (held_self hus)).1
        have hin' := ((covered_iff hne hds).2 hcovered us' us' hus' (held_self hus')).1
        exact offset_injective hin hin' heq
      · intro us hus named store p es ha hcomputed
        exact ⟨derives_placeText hcomputed.keeps,
          element_of_covered hds hne hcovered hus ha hcomputed.kept⟩

end Accesses

/-- `ARRAY BOOLEAN, [1..3] OF INTEGER`, `[1..3]`, and `ARRAY [-5..5] OF INTEGER`. -/
def arrayTypes : TypeRegistry :=
  ⟨[.subrange tyInteger 1 3, .array 20 tyInteger 1 3, .array tyBoolean 21 0 1,
    .subrange tyInteger (-5) 5, .array 23 tyInteger (-5) 5]⟩

theorem isArray_two : arrayTypes.IsArray 22 [⟨tyBoolean, 1⟩, ⟨20, 3⟩] := by
  have houter : arrayTypes.get 22 = .array tyBoolean 21 0 1 := rfl
  have hinner : arrayTypes.get 21 = .array 20 tyInteger 1 3 := rfl
  exact .array houter (.array hinner (.elem fun _ _ _ _ h => by cases h))

theorem subscriptsInside_two :
    { plain with types := arrayTypes }.SubscriptsInside true 22 [⟨tyBoolean, 1⟩, ⟨20, 3⟩] := by
  apply (subscriptsInside_iff (g := { plain with types := arrayTypes }) isArray_two).2
  right
  intro d hd
  have hcases : d = ⟨tyBoolean, 1⟩ ∨ d = ⟨20, 3⟩ := by simpa using hd
  obtain rfl | rfl := hcases
  · exact ⟨by decide, ⟨2, by decide, by decide⟩, by decide⟩
  · exact ⟨by decide, ⟨4, by decide, by decide⟩, by decide⟩

/-- The element of `a` with the index `-5` is outside of `a[5 + 1]`. -/
theorem not_subscriptsInside :
    ¬ ∀ (g : CodeGen) (charSigned : Bool) (tid : TypeId) (dims : List Dimension),
      g.types.IsArray tid dims → g.SubscriptsInside charSigned tid dims := by
  intro h
  have hget : arrayTypes.get 24 = .array 23 tyInteger (-5) 5 := rfl
  have harray : arrayTypes.IsArray 24 [⟨23, 5⟩] := .array hget (.elem fun _ _ _ _ h => by cases h)
  have hinside := h { plain with types := arrayTypes } true 24 _ harray
  have hne : ∀ d ∈ [(⟨23, 5⟩ : Dimension)], ¬ IsEmpty arrayTypes d := by
    intro d hd
    rw [mem_singleton.1 hd]
    exact Int.not_lt.2 (by decide)
  have hcovered := covered_of_inside harray hinside hne ⟨23, 5⟩ mem_cons_self
  exact absurd hcovered.low (by decide)

end CodeGen

end Mx

import Mx.Core.CEval
import Mx.Codegen.ExprParse

/-!
# The value of a subscript

`hir_expr_to_c_string` writes `/` and `%` for `DIV` and `MOD`, leaves out type transfers and has
no other binary operator than the five arithmetic ones. The subscript it emits has the value that
`hir_expr_to_string` gives the expression elsewhere as long as none of these matters.
-/

namespace Mx

open CGrammar

/-! ## The runtime -/

/-- `m2_div` and `m2_div64`: the quotient rounded down. -/
def m2Div (t : CIntType) (a b : Int) : Option Int :=
  if b = 0 ∨ ¬ t.Fits (a.tdiv b) then none
  else
    let q := a.tdiv b
    let r := a.tmod b
    -- `(r ^ b) < 0`: the signs differ
    some (if r ≠ 0 ∧ decide (r < 0) ≠ decide (b < 0) then q - 1 else q)

/-- `m2_mod` and `m2_mod64`: the remainder that is not negative. -/
def m2Mod (t : CIntType) (a b : Int) : Option Int :=
  if b = 0 ∨ ¬ t.Fits (a.tdiv b) then none
  else
    let r := a.tmod b
    if r < 0 then
      if b > 0 then some (r + b) else if t.Fits (-b) then some (r + -b) else none
    else some r

/-- The functions of the runtime that `DIV` and `MOD` call. -/
def runtimeFunction (name : String) : Option (CIntType × (Int → Int → Option Int)) :=
  match name with
  | "m2_div" => some (.int, m2Div .int)
  | "m2_mod" => some (.int, m2Mod .int)
  | "m2_div64" => some (.long, m2Div .long)
  | "m2_mod64" => some (.long, m2Mod .long)
  | _ => none

/-- The integer types of C by name; `char` and the declared types are up to the implementation
and the program. -/
def cTypeOf (named : String → Option CIntType) (name : String) : Option CIntType :=
  match name with
  | "int32_t" | "int" => some .int
  | "uint32_t" => some .uint
  | "int64_t" => some .long
  | "uint64_t" => some .ulong
  | "unsigned char" | "uint8_t" => some .uchar
  | _ => named name

/-- The environment of an emitted expression. -/
def cEnv (named : String → Option CIntType) (store : Tree → Option CValue) : CEnv :=
  ⟨store, cTypeOf named, runtimeFunction⟩

theorem cEnv_castType (named : String → Option CIntType) (store : Tree → Option CValue) :
    (cEnv named store).castType = cTypeOf named := rfl

theorem cEnv_function (named : String → Option CIntType) (store : Tree → Option CValue) :
    (cEnv named store).function = runtimeFunction := rfl

/-- Rounding towards zero is rounding down. -/
def ExactDiv (op : BinaryOp) (v w : Int) : Prop :=
  match op with
  | .intDiv => w ∣ v ∨ (0 ≤ v ∧ 0 < w) ∨ (v ≤ 0 ∧ w < 0)
  | _ => w ∣ v ∨ 0 ≤ v

variable {t : CIntType}

theorem m2Div_of_exact {v w : Int} (h : ExactDiv .intDiv v w)
    (hw : w ≠ 0) (hfits : t.Fits (v.tdiv w)) : m2Div t v w = some (v.tdiv w) := by
  have hsign : ¬ (v.tmod w ≠ 0 ∧ decide (v.tmod w < 0) ≠ decide (w < 0)) := by
    rintro ⟨hr, hsign⟩
    obtain hdvd | ⟨hv, hpos⟩ | ⟨hv, hneg⟩ := h
    · exact hr (Int.tmod_eq_zero_of_dvd hdvd)
    · have := Int.tmod_nonneg w hv
      simp [Int.not_lt.mpr this, Int.not_lt.mpr (Int.le_of_lt hpos)] at hsign
    · have hle : v.tmod w ≤ 0 := by
        have := Int.tmod_nonneg w (Int.neg_nonneg_of_nonpos hv)
        rw [Int.neg_tmod] at this
        omega
      have hlt : v.tmod w < 0 := by omega
      simp [hlt, hneg] at hsign
  rw [m2Div, if_neg (by simp [hw, hfits])]
  dsimp only
  rw [if_neg hsign]

theorem m2Mod_of_exact {v w : Int} (h : ExactDiv .mod v w)
    (hw : w ≠ 0) (hfits : t.Fits (v.tdiv w)) : m2Mod t v w = some (v.tmod w) := by
  have hr : 0 ≤ v.tmod w := by
    obtain hdvd | hv := h
    · exact Int.le_of_eq (Int.tmod_eq_zero_of_dvd hdvd).symm
    · exact Int.tmod_nonneg w hv
  rw [m2Mod, if_neg (by simp [hw, hfits])]
  dsimp only
  rw [if_neg (Int.not_lt.mpr hr)]

namespace CodeGen

/-! ## Subscripts that keep the value -/

/-- The type that the runtime divides in. -/
def divType (left right : TypeId) : CIntType :=
  if isHirLong left || isHirLong right then .long else .int

/-- A division by the runtime has the same value as the operator of C: the type of the runtime
and the common type of the operands represent both of them and the quotient, and rounding does
not matter. -/
def DivisionKept (op : BinaryOp) (h : CIntType) (t : CIntType) (v : Int) (u : CIntType) (w : Int) :
    Prop :=
  (h.Fits v ∧ h.Fits w) ∧
    ((t.common u).Fits v ∧ (t.common u).Fits w ∧ (t.common u).Fits (v.tdiv w)) ∧ ExactDiv op v w

/-- A binary operation of two integers has the same value in a subscript. With `strict` it has
the same type as well. -/
def OperationKept (g : CodeGen) (strict : Bool) (op : BinaryOp) (left right : TypeId) :
    Option CValue → Option CValue → Prop
  | some (.int t v), some (.int u w) =>
    (isIndexOperator op ∧ ∃ s, g.types.selectBinaryOp op left right = .parens s ∧
      operator s = indexOperator op) ∨
    ((op = .intDiv ∨ op = .mod) ∧ DivisionKept op (divType left right) t v u w ∧
      (strict → t.common u = divType left right))
  | _, _ => False

/-- A type transfer that can be left out. With `strict` the promoted type does not change. -/
def TransferKept (g : CodeGen) (named : String → Option CIntType) (strict : Bool)
    (source target : TypeId) : Option CValue → Prop
  | some (.int t v) => ∃ u, cTypeOf named (g.typeIdToC target) = some u ∧
      u.convert (if source = tyChar then CIntType.uchar.convert v else v) = v ∧
      (strict → u.promote = t.promote)
  | _ => False

/-- Nothing that a subscript leaves out or writes differently matters for the value of the
expression, and with `strict` for its type: each operation and transfer on the way from the root
through negations, operations and transfers is kept. -/
def IndexKept (g : CodeGen) (named : String → Option CIntType) (store : Tree → Option CValue)
    (strict : Bool) : HirExpr → Prop
  | ⟨.charLit c, _, _⟩ => c.toNat < 128
  | ⟨.unaryOp .neg operand, _, _⟩ =>
    g.types.isHirComplex operand.ty = false ∧ IndexKept g named store true operand ∧
      eval (cEnv named store) (g.exprTree operand) ≠ some .other
  | ⟨.binaryOp op left right, _, _⟩ =>
    IndexKept g named store true left ∧ IndexKept g named store true right ∧
      g.OperationKept strict op left.ty right.ty (eval (cEnv named store) (g.exprTree left))
        (eval (cEnv named store) (g.exprTree right))
  | ⟨.typeTransfer operand, ty, _⟩ =>
    IndexKept g named store strict operand ∧
      g.TransferKept named strict operand.ty ty (eval (cEnv named store) (g.exprTree operand))
  | _ => True

/-- The C tree of a subscript. -/
def indexTree (g : CodeGen) (e : HirExpr) : Tree := (g.exprText true e).tree

theorem charConstant_toString {c : Char} (h : c.toNat < 128) :
    charConstant c.toString = some (c.toNat : Int) := by
  have hlist : c.toString.toList = [c] := String.toList_singleton c
  rw [charConstant, hlist]
  exact if_pos h

theorem charConstant_escapeCChar {c : Char} (h : c.toNat < 128) :
    charConstant (escapeCChar c) = some (c.toNat : Int) := by
  unfold escapeCChar
  split_ifs with hn ht hr hb hq h0
  · subst hn; rfl
  · subst ht; rfl
  · subst hr; rfl
  · subst hb; rfl
  · subst hq; rfl
  · subst h0; rfl
  · exact charConstant_toString h

section Eval

variable {g : CodeGen} {named : String → Option CIntType} {store : Tree → Option CValue}

/-- The subscript has the value of the expression, and with `strict` the type up to promotion. -/
def SameInteger (g : CodeGen) (named : String → Option CIntType) (store : Tree → Option CValue)
    (strict : Bool) (e : HirExpr) : Prop :=
  ∀ t v, eval (cEnv named store) (g.exprTree e) = some (.int t v) →
    ∃ t', eval (cEnv named store) (g.indexTree e) = some (.int t' v) ∧
      (strict → t'.promote = t.promote)

variable {strict : Bool} {op : BinaryOp} {left right : HirExpr} {a b : CIntType} {x y : Int}

theorem sameInteger_of_eq {e : HirExpr} (h : g.indexTree e = g.exprTree e) :
    g.SameInteger named store strict e := by
  intro t v hv
  exact ⟨t, by rw [h, hv], fun _ => rfl⟩

theorem operationKept_ints {left right : TypeId}
    {x y : Option CValue} (h : g.OperationKept strict op left right x y) :
    ∃ t v u w, x = some (.int t v) ∧ y = some (.int u w) ∧
      g.OperationKept strict op left right (some (.int t v)) (some (.int u w)) := by
  match x, y, h with
  | some (.int t v), some (.int u w), h => exact ⟨t, v, u, w, rfl, rfl, h⟩

theorem isArith_indexOperator (h : isIndexOperator op) :
    (indexOperator op).isArith := by
  cases op <;> first | rfl | exact absurd h (by decide)

theorem isComparison_of_isIndexOperator (h : isIndexOperator op) :
    isComparison op = false := by
  cases op <;> first | rfl | exact absurd h (by decide)

theorem exprTree_binaryOp (h : isIndexOperator op) (left right : HirExpr)
    (ty : TypeId) (loc : SourceLoc) :
    g.exprTree ⟨.binaryOp op left right, ty, loc⟩ =
      (binaryText (g.exprText false left) (g.exprText false right)
        (g.types.selectBinaryOp op left.ty right.ty)).tree := by
  simp [exprTree, exprText, isComparison_of_isIndexOperator h]

/-- How the runtime divides. -/
theorem eval_division (hop : op = .intDiv ∨ op = .mod)
    (hsigned : ¬ (isHirUnsigned left.ty || isHirUnsigned right.ty) = true) (ty : TypeId)
    (loc : SourceLoc) {u : CIntType} {v w : Int}
    (hl : eval (cEnv named store) (g.exprTree left) = some (.int t v))
    (hr : eval (cEnv named store) (g.exprTree right) = some (.int u w)) :
    eval (cEnv named store) (g.exprTree ⟨.binaryOp op left right, ty, loc⟩) =
      ((if op = .intDiv then m2Div else m2Mod) (divType left.ty right.ty)
        ((divType left.ty right.ty).convert v) ((divType left.ty right.ty).convert w)).map
        (.int (divType left.ty right.ty)) := by
  rw [exprTree] at hl hr
  have hindex : isIndexOperator op := by obtain rfl | rfl := hop <;> rfl
  rw [exprTree_binaryOp hindex]
  obtain rfl | rfl := hop <;>
    simp only [TypeRegistry.selectBinaryOp, hsigned, divType, Bool.false_eq_true, if_false,
      reduceCtorEq, if_true] <;>
    split_ifs <;>
    simp [binaryText, namedCall, callText, callText.chain, Layout.tree, eval, hl, hr,
      cEnv_function, runtimeFunction]

theorem divType_bits (left right : TypeId) : 32 ≤ (divType left right).bits := by
  unfold divType
  split_ifs <;> decide

/-- The operator of C on operands that the common type represents. -/
theorem arith_division (hop : op = .intDiv ∨ op = .mod)
    (hx : (a.common b).Fits x) (hy : (a.common b).Fits y) (hq : (a.common b).Fits (x.tdiv y))
    (h0 : y ≠ 0) :
    arith (indexOperator op) a x b y =
      some (.int (a.common b) (if op = .intDiv then x.tdiv y else x.tmod y)) := by
  have hpos : 0 < (a.common b).bits :=
    Nat.lt_of_lt_of_le (by decide) (CIntType.common_bits a b)
  have hx' := CIntType.convert_of_fits hpos hx
  have hy' := CIntType.convert_of_fits hpos hy
  have hq' := CIntType.convert_of_fits hpos hq
  obtain rfl | rfl := hop <;> simp [arith, indexOperator, hx', hy', h0, result, hq, hq']

/-- The operator of C on operands for which rounding does not matter. -/
theorem arith_of_divisionKept {left right : TypeId} {v : Int} (hop : op = .intDiv ∨ op = .mod)
    (h : DivisionKept op (divType left right) a x b y)
    (hstrict : strict → a.common b = divType left right)
    (hv : ((if op = .intDiv then m2Div else m2Mod) (divType left right)
        ((divType left right).convert x) ((divType left right).convert y)).map
        (CValue.int (divType left right)) = some (.int t v)) :
    ∃ t', arith (indexOperator op) a x b y = some (.int t' v) ∧
      (strict → t'.promote = t.promote) := by
  obtain ⟨⟨hx, hy⟩, ⟨hcx, hcy, hcq⟩, hexact⟩ := h
  have hpos : 0 < (divType left right).bits :=
    Nat.lt_of_lt_of_le (by decide) (divType_bits left right)
  rw [CIntType.convert_of_fits hpos hx, CIntType.convert_of_fits hpos hy] at hv
  obtain ⟨r, hr, hrv⟩ := Option.map_eq_some_iff.mp hv
  simp only [CValue.int.injEq] at hrv
  obtain ⟨rfl, rfl⟩ := hrv
  have hdef : y ≠ 0 ∧ (divType left right).Fits (x.tdiv y) := by
    by_contra hundef
    rw [not_and_or, not_not] at hundef
    obtain rfl | rfl := hop <;> simp [m2Div, m2Mod, hundef] at hr
  refine ⟨a.common b, ?_, fun hs => by rw [hstrict hs]⟩
  rw [arith_division hop hcx hcy hcq hdef.1]
  obtain rfl | rfl := hop
  · rw [if_pos rfl, m2Div_of_exact hexact hdef.1 hdef.2] at hr
    cases hr
    rfl
  · rw [if_neg (by decide), m2Mod_of_exact hexact hdef.1 hdef.2] at hr
    cases hr
    rfl

/-- A subscript computes with the values of the operands. -/
theorem eval_indexTree_binaryOp (hop : isIndexOperator op) (ty : TypeId) (loc : SourceLoc)
    (hl : eval (cEnv named store) (g.exprTree left) = some (.int a x))
    (hr : eval (cEnv named store) (g.exprTree right) = some (.int b y))
    (ihl : g.SameInteger named store true left) (ihr : g.SameInteger named store true right) :
    eval (cEnv named store) (g.indexTree ⟨.binaryOp op left right, ty, loc⟩) =
      arith (indexOperator op) a x b y := by
  obtain ⟨a', hl', ha⟩ := ihl a x hl
  obtain ⟨b', hr', hb⟩ := ihr b y hr
  simp only [indexTree, exprText, if_true, Layout.tree] at hl' hr' ⊢
  rw [eval_binary (isArith_indexOperator hop) hl' hr',
    arith_congr (isArith_indexOperator hop) x y (ha rfl) (hb rfl)]

theorem sameInteger_of_kept : ∀ (e : HirExpr) (strict : Bool),
    g.IndexKept named store strict e → g.SameInteger named store strict e
  | ⟨.charLit c, _, _⟩ => by
    intro strict h t v hv
    simp only [IndexKept] at h
    simp only [exprTree, exprText, Bool.false_eq_true, if_false, charText, Layout.tree, eval,
      charConstant_escapeCChar h, Option.map_some, Option.some.injEq, CValue.int.injEq] at hv
    obtain ⟨rfl, rfl⟩ := hv
    refine ⟨.int, ?_, fun _ => rfl⟩
    have hsmall : CIntType.ofDecimal (c.toNat : Int) = .int := by
      rw [CIntType.ofDecimal, if_pos]
      omega
    simp only [indexTree, exprText, if_true, Layout.tree, eval, decimal_toString, hsmall]
  | ⟨.unaryOp .neg operand, _, _⟩ => by
    intro strict h t v hv
    simp only [IndexKept] at h
    have ih := sameInteger_of_kept operand true h.2.1
    have hother := h.2.2
    simp only [exprTree, exprText, Bool.false_eq_true, if_false, h.1, Layout.tree, eval] at hv
    cases hval : eval (cEnv named store) (g.exprTree operand) with
    | none =>
      rw [exprTree] at hval
      simp [hval] at hv
    | some x =>
      cases x with
      | other => exact absurd hval hother
      | int u w =>
        obtain ⟨u', hu', hpromote⟩ := ih u w hval
        rw [exprTree] at hval
        simp only [hval] at hv
        refine ⟨t, ?_, fun _ => rfl⟩
        rw [indexTree] at hu'
        simp only [indexTree, exprText, if_true, Layout.tree, eval, hu', hpromote rfl]
        exact hv
  | ⟨.binaryOp op left right, ty, loc⟩ => by
    intro strict h t v hv
    simp only [IndexKept] at h
    have ihl := sameInteger_of_kept left true h.1
    have ihr := sameInteger_of_kept right true h.2.1
    obtain ⟨a, x, b, y, hl, hr, hkept⟩ := operationKept_ints h.2.2
    have hop : isIndexOperator op := by
      obtain ⟨hop, -⟩ | ⟨rfl | rfl, -⟩ := hkept
      · exact hop
      · rfl
      · rfl
    have hindex := eval_indexTree_binaryOp hop ty loc hl hr ihl ihr
    -- the same operator on the same values
    have hsame : ∀ s, g.types.selectBinaryOp op left.ty right.ty = .parens s →
        operator s = indexOperator op →
        eval (cEnv named store) (g.exprTree ⟨.binaryOp op left right, ty, loc⟩) =
          arith (indexOperator op) a x b y := by
      intro s hsel hs
      rw [exprTree_binaryOp hop, hsel, binaryText, hs]
      exact eval_binary (isArith_indexOperator hop) hl hr
    rw [hindex]
    obtain ⟨-, s, hsel, hs⟩ | ⟨hdivOp, hdiv, hstrict⟩ := hkept
    · rw [hsame s hsel hs] at hv
      exact ⟨t, hv, fun _ => rfl⟩
    · by_cases hunsigned : (isHirUnsigned left.ty || isHirUnsigned right.ty) = true
      · have heq : eval (cEnv named store) (g.exprTree ⟨.binaryOp op left right, ty, loc⟩) =
            arith (indexOperator op) a x b y := by
          obtain rfl | rfl := hdivOp
          · exact hsame "/" (by simp [TypeRegistry.selectBinaryOp, hunsigned]) rfl
          · exact hsame "%" (by simp [TypeRegistry.selectBinaryOp, hunsigned]) rfl
        rw [heq] at hv
        exact ⟨t, hv, fun _ => rfl⟩
      · rw [eval_division hdivOp hunsigned ty loc hl hr] at hv
        exact arith_of_divisionKept hdivOp hdiv hstrict hv
  | ⟨.typeTransfer operand, ty, _⟩ => by
    intro strict h t v hv
    simp only [IndexKept] at h
    have ih := sameInteger_of_kept operand strict h.1
    cases hval : eval (cEnv named store) (g.exprTree operand) with
    | none => simp [hval, TransferKept] at h
    | some x =>
      cases x with
      | other => simp [hval, TransferKept] at h
      | int u w =>
        obtain ⟨u', hu', hpromote⟩ := ih u w hval
        rw [hval] at h
        obtain ⟨-, c, hc, hconvert, hstrict⟩ := h
        rw [exprTree] at hval
        have hvalue : some (CValue.int c w) = some (.int t v) := by
          rw [← hv]
          have huchar : cTypeOf named "unsigned char" = some .uchar := rfl
          simp only [exprTree, exprText, Bool.false_eq_true, if_false]
          split_ifs at hconvert ⊢ with hchar <;>
            simp [castText, uncastText, Layout.tree, eval, cEnv_castType, hval, hc, huchar,
            hconvert]
        simp only [Option.some.injEq, CValue.int.injEq] at hvalue
        obtain ⟨rfl, rfl⟩ := hvalue
        refine ⟨u', ?_, fun hs => (hpromote hs).trans (hstrict hs).symm⟩
        simpa only [indexTree, exprText, if_true] using hu'
  | ⟨.intLit _, _, _⟩ | ⟨.realLit _, _, _⟩ | ⟨.stringLit _, _, _⟩ | ⟨.boolLit _, _, _⟩
  | ⟨.nilLit, _, _⟩ | ⟨.place _, _, _⟩ | ⟨.addrOf _, _, _⟩ | ⟨.directCall _ _, _, _⟩
  | ⟨.indirectCall _ _, _, _⟩ | ⟨.unaryOp .pos _, _, _⟩ | ⟨.not _, _, _⟩ | ⟨.deref _, _, _⟩
  | ⟨.setConstructor _, _, _⟩ => by
    intro strict _
    apply sameInteger_of_eq
    simp only [exprTree, indexTree, exprText]

/-! ## Where the value differs -/

theorem exactDiv_of_m2Div {h : CIntType} (hxy : m2Div h x y = some (x.tdiv y)) :
    ExactDiv .intDiv x y := by
  have hsign : ¬ (x.tmod y ≠ 0 ∧ decide (x.tmod y < 0) ≠ decide (y < 0)) := by
    intro hsign
    unfold m2Div at hxy
    split_ifs at hxy with hundef
    simp only [hsign, ne_eq, not_false_eq_true, and_self, if_true, Option.some.injEq] at hxy
    omega
  by_cases hr : x.tmod y = 0
  · exact .inl (Int.dvd_of_tmod_eq_zero hr)
  · have hsame : x.tmod y < 0 ↔ y < 0 := by
      by_contra hne
      exact hsign ⟨hr, fun heq => hne (by simpa using heq)⟩
    by_cases hy : y < 0
    · refine .inr (.inr ⟨?_, hy⟩)
      by_contra hx
      have := Int.tmod_nonneg y (Int.le_of_lt (Int.not_le.mp hx))
      omega
    · refine .inr (.inl ⟨?_, ?_⟩)
      · by_contra hx
        have hle := Int.tmod_nonneg y (Int.neg_nonneg_of_nonpos (Int.le_of_lt (Int.not_le.mp hx)))
        rw [Int.neg_tmod] at hle
        omega
      · by_contra hpos
        have hzero : y = 0 := by omega
        subst hzero
        simp [m2Div] at hxy

theorem exactDiv_of_m2Mod {h : CIntType} (hxy : m2Mod h x y = some (x.tmod y)) :
    ExactDiv .mod x y := by
  have hy : y ≠ 0 := by
    rintro rfl
    simp [m2Mod] at hxy
  have hr : 0 ≤ x.tmod y := by
    by_contra hneg
    unfold m2Mod at hxy
    split_ifs at hxy <;> simp at hxy <;> omega
  by_cases hx : 0 ≤ x
  · exact .inr hx
  · have hle := Int.tmod_nonneg y (Int.neg_nonneg_of_nonpos (Int.le_of_lt (Int.not_le.mp hx)))
    rw [Int.neg_tmod] at hle
    exact .inl (Int.dvd_of_tmod_eq_zero (by omega))

/-- The text outside of a subscript parses to the tree of the expression, and has the value. -/
def ExprValue (g : CodeGen) (named : String → Option CIntType) (store : Tree → Option CValue)
    (e : HirExpr) (t : CIntType) (v : Int) : Prop :=
  Derives 2 (tokenize (g.hirExprToString e)) (g.exprTree e) ∧
    eval (cEnv named store) (g.exprTree e) = some (.int t v)

/-- The text of the subscript parses to its tree, and has the value. -/
def IndexValue (g : CodeGen) (named : String → Option CIntType) (store : Tree → Option CValue)
    (e : HirExpr) (v : Int) : Prop :=
  Derives 2 (tokenize (g.hirExprToCString e)) (g.indexTree e) ∧
    ∃ t, eval (cEnv named store) (g.indexTree e) = some (.int t v)

/-- The text of a subscript parses to its tree if and only if every operand binds strongly enough
and no minus sign meets another one. -/
theorem derives_hirExprToCString_iff (g : CodeGen) (e : HirExpr) :
    Derives 2 (tokenize (g.hirExprToCString e)) (g.indexTree e) ↔ KeepsTree g .index e := by
  have hfits := Layout.fits_iff_parses (g.two_le_strength .index e)
  rw [hirExprToCString, indexTree, Layout.derives_text_iff_fits]
  exact hfits.trans (g.parses_textAt e .index)

theorem exactDiv_of_indexValue {ty : TypeId}
    {loc : SourceLoc} {v : Int} (hop : op = .intDiv ∨ op = .mod)
    (hsigned : ¬ (isHirUnsigned left.ty || isHirUnsigned right.ty) = true)
    (ihl : g.SameInteger named store true left) (ihr : g.SameInteger named store true right)
    (hl : eval (cEnv named store) (g.exprTree left) = some (.int a x))
    (hr : eval (cEnv named store) (g.exprTree right) = some (.int b y))
    (hfits : ((divType left.ty right.ty).Fits x ∧ (divType left.ty right.ty).Fits y) ∧
      (a.common b).Fits x ∧ (a.common b).Fits y ∧ (a.common b).Fits (x.tdiv y))
    (hv : eval (cEnv named store) (g.exprTree ⟨.binaryOp op left right, ty, loc⟩) =
      some (.int t v))
    (h : g.IndexValue named store ⟨.binaryOp op left right, ty, loc⟩ v) : ExactDiv op x y := by
  obtain ⟨⟨hx, hy⟩, hcx, hcy, hcq⟩ := hfits
  have hpos : 0 < (divType left.ty right.ty).bits :=
    Nat.lt_of_lt_of_le (by decide) (divType_bits left.ty right.ty)
  have hindex : isIndexOperator op := by obtain rfl | rfl := hop <;> rfl
  rw [eval_division hop hsigned ty loc hl hr, CIntType.convert_of_fits hpos hx,
    CIntType.convert_of_fits hpos hy] at hv
  obtain ⟨r, hruntime, hrv⟩ := Option.map_eq_some_iff.mp hv
  simp only [CValue.int.injEq] at hrv
  obtain ⟨-, rfl⟩ := hrv
  have h0 : y ≠ 0 := by
    rintro rfl
    obtain rfl | rfl := hop <;> simp [m2Div, m2Mod] at hruntime
  obtain ⟨-, u, hu⟩ := h
  rw [eval_indexTree_binaryOp hindex ty loc hl hr ihl ihr, arith_division hop hcx hcy hcq h0] at hu
  simp only [Option.some.injEq, CValue.int.injEq] at hu
  obtain rfl | rfl := hop
  · rw [if_pos rfl] at hruntime hu
    exact exactDiv_of_m2Div (hu.2 ▸ hruntime)
  · rw [if_neg (by decide)] at hruntime hu
    exact exactDiv_of_m2Mod (hu.2 ▸ hruntime)

/-- The other operators have no value in a subscript. -/
theorem not_indexValue_of_operator (hop : isIndexOperator op = false)
    (left right : HirExpr) (ty : TypeId) (loc : SourceLoc) (v : Int) :
    ¬ g.IndexValue named store ⟨.binaryOp op left right, ty, loc⟩ v := by
  rintro ⟨-, t, ht⟩
  have hquestion : indexOperator op = .question := by
    cases op <;> first | rfl | exact absurd hop (by decide)
  simp [indexTree, exprText, Layout.tree, hquestion, eval] at ht

end Eval

/-- The remainder of two variables. -/
def modExpr : HirExpr := ⟨.binaryOp .mod (intVar "x") (intVar "n"), tyInteger, ⟨"", 0, 0⟩⟩

/-- The store in which `x` and `n` have the given values. -/
def intStore (x n : Int) : Tree → Option CValue
  | .atom (.ident "x") => some (.int .int x)
  | .atom (.ident "n") => some (.int .int n)
  | _ => none

theorem keepsTree_modExpr (pos : Position) : KeepsTree plain pos modExpr := by
  cases pos <;> simp [modExpr, intVar, KeepsTree, KeepsPlace, KeepsProjections, binding,
    placeBinding, isIndexOperator, indexOperator, Binary.strength, TypeRegistry.selectBinaryOp,
    isHirUnsigned, isHirLong, tyInteger, tyCardinal, tyLongCard, tyLongInt,
    BinaryEmission.bareOperator, BinaryEmission.operandStrengths]

theorem exprValue_modExpr {store : Tree → Option CValue} {v : Int}
    (h : eval (cEnv (fun _ => none) store) (plain.exprTree modExpr) = some (.int .int v)) :
    plain.ExprValue (fun _ => none) store modExpr .int v :=
  ⟨(plain.derives_hirExprToString_iff modExpr).2 (keepsTree_modExpr .value), h⟩

end CodeGen

end Mx

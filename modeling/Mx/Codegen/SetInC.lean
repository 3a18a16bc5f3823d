import Mx.Codegen.SetExprs
import Mx.Codegen.IntegerAgree

/-!
# Set algebra in the C backend

When the value of an emitted set expression is the set that the expression denotes. A set operand
is recognized by its type id alone, so that words are added and multiplied where the type is an
alias or the `REAL` of a symmetric difference; inclusion is a comparison of words; and nothing
defines the function that a range calls.
-/

namespace Mx

open CGrammar Mx.Core HirBuild List

/-! ## Conditions -/

section Conditions

variable (b : HirBuilder) (loc : SourceLoc) (σ : SetState)

/-- One of the operands has the type id of a set. -/
def SetExpr.recognized (l r : SetExpr) : Bool :=
  b.types.isHirSet (l.hir b loc).ty || b.types.isHirSet (r.hir b loc).ty

/-- Each element is one that the backend can emit, and each operator is recognized as one on sets,
or the arithmetic on the words of its operands happens to give the word of the result. -/
def SetExpr.Sound (element : HirSetElement → Prop) : SetExpr → Prop
  | .variable _ _ => True
  | .constructor elements => ∀ el ∈ elements, element el
  | .binary o l r => (l.Sound element ∧ r.Sound element) ∧
      (l.recognized b loc r = true ∨
        o.arithmetic (wordOf (σ.denotes l)) (wordOf (σ.denotes r)) =
          some (wordOf (o.apply (σ.denotes l) (σ.denotes r))))

/-- The C backend has no code for ranges. -/
def HirSetElement.IsSingle : HirSetElement → Prop
  | .single _ => True
  | .range _ _ => False

/-- The operand fits an instruction on `i32`. -/
def Operand.Direct (x : Operand) : Prop := x.literal = true ∨ x.width = 32

/-- The LLVM backend has no code for elements in registers of other types and for the full
range. -/
def SetState.Shiftable : HirSetElement → Prop
  | .single e => (σ.operand e).Direct
  | .range lo hi => ((σ.operand lo).Direct ∧ (σ.operand hi).Direct) ∧
      ¬ (σ.value lo = 0 ∧ σ.value hi = 31)

/-- The order of two words as numbers. -/
def wordLe (unsigned : Bool) (x y : BitVec 32) : Bool := if unsigned then x.ule y else x.sle y

/-- Inclusion coincides with the order of the words. -/
def SetRelation.Ordered (unsigned : Bool) (A B : Finset (Fin 32)) : SetRelation → Prop
  | .equal | .unequal => True
  | .subset => A ⊆ B ↔ wordLe unsigned (wordOf A) (wordOf B) = true
  | .superset => B ⊆ A ↔ wordLe unsigned (wordOf B) (wordOf A) = true

/-- The order of unsigned words is right about inclusion unless it takes a smaller word for a
subset. -/
theorem ordered_subset_iff (A B : Finset (Fin 32)) :
    SetRelation.Ordered true A B .subset ↔ A ⊆ B ∨ (wordOf B).toNat < (wordOf A).toNat := by
  have hle : A ⊆ B → (wordOf A).toNat ≤ (wordOf B).toNat := by
    intro h
    apply toNat_le_of_subset
    rwa [members_wordOf, members_wordOf]
  simp only [SetRelation.Ordered, wordLe, if_true, BitVec.ule, decide_eq_true_eq]
  constructor
  · intro h
    by_cases hsub : A ⊆ B
    · exact .inl hsub
    · exact .inr (Nat.not_le.mp fun hword => hsub (h.mpr hword))
  · rintro (hsub | hlt)
    · exact iff_of_true hsub (hle hsub)
    · exact iff_of_false (fun hsub => Nat.not_le.mpr hlt (hle hsub)) (Nat.not_le.mpr hlt)

end Conditions

/-! ## One induction for both backends -/

section Induction

variable {b : HirBuilder} {loc : SourceLoc} {σ : SetState}

theorem SetExpr.mem_subs (e : SetExpr) : e ∈ e.subs := by
  cases e <;> simp [subs]

/-- A backend is right about every part of an expression just if the expression is sound, when a
constructor is right just for its elements and an operator on right operands just if it is
recognized or coincides with the arithmetic. -/
theorem SetExpr.subs_iff (Given : SetExpr → Prop) {Means : SetExpr → Prop}
    {element : HirSetElement → Prop}
    (hleft : ∀ o l r, Given (.binary o l r) → Given l ∧ Given r)
    (hvariable : ∀ p ty, Given (.variable p ty) → Means (.variable p ty))
    (hconstructor : ∀ elements, Given (.constructor elements) →
      (Means (.constructor elements) ↔ ∀ el ∈ elements, element el))
    (hbinary : ∀ o l r, Given (.binary o l r) → Means l → Means r →
      (Means (.binary o l r) ↔ l.recognized b loc r = true ∨
        o.arithmetic (wordOf (σ.denotes l)) (wordOf (σ.denotes r)) =
          some (wordOf (o.apply (σ.denotes l) (σ.denotes r))))) :
    ∀ e, Given e → ((∀ s ∈ e.subs, Means s) ↔ e.Sound b loc σ element) := by
  intro e hgiven
  induction e with
  | «variable» p ty => simp [subs, Sound, hvariable p ty hgiven]
  | constructor elements => simp [subs, Sound, hconstructor elements hgiven]
  | binary o l r ihl ihr =>
    obtain ⟨hl, hr⟩ := hleft o l r hgiven
    rw [Sound, ← ihl hl, ← ihr hr]
    simp only [subs, forall_mem_cons, forall_mem_append]
    constructor
    · rintro ⟨hself, hparts⟩
      exact ⟨hparts, (hbinary o l r hgiven (hparts.1 l l.mem_subs)
        (hparts.2 r r.mem_subs)).mp hself⟩
    · rintro ⟨hparts, hself⟩
      exact ⟨(hbinary o l r hgiven (hparts.1 l l.mem_subs)
        (hparts.2 r r.mem_subs)).mpr hself, hparts⟩

end Induction

/-! ## Words -/

section Words

/-- A recognized operator works on the words. -/
def SetOp.onWords : SetOp → BitVec 32 → BitVec 32 → BitVec 32
  | .union, x, y => x ||| y
  | .difference, x, y => x &&& ~~~y
  | .intersection, x, y => x &&& y
  | .symmetric, x, y => x ^^^ y

theorem SetOp.onWords_wordOf (o : SetOp) (A B : Finset (Fin 32)) :
    o.onWords (wordOf A) (wordOf B) = wordOf (o.apply A B) := by
  apply members_injective
  rw [members_wordOf]
  cases o with
  | difference => rw [onWords, members_andNot, members_wordOf, members_wordOf, apply]
  | union | intersection | symmetric => simp [onWords, apply]

/-! ### In C -/

theorem convert_toInt (x : BitVec 32) : CIntType.uint.convert x.toInt = x.toNat := by
  rw [convert_eq_num]
  change ((BitVec.ofInt 32 x.toInt).toNat : Int) = x.toNat
  rw [BitVec.ofInt_toInt]

theorem convert_toNat (x : BitVec 32) : CIntType.uint.convert x.toNat = x.toNat :=
  CIntType.convert_of_fits (by decide) ⟨Int.natCast_nonneg _, by exact_mod_cast x.isLt⟩

/-- An operation on the bits of two words. -/
theorem bitwise_words (f : BitVec 32 → BitVec 32 → BitVec 32) (x y : BitVec 32) :
    bitwise .uint f (CIntType.uint.convert x.toNat) (CIntType.uint.convert y.toNat) =
      some (.int .uint (f x y).toNat) := by
  rw [convert_toNat, convert_toNat]
  change some (CValue.int .uint (CIntType.uint.convert
    (f (BitVec.ofInt 32 x.toNat) (BitVec.ofInt 32 y.toNat)).toInt)) = _
  rw [convert_toInt, BitVec.ofInt_natCast, BitVec.ofInt_natCast, BitVec.ofNat_toNat,
    BitVec.ofNat_toNat, BitVec.setWidth_eq, BitVec.setWidth_eq]

/-- Unsigned arithmetic wraps around. -/
theorem result_words {v : Int} {x : BitVec 32} (h : BitVec.ofInt 32 v = x) :
    result .uint v = some (.int .uint x.toNat) := by
  rw [result, if_neg (by simp [CIntType.uint]), ← h]
  change some (CValue.int .uint (v % 2 ^ 32)) = _
  rw [BitVec.toNat_ofInt, Int.toNat_of_nonneg (Int.emod_nonneg v (by decide))]
  rfl

variable {E : CEnv} {a c : Tree} {x y : BitVec 32}

/-- An operator that evaluates both of its operands. -/
def Strict (o : Binary) : Prop := o ≠ .logAnd ∧ o ≠ .logOr ∧ o ≠ .question

theorem eval_strict {o : Binary} (ho : Strict o) {t u : CIntType} {v w : Int}
    (ha : eval E a = some (.int t v)) (hc : eval E c = some (.int u w)) :
    eval E (.binary o a c) = arith o t v u w := by
  obtain ⟨hand, hor, hquestion⟩ := ho
  cases o <;> first | contradiction | simp only [eval, ha, hc]

theorem eval_or (ha : eval E a = some (.int .uint x.toNat))
    (hc : eval E c = some (.int .uint y.toNat)) :
    eval E (.binary .or a c) = some (.int .uint (x ||| y).toNat) := by
  simp only [eval, ha, hc]
  exact bitwise_words (· ||| ·) x y

theorem eval_and (ha : eval E a = some (.int .uint x.toNat))
    (hc : eval E c = some (.int .uint y.toNat)) :
    eval E (.binary .and a c) = some (.int .uint (x &&& y).toNat) := by
  simp only [eval, ha, hc]
  exact bitwise_words (· &&& ·) x y

theorem eval_xor (ha : eval E a = some (.int .uint x.toNat))
    (hc : eval E c = some (.int .uint y.toNat)) :
    eval E (.binary .xor a c) = some (.int .uint (x ^^^ y).toNat) := by
  simp only [eval, ha, hc]
  exact bitwise_words (· ^^^ ·) x y

theorem eval_compl (ha : eval E a = some (.int .uint x.toNat)) :
    eval E (.unary .compl a) = some (.int .uint (~~~x).toNat) := by
  simp only [eval, ha, CGrammar.compl]
  change some (CValue.int .uint (CIntType.uint.convert (~~~BitVec.ofInt 32 x.toNat).toInt)) = _
  rw [convert_toInt, BitVec.ofInt_natCast, BitVec.ofNat_toNat, BitVec.setWidth_eq]

theorem eval_add (ha : eval E a = some (.int .uint x.toNat))
    (hc : eval E c = some (.int .uint y.toNat)) :
    eval E (.binary .add a c) = some (.int .uint (x + y).toNat) := by
  simp only [eval, ha, hc, arith]
  change result .uint (CIntType.uint.convert x.toNat + CIntType.uint.convert y.toNat) = _
  rw [convert_toNat, convert_toNat]
  apply result_words
  rw [BitVec.ofInt_add, BitVec.ofInt_natCast, BitVec.ofInt_natCast]
  simp

theorem eval_sub (ha : eval E a = some (.int .uint x.toNat))
    (hc : eval E c = some (.int .uint y.toNat)) :
    eval E (.binary .sub a c) = some (.int .uint (x - y).toNat) := by
  simp only [eval, ha, hc, arith]
  change result .uint (CIntType.uint.convert x.toNat - CIntType.uint.convert y.toNat) = _
  rw [convert_toNat, convert_toNat]
  apply result_words
  rw [ofInt_sub, BitVec.ofInt_natCast, BitVec.ofInt_natCast]
  simp

theorem eval_mul (ha : eval E a = some (.int .uint x.toNat))
    (hc : eval E c = some (.int .uint y.toNat)) :
    eval E (.binary .mul a c) = some (.int .uint (x * y).toNat) := by
  simp only [eval, ha, hc, arith]
  change result .uint (CIntType.uint.convert x.toNat * CIntType.uint.convert y.toNat) = _
  rw [convert_toNat, convert_toNat]
  apply result_words
  rw [BitVec.ofInt_mul, BitVec.ofInt_natCast, BitVec.ofInt_natCast]
  simp

/-- A one shifted to a position. -/
theorem eval_shl {t : CIntType} {n : Nat} (hn : n ≤ 31) (hc : eval E c = some (.int t n)) :
    eval E (.binary .shl (.atom (.number "1u")) c) = some (.int .uint (1#32 <<< n).toNat) := by
  have hone : eval E (.atom (.number "1u")) = some (.int .uint 1) := by rfl
  have heval : eval E (.binary .shl (.atom (.number "1u")) c) = arith .shl .uint 1 t n :=
    eval_strict (by simp [Strict]) hone hc
  have hbits : 0 ≤ (n : Int) ∧ (n : Int) < CIntType.uint.promote.bits :=
    ⟨Int.natCast_nonneg n, by change (n : Int) < 32; omega⟩
  rw [heval, arith]
  simp only [if_pos hbits]
  apply result_words
  rw [Int.one_mul, Int.toNat_natCast]
  have hpow : BitVec.ofInt 32 ((2 ^ n : Nat) : Int) = 1#32 <<< n := by
    rw [BitVec.ofInt_natCast, ← BitVec.twoPow_eq]
    exact BitVec.eq_of_toNat_eq (by simp [BitVec.toNat_twoPow])
  exact_mod_cast hpow

/-- The bit at a position. -/
theorem eval_bit {t : CIntType} {n : Nat} (hn : n ≤ 31)
    (ha : eval E a = some (.int .uint x.toNat)) (hc : eval E c = some (.int t n)) :
    eval E (.binary .and (.binary .shr a c) (.atom (.number "1"))) =
      some (.int .uint (x >>> n &&& 1#32).toNat) := by
  have hone : eval E (.atom (.number "1")) = some (.int .int 1) := by rfl
  have hbits : 0 ≤ (n : Int) ∧ (n : Int) < CIntType.uint.promote.bits :=
    ⟨Int.natCast_nonneg n, by change (n : Int) < 32; omega⟩
  have hshift : eval E (.binary .shr a c) = some (.int .uint (x >>> n).toNat) := by
    have heval : eval E (.binary .shr a c) = arith .shr .uint x.toNat t n :=
      eval_strict (by simp [Strict]) ha hc
    rw [heval, arith]
    simp only [if_pos hbits]
    rw [Int.toNat_natCast, BitVec.toNat_ushiftRight, Nat.shiftRight_eq_div_pow]
    norm_cast
  have heval : eval E (.binary .and (.binary .shr a c) (.atom (.number "1"))) =
      arith .and .uint (x >>> n).toNat .int 1 :=
    eval_strict (by simp [Strict]) hshift hone
  rw [heval]
  exact bitwise_words (· &&& ·) (x >>> n) 1#32

theorem eval_strict_other {o : Binary} (ho : Strict o) (ha : eval E a = some .other)
    (hc : eval E c = some .other) : eval E (.binary o a c) = E.store (.binary o a c) := by
  obtain ⟨hand, hor, hquestion⟩ := ho
  cases o <;> first | contradiction | simp only [eval, ha, hc]

/-- An operator has no value if an operand has none. -/
theorem eval_strict_none {o : Binary} (ho : Strict o) (h : eval E a = none ∨ eval E c = none) :
    eval E (.binary o a c) = none := by
  obtain ⟨hand, hor, hquestion⟩ := ho
  rcases h with h | h
  · cases o <;> first | contradiction | simp only [eval, h]
  · rcases ha : eval E a with _ | ⟨t, v⟩ | _
    · cases o <;> first | contradiction | simp only [eval, ha]
    · cases o <;> first | contradiction | simp only [eval, ha, h]
    · cases o <;> first | contradiction | simp only [eval, ha, h]

end Words

/-! ## The C backend -/

section InC

variable {g : CodeGen} {E : CEnv} {b : HirBuilder} {loc : SourceLoc} {σ : SetState}

/-- The union of the sets of elements. -/
def SetState.unionOf (σ : SetState) (A : Finset (Fin 32)) (els : List HirSetElement) :
    Finset (Fin 32) := els.foldl (fun A el => A ∪ σ.covers el) A

theorem covers_single {e : HirExpr} (h : σ.value e ≤ 31) :
    σ.covers (.single e) = members (1#32 <<< σ.value e) := by
  have hlt : σ.value e < 32 := by omega
  rw [members_shiftLeft_one hlt]
  ext i
  simp [SetState.covers, Fin.ext_iff]

/-- The text of a single element has the bit of the element. -/
theorem eval_single {e : HirExpr} (hrange : σ.value e ≤ 31) (hvalue : g.HasValue E σ e) :
    eval E (Layout.tree (.paren (.binary .shl (.atom (.number "1u")) (g.exprText false e)))) =
      some (.int .uint (wordOf (σ.covers (.single e))).toNat) := by
  obtain ⟨t, ht⟩ := hvalue
  rw [covers_single hrange, wordOf_members]
  exact eval_shl hrange ht

/-- The text of a range has no value. -/
theorem eval_range (henv : PlainEnv E) (lo hi : HirExpr) :
    eval E (CodeGen.namedCall "m2_set_range"
      [g.exprText false lo, g.exprText false hi]).tree = none := by
  change eval E (.call (.atom (.ident "m2_set_range")) (.args _ _)) = none
  simp only [eval, henv.function_setRange, henv.store_setRange]

theorem eval_foldl_none : ∀ (ls : List Layout) (a : Layout), eval E a.tree = none →
    eval E (ls.foldl (.binary .or) a).tree = none := by
  intro ls
  induction ls with
  | nil => exact fun a ha => ha
  | cons l ls ih => exact fun a ha => ih _ (eval_strict_none (by simp [Strict]) (.inl ha))

/-- The disjunction of further elements with a text that has a value has the value of the union,
unless there is a range. -/
theorem eval_union (henv : PlainEnv E) {els : List HirSetElement} {a : Layout}
    {A : Finset (Fin 32)} (ha : eval E a.tree = some (.int .uint (wordOf A).toNat))
    (hrange : ∀ el ∈ els, σ.InRange el)
    (hvalue : ∀ el ∈ els, ∀ e ∈ el.bounds, g.HasValue E σ e) :
    (eval E ((g.elementTexts els).foldl (.binary .or) a).tree =
      some (.int .uint (wordOf (σ.unionOf A els)).toNat) ∧ ∀ el ∈ els, el.IsSingle) ∨
    (eval E ((g.elementTexts els).foldl (.binary .or) a).tree = none ∧
      ¬ ∀ el ∈ els, el.IsSingle) := by
  induction els generalizing a A with
  | nil => exact .inl ⟨ha, by simp⟩
  | cons el els ih =>
    obtain ⟨hel, hels⟩ := forall_mem_cons.mp hrange
    obtain ⟨hval, hvals⟩ := forall_mem_cons.mp hvalue
    cases el with
    | single e =>
      have hbit := eval_single hel (hval e (by simp [HirSetElement.bounds]))
      have hstep := eval_or ha hbit
      rw [show wordOf A ||| wordOf (σ.covers (.single e)) = wordOf (A ∪ σ.covers (.single e)) from
        SetOp.onWords_wordOf .union _ _] at hstep
      have hrest := ih (a := .binary .or a (.paren (.binary .shl (.atom (.number "1u"))
        (g.exprText false e)))) hstep hels hvals
      simpa [CodeGen.elementTexts, HirSetElement.IsSingle, SetState.unionOf] using hrest
    | range lo hi =>
      refine .inr ⟨?_, fun h => h _ mem_cons_self⟩
      rw [CodeGen.elementTexts, foldl_cons]
      exact eval_foldl_none _ _ (eval_strict_none (by simp [Strict]) (.inr (eval_range henv lo hi)))

/-- C is right about a set expression. -/
def CMeans (g : CodeGen) (E : CEnv) (b : HirBuilder) (loc : SourceLoc) (σ : SetState)
    (e : SetExpr) : Prop :=
  g.cValue E (e.hir b loc) = some (.int .uint (wordOf (σ.denotes e)).toNat)

theorem cMeans_constructor_iff (henv : PlainEnv E) {els : List HirSetElement}
    (hrange : ∀ el ∈ els, σ.InRange el)
    (hvalue : ∀ el ∈ els, ∀ e ∈ el.bounds, g.HasValue E σ e) :
    CMeans g E b loc σ (.constructor els) ↔ ∀ el ∈ els, el.IsSingle := by
  have htree : g.exprTree ((SetExpr.constructor els).hir b loc) =
      (CodeGen.unionText (g.elementTexts els)).tree := by
    simp [CodeGen.exprTree, SetExpr.hir, CodeGen.exprText]
  rw [CMeans, CodeGen.cValue, htree]
  cases els with
  | nil =>
    have hzero : wordOf (σ.denotes (.constructor [])) = 0#32 :=
      wordOf_eq_iff.mpr (by simp [SetState.denotes])
    simp only [hzero, not_mem_nil, false_implies, implies_true, iff_true]
    rfl
  | cons el els =>
    obtain ⟨hel, hels⟩ := forall_mem_cons.mp hrange
    obtain ⟨hval, hvals⟩ := forall_mem_cons.mp hvalue
    cases el with
    | single e =>
      have hbit := eval_single hel (hval e (by simp [HirSetElement.bounds]))
      have hunion := eval_union henv hbit hels hvals
      have hdenotes : σ.denotes (.constructor (.single e :: els)) =
          σ.unionOf (σ.covers (.single e)) els := by
        simp [SetState.denotes, SetState.unionOf]
      rw [hdenotes]
      simp only [forall_mem_cons, HirSetElement.IsSingle, true_and]
      rcases hunion with ⟨hvalue, hsingle⟩ | ⟨hnone, hranges⟩
      · exact iff_of_true hvalue hsingle
      · refine iff_of_false (fun h => ?_) hranges
        exact Option.some_ne_none _ (h.symm.trans hnone)
    | range lo hi =>
      refine iff_of_false (fun h => ?_) fun h => h _ mem_cons_self
      have hnone := eval_foldl_none (g.elementTexts els) _ (eval_range (g := g) henv lo hi)
      exact Option.some_ne_none _ (h.symm.trans hnone)

theorem exprTree_binary {op : BinaryOp} (hop : CodeGen.isComparison op = false) (l r : HirExpr)
    (ty : TypeId) : g.exprTree ⟨.binaryOp op l r, ty, loc⟩ =
      (CodeGen.binaryText (g.exprText false l) (g.exprText false r)
        (g.types.selectBinaryOp op l.ty r.ty)).tree := by
  simp [CodeGen.exprTree, CodeGen.exprText, hop]

theorem eval_quotient_ne (henv : PlainEnv E) (a c : Layout) {t : CIntType} {v : Int} :
    eval E (CodeGen.binaryText a c .realDiv).tree ≠ some (.int t v) := by
  have hcast : ∀ (l : Layout) (t : CIntType) (v : Int),
      eval E (.cast "double" l.tree) ≠ some (.int t v) := by
    intro l t v
    simp only [eval, henv.castType_double]
    rcases eval E l.tree with _ | ⟨u, w⟩ | _
    · simp
    · exact henv.store_double _ t v
    · exact henv.store_double _ t v
  change eval E (.binary .div (.cast "double" a.tree) (.cast "double" c.tree)) ≠ _
  rcases ha : eval E (.cast "double" a.tree) with _ | ⟨u, w⟩ | _
  · rw [eval_strict_none (by simp [Strict]) (.inl ha)]
    simp
  · exact absurd ha (hcast a u w)
  · rcases hc : eval E (.cast "double" c.tree) with _ | ⟨u, w⟩ | _
    · rw [eval_strict_none (by simp [Strict]) (.inr hc)]
      simp
    · exact absurd hc (hcast c u w)
    · rw [eval_strict_other (by simp [Strict]) ha hc]
      exact henv.store_quotient _ _ t v

/-! ### Types of set expressions -/

theorem isHirComplex_setType {reg : TypeRegistry} {ty : TypeId} (h : reg.IsSetType ty) :
    reg.isHirComplex ty = false := by
  obtain ⟨n, t, hchain, hset⟩ := h
  have hget : (reg.get t).isSet = true ∨ reg.get t = .bitset := by
    simp only [TypeRegistry.isHirSet, Bool.or_eq_true, beq_iff_eq] at hset
    rcases hset with rfl | hset
    · exact .inr (TypeRegistry.get_builtin reg (by decide))
    · exact .inl hset
  have hfollow : ∀ k, reg.followAliases k t = t := by
    intro k
    cases k with
    | zero => rfl
    | succ k =>
      rw [TypeRegistry.followAliases]
      split
      · next halias => simp [halias, RegType.isSet] at hget
      · rfl
  rw [hchain.isHirComplex_eq, TypeRegistry.complexWithin, hfollow]
  rcases hget with h | h
  · cases hreg : reg.get t <;> simp_all [RegType.isSet, RegType.isComplex]
  · simp [h, RegType.isComplex]

/-- No set expression is taken for a complex number. -/
theorem isHirComplex_hir {e : SetExpr} (h : e.Proper b.types σ) :
    b.types.isHirComplex (e.hir b loc).ty = false := by
  have hbuiltin : ∀ k, k = tyBitset ∨ k = tyReal ∨ k = tyLongReal ∨ k = tyLongInt →
      b.types.isHirComplex k = false := by
    intro k hk
    have hget : b.types.get k = builtinTypes.getD k .error :=
      TypeRegistry.get_builtin _ (by rcases hk with rfl | rfl | rfl | rfl <;> decide)
    have hfollow : b.types.followAliases 51 k = k := by
      rw [TypeRegistry.followAliases, hget]
      rcases hk with rfl | rfl | rfl | rfl <;> rfl
    rw [TypeRegistry.isHirComplex, TypeRegistry.resolveHirAlias, hfollow, hget]
    rcases hk with rfl | rfl | rfl | rfl <;> rfl
  induction e with
  | «variable» p ty => exact isHirComplex_setType h
  | constructor els => exact hbuiltin _ (.inl rfl)
  | binary o l r ihl ihr =>
    have hl := ihl h.1
    cases o <;> simp only [SetExpr.hir, SetOp.op, HirBuilder.binaryResultType,
      TypeRegistry.binaryResultType] <;> split_ifs <;>
      first | exact hl | exact hbuiltin _ (by simp)

/-! ### Operators -/

variable {l r : SetExpr} {x y : BitVec 32}

/-- A recognized operator has the value of the set operation. -/
theorem cValue_recognized (htypes : g.types = b.types) {o : SetOp}
    (hl : g.cValue E (l.hir b loc) = some (.int .uint x.toNat))
    (hr : g.cValue E (r.hir b loc) = some (.int .uint y.toNat))
    (h : l.recognized b loc r = true) :
    g.cValue E ((SetExpr.binary o l r).hir b loc) = some (.int .uint (o.onWords x y).toNat) := by
  have hop : CodeGen.isComparison o.op = false := by cases o <;> rfl
  rw [CodeGen.cValue, SetExpr.hir, exprTree_binary hop, htypes]
  rw [SetExpr.recognized] at h
  cases o with
  | union =>
    rw [SetOp.op, TypeRegistry.selectBinaryOp, if_pos h]
    exact eval_or hl hr
  | difference =>
    rw [SetOp.op, TypeRegistry.selectBinaryOp, if_pos h]
    exact eval_and hl (eval_compl hr)
  | intersection =>
    rw [SetOp.op, TypeRegistry.selectBinaryOp, if_pos h]
    exact eval_and hl hr
  | symmetric =>
    rw [SetOp.op, TypeRegistry.selectBinaryOp, if_pos h]
    exact eval_xor hl hr

/-- Any other operator is the arithmetic on the words. -/
theorem cValue_arithmetic (henv : PlainEnv E) (htypes : g.types = b.types) {o : SetOp}
    (hproper : l.Proper b.types σ)
    (hl : g.cValue E (l.hir b loc) = some (.int .uint x.toNat))
    (hr : g.cValue E (r.hir b loc) = some (.int .uint y.toNat))
    (h : l.recognized b loc r = false) (z : BitVec 32) :
    g.cValue E ((SetExpr.binary o l r).hir b loc) = some (.int .uint z.toNat) ↔
      o.arithmetic x y = some z := by
  have hop : CodeGen.isComparison o.op = false := by cases o <;> rfl
  have hcomplex : b.types.isHirComplex (l.hir b loc).ty = false := isHirComplex_hir hproper
  have hword : ∀ {w : BitVec 32}, some (CValue.int .uint w.toNat) = some (.int .uint z.toNat) ↔
      some w = some z := by
    intro w
    simp [BitVec.toNat_inj]
  rw [CodeGen.cValue, SetExpr.hir, exprTree_binary hop, htypes]
  rw [SetExpr.recognized] at h
  cases o with
  | union =>
    rw [SetOp.op, TypeRegistry.selectBinaryOp, h, hcomplex, SetOp.arithmetic, ← hword]
    exact Iff.of_eq (congrArg (· = _) (eval_add hl hr))
  | difference =>
    rw [SetOp.op, TypeRegistry.selectBinaryOp, h, hcomplex, SetOp.arithmetic, ← hword]
    exact Iff.of_eq (congrArg (· = _) (eval_sub hl hr))
  | intersection =>
    rw [SetOp.op, TypeRegistry.selectBinaryOp, h, hcomplex, SetOp.arithmetic, ← hword]
    exact Iff.of_eq (congrArg (· = _) (eval_mul hl hr))
  | symmetric =>
    rw [SetOp.op, TypeRegistry.selectBinaryOp, h, hcomplex, SetOp.arithmetic]
    exact iff_of_false (eval_quotient_ne henv _ _) (by simp)

/-- C is right about every part of an expression just if the expression is sound and has no
range. -/
theorem cMeans_subs_iff (henv : PlainEnv E) (htypes : g.types = b.types) {e : SetExpr}
    (hproper : e.Proper b.types σ) (hstored : e.Stored g E σ) :
    (∀ s ∈ e.subs, CMeans g E b loc σ s) ↔ e.Sound b loc σ HirSetElement.IsSingle := by
  refine SetExpr.subs_iff (fun e => e.Proper b.types σ ∧ e.Stored g E σ) ?_ ?_ ?_ ?_ e
    ⟨hproper, hstored⟩
  · exact fun o l r h => ⟨⟨h.1.1, h.2.1⟩, h.1.2, h.2.2⟩
  · intro p ty h
    have hvalue : g.cValue E ((SetExpr.variable p ty).hir b loc) =
        some (.int .uint (σ.word p).toNat) := by
      rw [CodeGen.cValue, CodeGen.exprTree, SetExpr.hir, CodeGen.exprText]
      exact h.2
    rw [CMeans, hvalue, SetState.denotes, wordOf_members]
  · exact fun els h => cMeans_constructor_iff henv h.1 h.2
  · intro o l r h hl hr
    rw [CMeans]
    cases hrec : l.recognized b loc r with
    | true =>
      rw [cValue_recognized htypes hl hr hrec, SetOp.onWords_wordOf]
      simp [SetState.denotes]
    | false =>
      rw [cValue_arithmetic henv htypes h.1.1 hl hr hrec]
      simp [SetState.denotes]

/-! ### Tests -/

/-- C is right about a test. -/
def CTests (g : CodeGen) (E : CEnv) (b : HirBuilder) (loc : SourceLoc) (σ : SetState)
    (t : SetTest) : Prop :=
  ∃ ty, g.cValue E (t.hir b loc) = some (.int ty (if σ.truth t then 1 else 0))

theorem scalarText_hir (e : SetExpr) (a : Layout) :
    CodeGen.scalarText (e.hir b loc) a = a := by
  cases e <;> rfl

theorem exprTree_compare {op : BinaryOp} (hop : CodeGen.isComparison op = true) (l r : SetExpr)
    (ty : TypeId) : g.exprTree ⟨.binaryOp op (l.hir b loc) (r.hir b loc), ty, loc⟩ =
      (CodeGen.binaryText (g.exprText false (l.hir b loc)) (g.exprText false (r.hir b loc))
        (g.types.selectBinaryOp op (l.hir b loc).ty (r.hir b loc).ty)).tree := by
  simp [CodeGen.exprTree, CodeGen.exprText, hop, scalarText_hir]

/-- Whether a comparison of words is what the relation asks for. -/
def SetRelation.onWords (unsigned : Bool) (x y : BitVec 32) : SetRelation → Bool
  | .equal => x == y
  | .unequal => x != y
  | .subset => wordLe unsigned x y
  | .superset => wordLe unsigned y x

/-- The comparison of the words of two sets is right just if the order of words is. -/
theorem SetRelation.onWords_iff (o : SetRelation) (unsigned : Bool) (A B : Finset (Fin 32)) :
    o.onWords unsigned (wordOf A) (wordOf B) = o.holds A B ↔ o.Ordered unsigned A B := by
  have hinj : wordOf A = wordOf B ↔ A = B := by
    rw [wordOf_eq_iff, members_wordOf]
  rw [Bool.eq_iff_iff]
  cases o with
  | equal | unequal => simp [onWords, holds, Ordered, hinj]
  | subset | superset => simp [onWords, holds, Ordered, iff_comm]

/-- A comparison compares the words as unsigned numbers. -/
theorem cValue_compare (htypes : g.types = b.types) (o : SetRelation) (hproper : l.Proper b.types σ)
    (hl : g.cValue E (l.hir b loc) = some (.int .uint x.toNat))
    (hr : g.cValue E (r.hir b loc) = some (.int .uint y.toNat)) :
    g.cValue E ((SetTest.compare o l r).hir b loc) = CGrammar.truth (o.onWords true x y) := by
  have hop : CodeGen.isComparison o.op = true := by cases o <;> rfl
  have hcomplex : b.types.isHirComplex (l.hir b loc).ty = false := isHirComplex_hir hproper
  rw [CodeGen.cValue, SetTest.hir, exprTree_compare hop, htypes]
  have harith : ∀ c : Binary, Strict c →
      eval E (.binary c (g.exprText false (l.hir b loc)).tree
        (g.exprText false (r.hir b loc)).tree) =
        arith c .uint x.toNat .uint y.toNat := fun c hc => eval_strict hc hl hr
  have hcommon : CIntType.common .uint .uint = .uint := by decide
  cases o with
  | equal =>
    rw [SetRelation.op, TypeRegistry.selectBinaryOp, hcomplex]
    refine (harith .eq (by simp [Strict])).trans ?_
    rw [arith, hcommon, convert_toNat, convert_toNat]
    congr 1
    rw [SetRelation.onWords, Bool.eq_iff_iff]
    simp [BitVec.toNat_inj]
  | unequal =>
    rw [SetRelation.op, TypeRegistry.selectBinaryOp, hcomplex]
    refine (harith .ne (by simp [Strict])).trans ?_
    rw [arith, hcommon, convert_toNat, convert_toNat]
    congr 1
    rw [SetRelation.onWords, Bool.eq_iff_iff]
    simp [BitVec.toNat_inj]
  | subset =>
    refine (harith .le (by simp [Strict])).trans ?_
    rw [arith, hcommon, convert_toNat, convert_toNat]
    congr 1
    simp [SetRelation.onWords, wordLe, BitVec.ule]
  | superset =>
    refine (harith .ge (by simp [Strict])).trans ?_
    rw [arith, hcommon, convert_toNat, convert_toNat]
    congr 1
    simp [SetRelation.onWords, wordLe, BitVec.ule]

/-- The test for an element is right. -/
theorem truth_member {e : HirExpr} {A : Finset (Fin 32)} (hrange : σ.value e ≤ 31) :
    wordOf A >>> σ.value e &&& 1#32 = if ∃ i ∈ A, i.val = σ.value e then 1#32 else 0#32 := by
  have hlt : σ.value e < 32 := by omega
  rw [ushiftRight_and_one hlt, members_wordOf]
  have hmem : (⟨σ.value e, hlt⟩ : Fin 32) ∈ A ↔ ∃ i ∈ A, i.val = σ.value e := by
    constructor
    · exact fun h => ⟨_, h, rfl⟩
    · rintro ⟨i, hi, hval⟩
      rwa [show (⟨σ.value e, hlt⟩ : Fin 32) = i from Fin.ext hval.symm]
  simp only [hmem]

/-- The condition on a test itself: an inclusion agrees with the order of the words. -/
def SetTest.COrdered (σ : SetState) : SetTest → Prop
  | .compare o s t => o.Ordered true (σ.denotes s) (σ.denotes t)
  | .member _ _ => True

/-- With the parts right, a test is right just if the order of words is. -/
theorem cTests_iff (htypes : g.types = b.types) {t : SetTest} (hproper : t.Proper b.types σ)
    (hstored : t.Stored g E σ) (hsubs : ∀ s ∈ t.subs, CMeans g E b loc σ s) :
    CTests g E b loc σ t ↔ t.COrdered σ := by
  cases t with
  | compare o s t =>
    have hs := hsubs s (by simp [SetTest.subs, s.mem_subs])
    have ht := hsubs t (by simp [SetTest.subs, t.mem_subs])
    rw [CTests, cValue_compare htypes o hproper.1 hs ht, SetTest.COrdered,
      ← SetRelation.onWords_iff, SetState.truth, CGrammar.truth]
    generalize o.onWords true _ _ = p
    generalize o.holds _ _ = q
    cases p <;> cases q <;> simp
  | member e s =>
    have hs := hsubs s (by simp [SetTest.subs, s.mem_subs])
    obtain ⟨⟨u, hu⟩, -⟩ := hstored
    have htree : g.cValue E ((SetTest.member e s).hir b loc) = some (.int .uint
        (wordOf (σ.denotes s) >>> σ.value e &&& 1#32).toNat) := by
      rw [CodeGen.cValue, SetTest.hir, exprTree_binary rfl]
      exact eval_bit hproper.1 hs hu
    rw [CTests, htree, truth_member hproper.1, SetTest.COrdered, iff_true]
    refine ⟨.uint, ?_⟩
    simp only [SetState.truth, decide_eq_true_eq]
    split_ifs <;> rfl

end InC

end Mx

import Mx.Codegen.SetInC

/-!
# Set algebra in both backends

The LLVM instructions of a set expression, and the condition under which both backends compute the
set that an expression denotes and decide what a test asks.
-/

namespace Mx

open CGrammar Mx.Core HirBuild List

section InLlvm

variable {b : HirBuilder} {loc : SourceLoc} {σ : SetState} {depth : Nat}

/-! ## Elements -/

theorem asI32_of_direct {e : HirExpr} (h : (σ.operand e).Direct) :
    (σ.operand e).asI32 = some (BitVec.ofNat 32 (σ.value e)) := if_pos h

theorem asI32_of_not_direct {x : Operand} (h : ¬ x.Direct) : x.asI32 = none := if_neg h

theorem toNat_ofNat_small {n : Nat} (h : n ≤ 32) : (BitVec.ofNat 32 n).toNat = n := by
  rw [BitVec.toNat_ofNat]
  exact Nat.mod_eq_of_lt (by omega)

theorem shl_of_le (x : BitVec 32) {n : Nat} (h : n ≤ 31) :
    shl x (BitVec.ofNat 32 n) = some (x <<< n) := by
  rw [shl, toNat_ofNat_small (by omega), if_pos (by omega)]

/-- The number of elements of a range. -/
theorem range_count {low high : Nat} (h : low ≤ high) (hhigh : high ≤ 31) :
    BitVec.ofNat 32 high - BitVec.ofNat 32 low + 1 = BitVec.ofNat 32 (high - low + 1) := by
  apply BitVec.eq_of_toNat_eq
  rw [BitVec.toNat_add, BitVec.toNat_sub, toNat_ofNat_small (n := high) (by omega),
    toNat_ofNat_small (n := low) (by omega), toNat_ofNat_small (by omega)]
  have hone : (1 : BitVec 32).toNat = 1 := rfl
  rw [hone]
  omega

/-- The bits of an element that can be shifted. -/
theorem elementBits_of_shiftable {el : HirSetElement} (hrange : σ.InRange el)
    (h : σ.Shiftable el) : σ.elementBits el = some (wordOf (σ.covers el)) := by
  cases el with
  | single e =>
    rw [covers_single hrange, wordOf_members, SetState.elementBits, asI32_of_direct h]
    exact shl_of_le 1 hrange
  | range lo hi =>
    obtain ⟨hle, hhigh⟩ := hrange
    obtain ⟨⟨hlo, hhi⟩, hfull⟩ := h
    have hcount : σ.value hi - σ.value lo + 1 < 32 := by omega
    have hcovers : σ.covers (.range lo hi) =
        members ((1#32 <<< (σ.value hi - σ.value lo + 1) - 1#32) <<< σ.value lo) := by
      rw [members_ones_shiftLeft hcount]
      ext i
      simp only [SetState.covers, Finset.mem_filter, Finset.mem_univ, true_and]
      omega
    rw [hcovers, wordOf_members, SetState.elementBits, asI32_of_direct hlo, asI32_of_direct hhi]
    simp only [Option.bind_eq_bind, Option.bind_some]
    rw [range_count hle hhigh, shl_of_le 1 (by omega)]
    exact shl_of_le _ (by omega)

/-- Any other element has none. -/
theorem elementBits_of_not_shiftable {el : HirSetElement} (hrange : σ.InRange el)
    (h : ¬ σ.Shiftable el) : σ.elementBits el = none := by
  cases el with
  | single e =>
    rw [SetState.elementBits, asI32_of_not_direct h]
    rfl
  | range lo hi =>
    obtain ⟨hle, hhigh⟩ := hrange
    by_cases hlo : (σ.operand lo).Direct
    · by_cases hhi : (σ.operand hi).Direct
      · -- the full range shifts by the width
        have hfull : σ.value lo = 0 ∧ σ.value hi = 31 := by
          by_contra hnot
          exact h ⟨⟨hlo, hhi⟩, hnot⟩
        rw [SetState.elementBits, asI32_of_direct hlo, asI32_of_direct hhi, hfull.1, hfull.2]
        rfl
      · rw [SetState.elementBits, asI32_of_not_direct hhi, asI32_of_direct hlo]
        rfl
    · rw [SetState.elementBits, asI32_of_not_direct hlo]
      rfl

/-- The disjunction of the bits of the elements. -/
theorem foldlM_elementBits {els : List HirSetElement} (A : Finset (Fin 32))
    (hrange : ∀ el ∈ els, σ.InRange el) :
    els.foldlM (fun x el => do
      let bits ← σ.elementBits el
      pure (x ||| bits)) (wordOf A) = some (wordOf (σ.unionOf A els)) ∧
        (∀ el ∈ els, σ.Shiftable el) ∨
    els.foldlM (fun x el => do
      let bits ← σ.elementBits el
      pure (x ||| bits)) (wordOf A) = none ∧ ¬ ∀ el ∈ els, σ.Shiftable el := by
  induction els generalizing A with
  | nil => exact .inl ⟨rfl, by simp⟩
  | cons el els ih =>
    obtain ⟨hel, hels⟩ := forall_mem_cons.mp hrange
    rw [foldlM_cons, forall_mem_cons]
    by_cases h : σ.Shiftable el
    · rw [elementBits_of_shiftable hel h]
      have hunion : wordOf A ||| wordOf (σ.covers el) = wordOf (A ∪ σ.covers el) :=
        SetOp.onWords_wordOf .union _ _
      simp only [Option.bind_eq_bind, Option.bind_some, Option.pure_def, hunion, h, true_and]
      exact ih _ hels
    · rw [elementBits_of_not_shiftable hel h]
      exact .inr ⟨rfl, fun hall => h hall.1⟩

/-! ## Expressions -/

variable (b loc σ depth) in
/-- LLVM is right about a set expression. -/
def LlvmMeans (e : SetExpr) : Prop :=
  σ.llvmValue b loc depth e = some ⟨32, wordOf (σ.denotes e)⟩

theorem llvmMeans_constructor_iff {els : List HirSetElement} (hrange : ∀ el ∈ els, σ.InRange el) :
    LlvmMeans b loc σ depth (.constructor els) ↔ ∀ el ∈ els, σ.Shiftable el := by
  have hzero : wordOf (∅ : Finset (Fin 32)) = 0 := wordOf_eq_iff.mpr members_zero.symm
  have hfold := foldlM_elementBits ∅ hrange
  rw [hzero] at hfold
  rw [LlvmMeans, SetState.llvmValue]
  rcases hfold with ⟨hvalue, hall⟩ | ⟨hnone, hnot⟩
  · rw [hvalue]
    exact iff_of_true rfl hall
  · rw [hnone]
    exact iff_of_false (fun h => nomatch h) hnot

variable {x y : BitVec 32} {lt rt : TypeId} {reg : TypeRegistry}

theorem coerce_word (unsigned : Bool) : (⟨32, x⟩ : IntN).coerce unsigned 32 = x := by
  simp [IntN.coerce]

/-- A recognized operator works on the words. -/
theorem genSetBinaryOp_recognized (o : SetOp) (h : (reg.isHirSet lt || reg.isHirSet rt) = true) :
    genSetBinaryOp reg depth o.op ⟨32, x⟩ ⟨32, y⟩ lt rt = some ⟨32, o.onWords x y⟩ := by
  cases o <;>
    (simp [genSetBinaryOp, binaryRegister, SetOp.op, SetOp.onWords, commonType, coerce_word, h]
     rfl)

/-- Any other operator is the arithmetic on the words. -/
theorem genSetBinaryOp_arithmetic (o : SetOp) (h : (reg.isHirSet lt || reg.isHirSet rt) = false) :
    genSetBinaryOp reg depth o.op ⟨32, x⟩ ⟨32, y⟩ lt rt =
      (o.arithmetic x y).map fun z => ⟨32, z⟩ := by
  cases o with
  | symmetric => simp [genSetBinaryOp, SetOp.op, SetOp.arithmetic, h]
  | union | difference | intersection =>
    simp [genSetBinaryOp, binaryRegister, SetOp.op, SetOp.arithmetic, commonType, coerce_word, h]
    rfl

/-- LLVM is right about every part of an expression just if the expression is sound and its
elements can be shifted. -/
theorem llvmMeans_subs_iff {e : SetExpr} (hproper : e.Proper b.types σ) :
    (∀ s ∈ e.subs, LlvmMeans b loc σ depth s) ↔ e.Sound b loc σ σ.Shiftable := by
  refine SetExpr.subs_iff (SetExpr.Proper b.types σ) ?_ ?_ ?_ ?_ e hproper
  · exact fun o l r h => h
  · intro p ty _
    rw [LlvmMeans, SetState.llvmValue, SetState.denotes, wordOf_members]
  · exact fun els h => llvmMeans_constructor_iff h
  · intro o l r _ hl hr
    rw [LlvmMeans] at hl hr ⊢
    rw [SetState.llvmValue, hl, hr]
    simp only [Option.bind_eq_bind, Option.bind_some]
    cases hrec : l.recognized b loc r with
    | true =>
      rw [genSetBinaryOp_recognized o hrec, SetOp.onWords_wordOf]
      simp [SetState.denotes]
    | false =>
      rw [genSetBinaryOp_arithmetic o hrec]
      cases o.arithmetic (wordOf (σ.denotes l)) (wordOf (σ.denotes r)) <;>
        simp [SetState.denotes]

/-! ## Tests -/

variable (b loc σ depth) in
/-- LLVM is right about a test. -/
def LlvmTests (t : SetTest) : Prop :=
  σ.llvmTest b loc depth t = some ⟨32, if σ.truth t then 1 else 0⟩

variable (b loc σ depth) in
/-- The condition on a test itself: an inclusion agrees with the order of the words, which is
that of unsigned numbers if the type of an operand is unsigned, and an element is not of 64
bits. -/
def SetTest.LlvmOrdered : SetTest → Prop
  | .compare o s t =>
    o.Ordered (b.types.isUnsignedType depth (s.hir b loc).ty ||
      b.types.isUnsignedType depth (t.hir b loc).ty) (σ.denotes s) (σ.denotes t)
  | .member e _ => (σ.operand e).width ≠ 64

theorem genSetBinaryOp_compare (o : SetRelation) :
    genSetBinaryOp reg depth o.op ⟨32, x⟩ ⟨32, y⟩ lt rt =
      icmp (o.onWords (reg.isUnsignedType depth lt || reg.isUnsignedType depth rt) x y) := by
  cases o with
  | equal | unequal =>
    simp [genSetBinaryOp, binaryRegister, SetRelation.op, SetRelation.onWords, commonType,
      coerce_word]
    rfl
  | subset | superset =>
    simp [genSetBinaryOp, binaryRegister, SetRelation.op, SetRelation.onWords, wordLe, commonType,
      coerce_word]

/-- A literal or register of less than 64 bits is extended to the word of its value. -/
theorem coerce_operand (p : Operand) (unsigned : Bool) (h : p.value ≤ 31) :
    (p.intN.coerce unsigned 32).toNat = p.value := by
  have hpow : 2 ^ 8 ≤ 2 ^ p.width := Nat.pow_le_pow_right (by decide) p.wide
  have hnat : (BitVec.ofNat p.width p.value).toNat = p.value := by
    rw [BitVec.toNat_ofNat]
    exact Nat.mod_eq_of_lt (by omega)
  have hint : (BitVec.ofNat p.width p.value).toInt = p.value := by
    rw [BitVec.toInt_eq_toNat_of_lt (by rw [hnat]; omega), hnat]
  have hnum : p.intN.num (!unsigned) = p.value := by
    cases unsigned with
    | true => exact congrArg Int.ofNat hnat
    | false => exact hint
  rw [IntN.coerce_eq, hnum, BitVec.ofInt_natCast]
  exact toNat_ofNat_small (by omega)

/-- The test for an element, in a set of 32 bits. -/
theorem genSetBinaryOp_member (p : Operand) (h : p.value ≤ 31) :
    genSetBinaryOp reg depth .isIn p.intN ⟨32, x⟩ lt rt =
      if p.width = 64 then none else some ⟨32, (x >>> p.value) &&& 1⟩ := by
  simp only [genSetBinaryOp]
  by_cases h64 : p.width = 64
  · rw [if_pos h64, if_neg (by simp [commonType, Operand.intN, h64])]
  · have hcommon : commonType p.intN.width 32 = 32 := by
      by_cases h32 : p.width = 32 <;> simp [commonType, Operand.intN, h32, h64]
    rw [if_neg h64, hcommon, if_pos rfl, coerce_operand p _ h, coerce_word,
      if_pos (Nat.lt_succ_of_le h)]

/-- With the parts right, a test is right just if the order of words is and no element has 64
bits. -/
theorem llvmTests_iff {t : SetTest} (hproper : t.Proper b.types σ)
    (hsubs : ∀ s ∈ t.subs, LlvmMeans b loc σ depth s) :
    LlvmTests b loc σ depth t ↔ t.LlvmOrdered b loc σ depth := by
  cases t with
  | compare o s t =>
    have hs := hsubs s (by simp [SetTest.subs, s.mem_subs])
    have ht := hsubs t (by simp [SetTest.subs, t.mem_subs])
    rw [LlvmMeans] at hs ht
    rw [LlvmTests, SetState.llvmTest, hs, ht]
    simp only [Option.bind_eq_bind, Option.bind_some]
    rw [genSetBinaryOp_compare, SetTest.LlvmOrdered, ← SetRelation.onWords_iff, SetState.truth,
      icmp]
    generalize o.onWords _ _ _ = p
    generalize o.holds _ _ = q
    cases p <;> cases q <;> simp
  | member e s =>
    have hs := hsubs s (by simp [SetTest.subs, s.mem_subs])
    rw [LlvmMeans] at hs
    rw [LlvmTests, SetState.llvmTest, hs]
    simp only [Option.bind_eq_bind, Option.bind_some]
    rw [genSetBinaryOp_member _ hproper.1, SetTest.LlvmOrdered]
    by_cases hwidth : (σ.operand e).width = 64
    · rw [if_pos hwidth]
      exact iff_of_false (fun h => Option.some_ne_none _ h.symm) (not_not.mpr hwidth)
    · rw [if_neg hwidth]
      refine iff_of_true ?_ hwidth
      have hbit := truth_member (A := σ.denotes s) hproper.1
      have htruth : (σ.truth (.member e s) = true) ↔ ∃ i ∈ σ.denotes s, i.val = σ.value e := by
        simp [SetState.truth]
      simp only [htruth]
      exact congrArg (fun z => some (⟨32, z⟩ : IntN)) hbit

end InLlvm

/-! ## Both backends -/

section Both

variable (g : CodeGen) (E : CEnv) (b : HirBuilder) (loc : SourceLoc) (σ : SetState) (depth : Nat)

/-- Both backends compute the set of an expression and of each of its parts, and C reads the
expression as what it was written for. -/
def SetExpr.Computed (e : SetExpr) : Prop :=
  Derives 2 (tokenize (g.hirExprToString (e.hir b loc))) (g.exprTree (e.hir b loc)) ∧
    (∀ s ∈ e.subs, CMeans g E b loc σ s) ∧ ∀ s ∈ e.subs, LlvmMeans b loc σ depth s

/-- Both backends decide a test and compute the sets in it, and C reads the test as what it was
written for. -/
def SetTest.Computed (t : SetTest) : Prop :=
  Derives 2 (tokenize (g.hirExprToString (t.hir b loc))) (g.exprTree (t.hir b loc)) ∧
    ((∀ s ∈ t.subs, CMeans g E b loc σ s) ∧ CTests g E b loc σ t) ∧
    (∀ s ∈ t.subs, LlvmMeans b loc σ depth s) ∧ LlvmTests b loc σ depth t

/-- The sets in a test are sound. -/
def SetTest.Sound (element : HirSetElement → Prop) : SetTest → Prop
  | .compare _ s t => s.Sound b loc σ element ∧ t.Sound b loc σ element
  | .member _ s => s.Sound b loc σ element

/-- The condition on an expression: its texts keep their operands together, no constructor has a
range or an element in a register of another type than `i32`, and every operator is recognized
as one on sets or coincides with the arithmetic on words. -/
def SetExpr.Emittable (e : SetExpr) : Prop :=
  CodeGen.KeepsTree g .value (e.hir b loc) ∧
    e.Sound b loc σ HirSetElement.IsSingle ∧ e.Sound b loc σ σ.Shiftable

/-- The condition on a test: that on its sets, with each inclusion in agreement with the order of
the words in both backends, and no element of 64 bits. -/
def SetTest.Emittable (t : SetTest) : Prop :=
  CodeGen.KeepsTree g .value (t.hir b loc) ∧
    (t.Sound b loc σ HirSetElement.IsSingle ∧ t.COrdered σ) ∧
    t.Sound b loc σ σ.Shiftable ∧ t.LlvmOrdered b loc σ depth

variable {g E b loc σ depth}

theorem derives_iff_keepsTree (e : HirExpr) :
    Derives 2 (tokenize (g.hirExprToString e)) (g.exprTree e) ↔ g.KeepsTree .value e := by
  have hfits := Layout.fits_iff_parses (g.two_le_strength .value e)
  rw [CodeGen.hirExprToString, CodeGen.exprTree, Layout.derives_text_iff_fits]
  exact hfits.trans (g.parses_textAt e .value)

theorem SetTest.subs_iff {Means : SetExpr → Prop} {element : HirSetElement → Prop}
    (h : ∀ e : SetExpr, e.Proper b.types σ → e.Stored g E σ →
      ((∀ s ∈ e.subs, Means s) ↔ e.Sound b loc σ element))
    {t : SetTest} (hproper : t.Proper b.types σ) (hstored : t.Stored g E σ) :
    (∀ s ∈ t.subs, Means s) ↔ t.Sound b loc σ element := by
  cases t with
  | compare o s t =>
    rw [SetTest.subs, forall_mem_append, SetTest.Sound, h s hproper.1 hstored.1,
      h t hproper.2 hstored.2]
  | member e s => exact h s hproper.2 hstored.2

/-- Both backends compute a set expression and all of its parts just if it is emittable, and
decide a test just if it is. -/
theorem set_algebra_iff (henv : PlainEnv E) (htypes : g.types = b.types) :
    (∀ e : SetExpr, e.Proper b.types σ → e.Stored g E σ →
      (e.Computed g E b loc σ depth ↔ e.Emittable g b loc σ)) ∧
    ∀ t : SetTest, t.Proper b.types σ → t.Stored g E σ →
      (t.Computed g E b loc σ depth ↔ t.Emittable g b loc σ depth) := by
  have hc : ∀ e : SetExpr, e.Proper b.types σ → e.Stored g E σ →
      ((∀ s ∈ e.subs, CMeans g E b loc σ s) ↔ e.Sound b loc σ HirSetElement.IsSingle) :=
    fun e => cMeans_subs_iff henv htypes
  have hllvm : ∀ e : SetExpr, e.Proper b.types σ → e.Stored g E σ →
      ((∀ s ∈ e.subs, LlvmMeans b loc σ depth s) ↔ e.Sound b loc σ σ.Shiftable) :=
    fun e hproper _ => llvmMeans_subs_iff hproper
  constructor
  · intro e hproper hstored
    rw [SetExpr.Computed, SetExpr.Emittable, derives_iff_keepsTree, hc e hproper hstored,
      hllvm e hproper hstored]
  · intro t hproper hstored
    rw [SetTest.Computed, SetTest.Emittable, derives_iff_keepsTree]
    refine and_congr Iff.rfl (and_congr ?_ ?_)
    · rw [← SetTest.subs_iff hc hproper hstored]
      exact and_congr_right fun hsubs => cTests_iff htypes hproper hstored hsubs
    · rw [← SetTest.subs_iff hllvm hproper hstored]
      exact and_congr_right fun hsubs => llvmTests_iff hproper hsubs

end Both

/-! ## A program without declarations -/

/-- A builder in a program without declared types and symbols. -/
def emptyBuilder : HirBuilder where
  types := ⟨[]⟩
  symtab := ⟨[], by simp⟩
  moduleName := "M"
  foreignModules := []
  importAliasMap := []
  importedModules := []
  varTypes := []
  localNames := []
  withStack := []
  inProcedure := false
  currentScope := none
  isStdlibModule _ := false
  isNativeStdlib _ := false
  mapStdlibCall _ _ := none

/-- The variable `s`, which is `{5}`. -/
def fiveVar : SetExpr :=
  .variable ⟨.localVar ⟨"s", "s", none, tyBitset, false, false⟩, [], tyBitset, .cfg⟩ tyBitset

/-- A literal as an expression. -/
def literal (v : Int) : HirExpr := ⟨.intLit v, tyInteger, .cfg⟩

/-- The environment in which `s` is `{5}`. -/
def fiveEnv : CEnv :=
  cEnv (fun _ => none) fun
    | .atom (.ident "s") => some (.int .uint 32)
    | _ => none

/-- The values in that environment; the elements are literals. -/
def fiveState : SetState where
  word _ := 32#32
  operand
    | ⟨.intLit v, _, _⟩ => ⟨v.toNat, 32, true, by decide⟩
    | _ => ⟨0, 32, true, by decide⟩

theorem plainEnv_five : PlainEnv fiveEnv where
  function_setRange := rfl
  store_setRange _ := rfl
  castType_double := rfl
  store_double _ _ _ := nofun
  store_quotient _ _ _ _ := nofun

theorem stored_fiveVar : fiveVar.Stored CodeGen.plain fiveEnv fiveState := by
  simp [fiveVar, SetExpr.Stored]
  rfl

/-- A constructor with one literal element. -/
def one (v : Int) : SetExpr := .constructor [.single (literal v)]

theorem proper_one {v : Int} (h : v ≤ 31) (reg : TypeRegistry) : (one v).Proper reg fiveState := by
  intro el hel
  obtain rfl := mem_singleton.mp hel
  change v.toNat ≤ 31
  omega

theorem hasValue_literal {v : Int} (h : 0 ≤ v) :
    CodeGen.plain.HasValue fiveEnv fiveState (literal v) := by
  obtain ⟨n, rfl⟩ := Int.eq_ofNat_of_zero_le h
  refine ⟨.ofDecimal n, ?_⟩
  have htree : CodeGen.plain.exprTree (literal n) = .atom (.number (toString n)) := by
    simp [CodeGen.exprTree, literal, CodeGen.exprText, CodeGen.intText, CodeGen.signed,
      Int.not_lt.mpr h, Layout.tree]
  rw [CodeGen.cValue, htree, eval, decimal_toString]
  rfl

theorem stored_one {v : Int} (h : 0 ≤ v) : (one v).Stored CodeGen.plain fiveEnv fiveState := by
  intro el hel e he
  obtain rfl := mem_singleton.mp hel
  obtain rfl := mem_singleton.mp he
  exact hasValue_literal h

theorem denotes_one {v : Int} {i : Fin 32} (h : i.val = v.toNat) :
    fiveState.denotes (one v) = {i} := by
  ext j
  simp only [one, SetState.denotes, foldl_cons, foldl_nil, Finset.empty_union,
    SetState.covers, Finset.mem_filter, Finset.mem_univ, true_and, Finset.mem_singleton,
      Fin.ext_iff, h]
  rfl

/-- `{3} <= s + {3}`. -/
def threeTest : SetTest := .compare .subset (one 3) (.binary .union fiveVar (one 3))

/-- The text of `{3}`. -/
def three : Layout := .paren (.paren (.binary .shl (.atom (.number "1u")) (.atom (.number "3"))))

theorem set_algebra_three :
    threeTest.Computed CodeGen.plain fiveEnv emptyBuilder .cfg fiveState 1 := by
  refine ((set_algebra_iff plainEnv_five rfl).2 threeTest ?_ ?_).mpr ?_
  · exact ⟨proper_one (by decide) _, ⟨⟨0, tyBitset, .refl _, rfl⟩, proper_one (by decide) _⟩⟩
  · exact ⟨stored_one (by decide), stored_fiveVar, stored_one (by decide)⟩
  · have hsub : fiveState.denotes (one 3) ⊆ fiveState.denotes (.binary .union fiveVar (one 3)) :=
      Finset.subset_union_right
    refine ⟨?_, ⟨?_, (ordered_subset_iff _ _).mpr (.inl hsub)⟩, ?_, ?_⟩
    · apply (CodeGen.plain.parses_textAt _ .value).mp
      have htext : CodeGen.plain.textAt .value (threeTest.hir emptyBuilder .cfg) =
          .binary .le three (.paren (.binary .or (.atom (.ident "s")) three)) := rfl
      rw [htext]
      simp [three, Layout.Fits, Binary.strength]
    · simp [SetTest.Sound, threeTest, one, fiveVar, SetExpr.Sound, HirSetElement.IsSingle,
        SetExpr.recognized, SetExpr.hir, TypeRegistry.isHirSet]
    · simp [SetTest.Sound, threeTest, one, fiveVar, SetExpr.Sound, SetState.Shiftable,
        SetExpr.recognized, SetExpr.hir, TypeRegistry.isHirSet, Operand.Direct, fiveState, literal]
    · exact (ordered_subset_iff _ _).mpr (.inl hsub)

/-- `{0} <= {1}` is true in C, and neither backend has code for `{0..31}`. -/
theorem not_set_algebra :
    ¬ (SetTest.compare .subset (one 0) (one 1)).Computed CodeGen.plain fiveEnv emptyBuilder .cfg
      fiveState 1 ∧
    ¬ (SetExpr.constructor [.range (literal 0) (literal 31)]).Computed CodeGen.plain fiveEnv
      emptyBuilder .cfg fiveState 1 := by
  constructor
  · rintro ⟨-, ⟨hsubs, htest⟩, -⟩
    have hproper : (SetTest.compare .subset (one 0) (one 1)).Proper emptyBuilder.types fiveState :=
      ⟨proper_one (by decide) _, proper_one (by decide) _⟩
    have hstored : (SetTest.compare .subset (one 0) (one 1)).Stored CodeGen.plain fiveEnv
        fiveState := ⟨stored_one (by decide), stored_one (by decide)⟩
    have hordered := (cTests_iff rfl hproper hstored hsubs).mp htest
    rw [SetTest.COrdered, denotes_one (i := 0) rfl, denotes_one (i := 1) rfl,
      ordered_subset_iff] at hordered
    revert hordered
    decide
  · rintro ⟨-, hc, -⟩
    have hsound := (cMeans_subs_iff plainEnv_five rfl ?_ ?_).mp hc
    · exact hsound _ mem_cons_self
    · intro el hel
      obtain rfl := mem_singleton.mp hel
      exact ⟨by decide, by decide⟩
    · intro el hel e he
      obtain rfl := mem_singleton.mp hel
      rcases mem_pair.mp he with rfl | rfl
      · exact hasValue_literal (by decide)
      · exact hasValue_literal (by decide)

end Mx

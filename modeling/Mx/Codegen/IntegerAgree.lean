import Mx.Codegen.IntegerOps

/-!
# Agreement of the backends on integer operators

Both backends convert the operands to one width and compute there. They agree where they also read
the bits alike: where the common type of C is unsigned just if an operand is unsigned for LLVM,
where the type of the node, by which LLVM reads the register, is unsigned just if the type of C is,
and where `DIV` and `MOD` are not led astray by aliases.
-/

namespace Mx

open CGrammar Mx.Core

/-! ## What agreement is -/

/-- The number that a variable of the type holds in C. -/
def cNum (charSigned : Bool) (k : IntKind) (b : BitVec k.width) : Int :=
  IntN.num (k.cType charSigned).signed ⟨k.width, b⟩

/-- The value of a variable in C. -/
def cValue (charSigned : Bool) (k : IntKind) (b : BitVec k.width) : CValue :=
  .int (k.cType charSigned) (cNum charSigned k b)

/-- Wherever the C expression has a value, the register of LLVM holds it too, read by the type of
the node. -/
def BackendsAgree (reg : TypeRegistry) (depth : Nat) (charSigned : Bool) (op : BinaryOp)
    (lt rt : TypeId) (kl kr : IntKind) : Prop :=
  ∀ (l : BitVec kl.width) (r : BitVec kr.width) (t : CIntType) (v : Int),
    cBinaryOp reg op lt rt (cValue charSigned kl l) (cValue charSigned kr r) = some (.int t v) →
      ∃ x, genHirBinaryOp reg depth op ⟨kl.width, l⟩ ⟨kr.width, r⟩ lt rt
        (reg.binaryResultType op lt rt) = some x ∧ x.num reg depth = v

/-- The common type of C. -/
def cCommon (charSigned : Bool) (kl kr : IntKind) : CIntType :=
  (kl.cType charSigned).common (kr.cType charSigned)

/-- Both backends divide alike. If LLVM divides unsigned, then C does: an operand has the type
`CARDINAL` or `LONGCARD` itself, and the common type is unsigned; and LLVM reads the result by the
type of the left operand. Else, if the operands are long, one of them has the type `LONGINT`
itself. -/
def divideAlike (charSigned : Bool) (lt rt : TypeId) (kl kr : IntKind) : Bool :=
  if kl.unsigned || kr.unsigned then
    (isHirUnsigned lt || isHirUnsigned rt) && !(cCommon charSigned kl kr).signed &&
      !(charSigned && kr == .char) && kl.unsigned
  else (kl.width == 32 && kr.width == 32) || (isHirLong lt || isHirLong rt)

/-- Both backends compare sizes alike: two characters if `char` is unsigned, and else operands of
which none is a signed `char` and whose common type is unsigned just if one of them is. -/
def orderAlike (charSigned : Bool) (kl kr : IntKind) : Bool :=
  if kl == .char && kr == .char then !charSigned
  else ((kl.unsigned || kr.unsigned) == !(cCommon charSigned kl kr).signed) &&
    !(charSigned && (kl == .char || kr == .char))

/-- Whether LLVM reads the result of an operator as signed: a sum, difference or product of a
`LONGINT` is one, and else they have, like `DIV` and `MOD`, the type of the left operand. -/
def readSigned (reg : TypeRegistry) (op : BinaryOp) (rt : TypeId) (kl : IntKind) : Bool :=
  match op with
  | .add | .sub | .mul => !kl.unsigned || reg.resolveHirAlias rt == tyLongInt
  | .intDiv | .mod => !kl.unsigned
  | _ => true

/-- Both backends compute an operator alike, whose result LLVM reads as signed or not. -/
def operateAlike (charSigned signed : Bool) (op : BinaryOp) (lt rt : TypeId) (kl kr : IntKind) :
    Bool :=
  match op with
  | .add | .sub | .mul => kl != .char && signed == (cCommon charSigned kl kr).signed
  | .intDiv | .mod => divideAlike charSigned lt rt kl kr
  | .eq | .ne => !charSigned || ((kl == .char) == (kr == .char))
  | _ => orderAlike charSigned kl kr

/-! ## Types behind aliases -/

section Chain

variable {reg : TypeRegistry} {n : Nat} {tid : TypeId} {k : IntKind}

theorem get_kind (reg : TypeRegistry) (k : IntKind) :
    reg.get k.id = builtinTypes.getD k.id .error := by
  apply TypeRegistry.get_builtin
  cases k <;> decide

theorem isUnsignedType_kind (reg : TypeRegistry) (k : IntKind) (depth : Nat) :
    reg.isUnsignedType (depth + 1) k.id = k.unsigned := by
  rw [TypeRegistry.isUnsignedType, get_kind]
  cases k <;> rfl

theorem isUnsignedType_of_chain (h : TypeRegistry.AliasChain reg n tid k.id) {depth : Nat}
    (hdepth : n < depth) : reg.isUnsignedType depth tid = k.unsigned := by
  induction n generalizing tid depth with
  | zero =>
    obtain ⟨d, rfl⟩ : ∃ d, depth = d + 1 := ⟨depth - 1, by omega⟩
    rw [h.eq_of_zero]
    exact isUnsignedType_kind reg k d
  | succ n ih =>
    obtain ⟨d, rfl⟩ : ∃ d, depth = d + 1 := ⟨depth - 1, by omega⟩
    obtain _ | ⟨halias, hrest⟩ := h
    rw [TypeRegistry.isUnsignedType, halias]
    exact ih hrest (by omega)

theorem isHirSet_of_chain (h : TypeRegistry.AliasChain reg n tid k.id) :
    reg.isHirSet tid = false := by
  cases n with
  | zero =>
    rw [h.eq_of_zero, TypeRegistry.isHirSet, get_kind]
    cases k <;> rfl
  | succ n => exact h.isHirSet_eq

theorem unsigned_of_isHirUnsigned (h : TypeRegistry.AliasChain reg n tid k.id)
    (hid : isHirUnsigned tid = true) : k.unsigned = true := by
  cases n with
  | zero =>
    rw [h.eq_of_zero] at hid
    revert hid
    cases k <;> decide
  | succ n => exact absurd hid (by rw [h.isHirUnsigned_eq]; decide)

theorem width_of_isHirLong (h : TypeRegistry.AliasChain reg n tid k.id)
    (hid : isHirLong tid = true) : k.width = 64 := by
  cases n with
  | zero =>
    rw [h.eq_of_zero] at hid
    revert hid
    cases k <;> decide
  | succ n => exact absurd hid (by rw [h.isHirLong_eq]; decide)

theorem followAliases_kind (reg : TypeRegistry) (k : IntKind) (m : Nat) :
    reg.followAliases m k.id = k.id := by
  cases m with
  | zero => rfl
  | succ m =>
    rw [TypeRegistry.followAliases, get_kind]
    cases k <;> rfl

/-- Aliases that are followed lead along the chain. -/
theorem chain_followAliases (h : TypeRegistry.AliasChain reg n tid k.id) (m : Nat) :
    ∃ j, TypeRegistry.AliasChain reg j (reg.followAliases m tid) k.id := by
  induction m generalizing n tid with
  | zero => exact ⟨n, h⟩
  | succ m ih =>
    cases h with
    | refl =>
      rw [followAliases_kind]
      exact ⟨0, .refl _⟩
    | step halias hrest =>
      rw [TypeRegistry.followAliases, halias]
      exact ih hrest

/-- At the end of a chain, or where the search for it stops, is no other type of the language. -/
theorem resolveHirAlias_ne (h : TypeRegistry.AliasChain reg n tid k.id) {t : TypeId}
    (ht : t < builtinTypes.length) (hne : t ≠ k.id) : reg.resolveHirAlias tid ≠ t := by
  obtain ⟨j, hj⟩ := chain_followAliases h 51
  intro heq
  rw [← TypeRegistry.resolveHirAlias, heq] at hj
  cases j with
  | zero => exact hne hj.eq_of_zero
  | succ j =>
    obtain _ | ⟨halias, -⟩ := hj
    rw [TypeRegistry.get_builtin _ ht] at halias
    have hbuiltin : ∀ u ∈ builtinTypes, ∀ name target, u ≠ .alias name target := by
      simp [builtinTypes]
    rw [List.getD_eq_getElem _ _ ht] at halias
    exact hbuiltin _ (List.getElem_mem ht) _ _ halias

theorem isUnsignedType_result (hl : TypeRegistry.AliasChain reg n tid k.id) {m depth : Nat}
    {rt : TypeId} {kr : IntKind} (hr : TypeRegistry.AliasChain reg m rt kr.id) (hdepth : n < depth)
    {op : BinaryOp} (hop : op.isInteger = true) :
    (!reg.isUnsignedType depth (reg.binaryResultType op tid rt)) = readSigned reg op rt k := by
  obtain ⟨d, rfl⟩ : ∃ d, depth = d + 1 := ⟨depth - 1, by omega⟩
  have hboolean : reg.isUnsignedType (d + 1) tyBoolean = false := by
    rw [TypeRegistry.isUnsignedType, TypeRegistry.get_builtin _ (by decide)]
    rfl
  have hlong : reg.isUnsignedType (d + 1) tyLongInt = false := isUnsignedType_kind reg .longInt d
  have hleft := isUnsignedType_of_chain hl hdepth
  have hreal (t : TypeId) (ht : t = tyReal ∨ t = tyLongReal) :
      reg.resolveHirAlias tid ≠ t ∧ reg.resolveHirAlias rt ≠ t := by
    constructor
    · apply resolveHirAlias_ne hl <;> rcases ht with rfl | rfl <;> cases k <;> decide
    · apply resolveHirAlias_ne hr <;> rcases ht with rfl | rfl <;> cases kr <;> decide
  have harith : (!reg.isUnsignedType (d + 1) (if reg.resolveHirAlias tid = tyLongInt ∨
      reg.resolveHirAlias rt = tyLongInt then tyLongInt else tid)) =
      (!k.unsigned || reg.resolveHirAlias rt == tyLongInt) := by
    by_cases hrt : reg.resolveHirAlias rt = tyLongInt
    · rw [if_pos (.inr hrt), hlong, hrt]
      simp
    by_cases htid : reg.resolveHirAlias tid = tyLongInt
    · have hk : k = .longInt := by
        by_contra hk
        exact resolveHirAlias_ne hl (by decide) (by revert hk; cases k <;> decide) htid
      rw [if_pos (.inl htid), hlong, hk]
      rfl
    · rw [if_neg (not_or.2 ⟨htid, hrt⟩), hleft]
      simp [hrt]
  have hr1 := hreal tyReal (.inl rfl)
  have hr2 := hreal tyLongReal (.inr rfl)
  cases op <;> first | exact absurd hop (by decide) | skip
  all_goals
    simp only [TypeRegistry.binaryResultType, readSigned, hr1.1, hr1.2, hr2.1, hr2.2, or_self,
      if_false, hboolean, hleft, Bool.not_false]
  all_goals exact harith

theorem isHirComplex_of_chain (h : TypeRegistry.AliasChain reg n tid k.id) :
    reg.isHirComplex tid = false := by
  have hkind : (reg.get k.id).isComplex = false := by
    rw [get_kind]
    cases k <;> rfl
  rw [h.isHirComplex_eq, TypeRegistry.complexWithin, followAliases_kind, hkind, Bool.and_false]

end Chain

/-! ## Conversion and bits -/

section Bits

variable {c : CIntType} (v w : Int)

theorem convert_eq_num : c.convert v = (IntN.ofInt c.bits v).num c.signed :=
  (IntN.num_ofInt c v).symm

theorem convert_eq_iff :
    c.convert v = c.convert w ↔ BitVec.ofInt c.bits v = BitVec.ofInt c.bits w := by
  rw [convert_eq_num, convert_eq_num, IntN.num, IntN.num]
  cases c.signed with
  | true => exact BitVec.toInt_inj
  | false => exact Int.natCast_inj.trans BitVec.toNat_inj

theorem ofInt_convert : BitVec.ofInt c.bits (c.convert v) = BitVec.ofInt c.bits v := by
  rw [convert_eq_num, IntN.num]
  cases c.signed with
  | true => exact BitVec.ofInt_toInt
  | false =>
    rw [if_neg Bool.false_ne_true, BitVec.ofInt_natCast, BitVec.ofNat_toNat]
    exact BitVec.setWidth_eq _

theorem convert_lt_iff :
    (if c.signed then (BitVec.ofInt c.bits v).slt (BitVec.ofInt c.bits w)
      else (BitVec.ofInt c.bits v).ult (BitVec.ofInt c.bits w)) =
      decide (c.convert v < c.convert w) := by
  rw [convert_eq_num, convert_eq_num, IntN.num, IntN.num]
  cases c.signed with
  | true => rfl
  | false => exact decide_eq_decide.2 Int.ofNat_lt.symm

theorem convert_le_iff :
    (if c.signed then (BitVec.ofInt c.bits v).sle (BitVec.ofInt c.bits w)
      else (BitVec.ofInt c.bits v).ule (BitVec.ofInt c.bits w)) =
      decide (c.convert v ≤ c.convert w) := by
  rw [convert_eq_num, convert_eq_num, IntN.num, IntN.num]
  cases c.signed with
  | true => rfl
  | false => exact decide_eq_decide.2 Int.ofNat_le.symm

/-- The bits of a sum, difference or product are that of the converted numbers. -/
theorem num_of_result {op : Int → Int → Int} {bop : BitVec c.bits → BitVec c.bits → BitVec c.bits}
    (hop : ∀ a b, BitVec.ofInt c.bits (op a b) =
      bop (BitVec.ofInt c.bits a) (BitVec.ofInt c.bits b))
    {t : CIntType} {x : Int} (h : result c (op (c.convert v) (c.convert w)) = some (.int t x)) :
    IntN.num c.signed ⟨c.bits, bop (BitVec.ofInt c.bits v) (BitVec.ofInt c.bits w)⟩ = x := by
  unfold result at h
  split at h
  · exact nomatch h
  · simp only [Option.some.injEq, CValue.int.injEq] at h
    obtain ⟨rfl, rfl⟩ := h
    have hbits : bop (BitVec.ofInt c.bits v) (BitVec.ofInt c.bits w) =
        BitVec.ofInt c.bits (op (c.convert v) (c.convert w)) := by
      rw [hop, ofInt_convert, ofInt_convert]
    rw [hbits]
    exact IntN.num_ofInt c _

end Bits

/-! ## Divisions -/

section Division

variable {c : CIntType} {v w : Int}

theorem toNat_ofInt_of_unsigned (hc : c.signed = false) :
    ((BitVec.ofInt c.bits v).toNat : Int) = c.convert v := by
  rw [convert_eq_num, IntN.num, hc]
  rfl

theorem convert_nonneg (hc : c.signed = false) : 0 ≤ c.convert v := by
  rw [← toNat_ofInt_of_unsigned hc]
  exact Int.natCast_nonneg _

theorem ofInt_eq_zero_iff : BitVec.ofInt c.bits w = 0 ↔ c.convert w = 0 := by
  have hzero : c.convert 0 = 0 := by
    unfold CIntType.convert
    split <;> simp
  rw [← hzero, convert_eq_iff]
  exact Iff.of_eq (by simp)

/-- An unsigned quotient. -/
theorem udiv_of_arith (hc : c.signed = false) {t u t' : CIntType} (hcommon : t.common u = c)
    {x : Int} (h : arith .div t v u w = some (.int t' x)) :
    ∃ y, unsignedDiv c.bits BitVec.udiv (BitVec.ofInt c.bits v) (BitVec.ofInt c.bits w) = some y ∧
      y.num false = x := by
  simp only [arith, hcommon] at h
  split at h
  · cases h
  · next hne =>
    simp only [result, hc, Bool.false_eq_true, false_and, if_false, Option.some.injEq,
      CValue.int.injEq] at h
    obtain ⟨-, rfl⟩ := h
    refine ⟨_, if_neg (ofInt_eq_zero_iff.not.2 hne), ?_⟩
    have hv := convert_nonneg (v := v) hc
    have hw := convert_nonneg (v := w) hc
    have hlt : c.convert v < 2 ^ c.bits := by
      rw [← toNat_ofInt_of_unsigned hc]
      exact_mod_cast (BitVec.ofInt c.bits v).isLt
    have hquot : (c.convert v).tdiv (c.convert w) = c.convert v / c.convert w :=
      Int.tdiv_eq_ediv_of_nonneg hv
    have hle : c.convert v / c.convert w ≤ c.convert v := Int.ediv_le_self _ hv
    have hnonneg : 0 ≤ c.convert v / c.convert w := Int.ediv_nonneg hv hw
    have hself : c.convert (c.convert v / c.convert w) = c.convert v / c.convert w := by
      have hdef : c.convert (c.convert v / c.convert w) =
          (c.convert v / c.convert w) % 2 ^ c.bits := by
        rw [CIntType.convert, hc, if_neg Bool.false_ne_true]
      rw [hdef]
      exact Int.emod_eq_of_lt hnonneg (by omega)
    rw [hquot, hself, IntN.num, if_neg Bool.false_ne_true, BitVec.udiv_eq, BitVec.toNat_udiv,
      Int.natCast_ediv, toNat_ofInt_of_unsigned hc, toNat_ofInt_of_unsigned hc]

/-- An unsigned remainder. -/
theorem umod_of_arith (hc : c.signed = false) {t u t' : CIntType} (hcommon : t.common u = c)
    {x : Int} (h : arith .rem t v u w = some (.int t' x)) :
    ∃ y, unsignedDiv c.bits BitVec.umod (BitVec.ofInt c.bits v) (BitVec.ofInt c.bits w) = some y ∧
      y.num false = x := by
  simp only [arith, hcommon] at h
  split at h
  · cases h
  · next hne =>
    rw [not_or] at hne
    simp only [Option.some.injEq, CValue.int.injEq] at h
    obtain ⟨-, rfl⟩ := h
    refine ⟨_, if_neg (ofInt_eq_zero_iff.not.2 hne.1), ?_⟩
    rw [Int.tmod_eq_emod_of_nonneg (convert_nonneg hc), IntN.num, if_neg Bool.false_ne_true,
      BitVec.umod_eq, BitVec.toNat_umod, Int.natCast_emod, toNat_ofInt_of_unsigned hc,
      toNat_ofInt_of_unsigned hc]

theorem fits_signed_iff (hc : c.signed = true) {x : Int} :
    c.Fits x ↔ -2 ^ (c.bits - 1) ≤ x ∧ x < 2 ^ (c.bits - 1) := by
  rw [CIntType.Fits, if_pos hc]

/-- A quotient rounded down does not leave the type. -/
theorem fits_of_m2Div (hc : c.signed = true) {a b q : Int} (ha : c.Fits a)
    (h : m2Div c a b = some q) : c.Fits q := by
  rw [fits_signed_iff hc] at ha ⊢
  unfold m2Div at h
  split at h
  · exact nomatch h
  next hdef =>
  rw [not_or, not_not, fits_signed_iff hc] at hdef
  obtain ⟨-, hlow, hhigh⟩ := hdef
  dsimp only at h
  split at h
  · next hrem =>
    cases h
    refine ⟨?_, by omega⟩
    -- The dividend is larger in size than the quotient by the remainder.
    by_contra hlt
    have heq : a.tdiv b = -2 ^ (c.bits - 1) := by omega
    have hsize := congrArg Int.natAbs (Int.mul_tdiv_add_tmod a b)
    have hsum : (b * a.tdiv b + a.tmod b).natAbs = (b * a.tdiv b).natAbs + (a.tmod b).natAbs := by
      rw [Int.mul_tdiv_add_tmod, Int.natAbs_mul, Int.natAbs_tdiv, Int.natAbs_tmod]
      exact (Nat.div_add_mod _ _).symm
    have hb : b ≠ 0 := by
      rintro rfl
      have hnonneg : (0 : Int) ≤ 2 ^ (c.bits - 1) := Int.pow_nonneg (by decide)
      rw [Int.tdiv_zero] at heq
      omega
    have hmul : (a.tdiv b).natAbs ≤ (b * a.tdiv b).natAbs := by
      rw [Int.natAbs_mul]
      exact Nat.le_mul_of_pos_left _ (Int.natAbs_pos.2 hb)
    have hpos : 0 < (a.tmod b).natAbs := Int.natAbs_pos.2 hrem.1
    have hpow : (0 : Int) ≤ 2 ^ (c.bits - 1) := Int.pow_nonneg (by decide)
    generalize (2 : Int) ^ (c.bits - 1) = p at *
    omega
  · cases h
    exact ⟨hlow, hhigh⟩

/-- A remainder that is not negative does not leave the type. -/
theorem fits_of_m2Mod (hc : c.signed = true) {a b r : Int} (hb : c.Fits b)
    (h : m2Mod c a b = some r) : c.Fits r := by
  rw [fits_signed_iff hc] at hb ⊢
  have hpow : (0 : Int) ≤ 2 ^ (c.bits - 1) := Int.pow_nonneg (by decide)
  unfold m2Mod at h
  split at h
  · exact nomatch h
  next hdef =>
  rw [not_or] at hdef
  have hlt : (a.tmod b).natAbs < b.natAbs := by
    rw [Int.natAbs_tmod]
    exact Nat.mod_lt _ (Int.natAbs_pos.2 hdef.1)
  dsimp only at h
  generalize (2 : Int) ^ (c.bits - 1) = p at *
  generalize a.tmod b = m at *
  split at h
  · split at h
    · cases h
      omega
    · split at h
      · cases h
        omega
      · exact nomatch h
  · cases h
    omega

/-- A function of the runtime is called with the same numbers by both backends, on types of one
width. -/
theorem runtimeCall_of_runtime (hc : c = if c.bits = 64 then .long else .int)
    {f : CIntType → Int → Int → Option Int}
    (hf : ∀ a b q, c.Fits a → c.Fits b → f c a b = some q → c.Fits q) {x : Int}
    (h : f c (c.convert v) (c.convert w) = some x) :
    ∃ y, runtimeCall c.bits f (BitVec.ofInt c.bits v) (BitVec.ofInt c.bits w) = some y ∧
      y.num true = x := by
  have hsigned : c.signed = true := by
    rw [hc]
    split <;> rfl
  have hbits : 0 < c.bits := by
    rw [hc]
    split <;> decide
  have htoInt (u : Int) : (BitVec.ofInt c.bits u).toInt = c.convert u := by
    rw [convert_eq_num, IntN.num, if_pos hsigned]
    rfl
  have hfits (u : Int) : c.Fits (c.convert u) := by
    rw [fits_signed_iff hsigned, ← htoInt]
    have hlow := BitVec.le_two_mul_toInt (x := BitVec.ofInt c.bits u)
    have hhigh := BitVec.two_mul_toInt_lt (x := BitVec.ofInt c.bits u)
    obtain ⟨k, hk⟩ : ∃ k, c.bits = k + 1 := ⟨c.bits - 1, by omega⟩
    rw [hk, Int.pow_succ] at hlow hhigh
    rw [hk, Nat.add_sub_cancel]
    omega
  have hx := hf _ _ _ (hfits v) (hfits w) h
  refine ⟨IntN.ofInt c.bits x, ?_, ?_⟩
  · rw [runtimeCall, ← hc, htoInt, htoInt, h, Option.map_some]
  · have hself : c.convert x = x := CIntType.convert_of_fits hbits hx
    have hnum := IntN.num_ofInt c x
    rwa [hself, hsigned] at hnum

end Division

/-! ## One operator -/

/-- The operator of C for an operator that is not a division. -/
def plainOperator : BinaryOp → Option Binary
  | .add => some .add
  | .sub => some .sub
  | .mul => some .mul
  | .eq => some .eq
  | .ne => some .ne
  | .lt => some .lt
  | .le => some .le
  | .gt => some .gt
  | .ge => some .ge
  | _ => none

/-- The instruction for an operator on operands of one width that are not sets. -/
def plainInstruction (isUnsigned : Bool) (w : Nat) (l r : BitVec w) : BinaryOp → Option IntN
  | .add => some ⟨w, l + r⟩
  | .sub => some ⟨w, l - r⟩
  | .mul => some ⟨w, l * r⟩
  | .intDiv => if isUnsigned then unsignedDiv w BitVec.udiv l r else runtimeCall w m2Div l r
  | .mod => if isUnsigned then unsignedDiv w BitVec.umod l r else runtimeCall w m2Mod l r
  | .eq => icmp (l == r)
  | .ne => icmp (l != r)
  | .lt => icmp (if isUnsigned then l.ult r else l.slt r)
  | .le => icmp (if isUnsigned then l.ule r else l.sle r)
  | .gt => icmp (if isUnsigned then r.ult l else r.slt l)
  | .ge => icmp (if isUnsigned then r.ule l else r.sle l)
  | .realDiv | .and | .or | .isIn => none

section Operator

variable {reg : TypeRegistry} {nl nr depth : Nat} {lt rt : TypeId} {kl kr : IntKind}

variable {op : BinaryOp} {charSigned : Bool}

theorem cBinaryOp_plain (hl : TypeRegistry.AliasChain reg nl lt kl.id)
    (hr : TypeRegistry.AliasChain reg nr rt kr.id) {o : Binary}
    (ho : plainOperator op = some o) (t u : CIntType) (v w : Int) :
    cBinaryOp reg op lt rt (.int t v) (.int u w) = arith o t v u w := by
  have hsl := isHirSet_of_chain hl
  have hsr := isHirSet_of_chain hr
  have hcl := isHirComplex_of_chain hl
  cases op <;> cases ho <;>
    simp [cBinaryOp, TypeRegistry.selectBinaryOp, hsl, hsr, hcl, CodeGen.binaryText,
      CodeGen.operator, Layout.tree, eval, cEnv]

/-- `DIV` and `MOD` in C. -/
theorem cBinaryOp_division (hop : op = .intDiv ∨ op = .mod) (t u : CIntType) (v w : Int) :
    cBinaryOp reg op lt rt (.int t v) (.int u w) =
      if isHirUnsigned lt || isHirUnsigned rt then
        arith (if op = .intDiv then .div else .rem) t v u w
      else
        let d : CIntType := if isHirLong lt || isHirLong rt then .long else .int
        ((if op = .intDiv then m2Div else m2Mod) d (d.convert v) (d.convert w)).map (.int d) := by
  obtain rfl | rfl := hop <;>
    simp only [cBinaryOp, TypeRegistry.selectBinaryOp, reduceCtorEq, if_false, if_true] <;>
    split_ifs <;>
    simp [CodeGen.binaryText, CodeGen.namedCall, CodeGen.callText, CodeGen.callText.chain,
      CodeGen.operator, Layout.tree, eval, cEnv, runtimeFunction]

/-- The instructions compute on the bits of the numbers that LLVM reads the operands as. -/
theorem binaryRegister_plain (hl : TypeRegistry.AliasChain reg nl lt kl.id)
    (hr : TypeRegistry.AliasChain reg nr rt kr.id) (hdl : nl < depth) (hdr : nr < depth)
    (op : BinaryOp) (l r : IntN) :
    binaryRegister reg depth op l r lt rt =
      plainInstruction (kl.unsigned || kr.unsigned) (commonType l.width r.width)
        (BitVec.ofInt _ (l.num (!kl.unsigned))) (BitVec.ofInt _ (r.num (!kr.unsigned))) op := by
  rw [← IntN.coerce_eq, ← IntN.coerce_eq, ← isUnsignedType_of_chain hl hdl,
    ← isUnsignedType_of_chain hr hdr]
  have hsl := isHirSet_of_chain hl
  have hsr := isHirSet_of_chain hr
  cases op <;> simp [binaryRegister, plainInstruction, hsl, hsr]

/-- The backends agree if the register holds the value of C, read as the type of the node says. -/
theorem agree_of_register (hl : TypeRegistry.AliasChain reg nl lt kl.id)
    (hr : TypeRegistry.AliasChain reg nr rt kr.id) (hdl : nl < depth) (hop : op.isInteger = true)
    (h : ∀ (l : BitVec kl.width) (r : BitVec kr.width) (t : CIntType) (v : Int),
      cBinaryOp reg op lt rt (cValue charSigned kl l) (cValue charSigned kr r) = some (.int t v) →
        ∃ x, binaryRegister reg depth op ⟨kl.width, l⟩ ⟨kr.width, r⟩ lt rt = some x ∧
          x.num (readSigned reg op rt kl) = v) :
    BackendsAgree reg depth charSigned op lt rt kl kr := by
  intro l r t v hc
  obtain ⟨x, hx, hnum⟩ := h l r t v hc
  refine ⟨⟨x, reg.binaryResultType op lt rt⟩, ?_, ?_⟩
  · rw [genHirBinaryOp, hx, Option.map_some]
  · rw [LlvmVal.num, isUnsignedType_result hl hr hdl hop]
    exact hnum

theorem commonType_kinds (charSigned : Bool) (h : ¬ (kl = .char ∧ kr = .char)) :
    commonType kl.width kr.width = (cCommon charSigned kl kr).bits := by
  revert h
  cases kl <;> cases kr <;> cases charSigned <;> decide

theorem cNum_eq {k : IntKind} (h : charSigned = false ∨ k ≠ .char)
    (b : BitVec k.width) : cNum charSigned k b = IntN.num (!k.unsigned) ⟨k.width, b⟩ := by
  have hsigned : (k.cType charSigned).signed = !k.unsigned := by
    cases k <;> first | rfl | skip
    obtain rfl | hne := h
    · rfl
    · exact absurd rfl hne
  rw [cNum, hsigned]

/-- Truth values are the same numbers in both backends, however they are read. -/
theorem icmp_of_truth {b b' : Bool} (hb : b' = b) {t : CIntType} {x : Int}
    (h : truth b = some (.int t x)) (signed : Bool) :
    ∃ y, icmp b' = some y ∧ y.num signed = x := by
  subst hb
  simp only [truth, Option.some.injEq, CValue.int.injEq] at h
  obtain ⟨-, rfl⟩ := h
  refine ⟨_, rfl, ?_⟩
  cases b' <;> cases signed <;> decide

theorem beq_eq_of_iff {α : Type} [DecidableEq α] {x y : α} {p : Prop} [Decidable p]
    (h : p ↔ x = y) : (x == y) = decide p := by
  rw [decide_eq_decide.2 h]
  exact Bool.beq_eq_decide_eq _ _

theorem bne_eq_of_iff {α : Type} [DecidableEq α] {x y : α} {p : Prop} [Decidable p]
    (h : p ↔ x = y) : (x != y) = decide (¬ p) := by
  rw [bne, beq_eq_of_iff h, decide_not]

theorem ofInt_sub (w : Nat) (a b : Int) :
    BitVec.ofInt w (a - b) = BitVec.ofInt w a - BitVec.ofInt w b := by
  rw [Int.sub_eq_add_neg, BitVec.ofInt_add, BitVec.ofInt_neg, BitVec.sub_eq_add_neg]

/-- An operator that is no division, on operands that are read alike and have a common type whose
signedness matters at most where LLVM has the same one, for the operator or for the result. -/
theorem plain_agrees {c : CIntType} {o : Binary} (ho : plainOperator op = some o)
    {t u : CIntType} (hcommon : t.common u = c) {isUnsigned : Bool}
    (hsigned : (op = .lt ∨ op = .le ∨ op = .gt ∨ op = .ge) → isUnsigned = !c.signed)
    {signed : Bool} (hread : (op = .add ∨ op = .sub ∨ op = .mul) → signed = c.signed) {v w : Int}
    {t' : CIntType} {x : Int} (h : arith o t v u w = some (.int t' x)) :
    ∃ y, plainInstruction isUnsigned c.bits (BitVec.ofInt c.bits v) (BitVec.ofInt c.bits w) op =
      some y ∧ y.num signed = x := by
  have hflag (hop : op = .lt ∨ op = .le ∨ op = .gt ∨ op = .ge) {α : Type} (a b : α) :
      (if isUnsigned then a else b) = if c.signed then b else a := by
    rw [hsigned hop]
    cases c.signed <;> rfl
  cases op <;> cases ho <;> simp only [arith, hcommon] at h <;> simp only [plainInstruction]
  case add =>
    rw [hread (by simp)]
    exact ⟨_, rfl, num_of_result v w (fun a b => BitVec.ofInt_add a b) h⟩
  case sub =>
    rw [hread (by simp)]
    exact ⟨_, rfl, num_of_result v w (ofInt_sub _) h⟩
  case mul =>
    rw [hread (by simp)]
    exact ⟨_, rfl, num_of_result v w (fun a b => BitVec.ofInt_mul a b) h⟩
  case eq => exact icmp_of_truth (beq_eq_of_iff (convert_eq_iff v w)) h signed
  case ne => exact icmp_of_truth (bne_eq_of_iff (convert_eq_iff v w)) h signed
  case lt => exact icmp_of_truth ((hflag (by simp) _ _).trans (convert_lt_iff v w)) h signed
  case le => exact icmp_of_truth ((hflag (by simp) _ _).trans (convert_le_iff v w)) h signed
  case gt => exact icmp_of_truth ((hflag (by simp) _ _).trans (convert_lt_iff w v)) h signed
  case ge => exact icmp_of_truth ((hflag (by simp) _ _).trans (convert_le_iff w v)) h signed

/-- Two characters are compared alike, if the order of two does not depend on the signedness of
`char`. -/
theorem chars_agree {o : Binary} (ho : plainOperator op = some o) (hop : op = .eq ∨ op = .ne ∨
      (charSigned = false ∧ (op = .lt ∨ op = .le ∨ op = .gt ∨ op = .ge)))
    (l r : BitVec 8) {t : CIntType} {x : Int}
    (h : arith o (IntKind.char.cType charSigned) (cNum charSigned .char l)
      (IntKind.char.cType charSigned) (cNum charSigned .char r) = some (.int t x)) (signed : Bool) :
    ∃ y, plainInstruction true 8 l r op = some y ∧ y.num signed = x := by
  have hcommon : (IntKind.char.cType charSigned).common
      (IntKind.char.cType charSigned) = .int := rfl
  have hconvert (b : BitVec 8) :
      CIntType.int.convert (cNum charSigned .char b) = cNum charSigned .char b := by
    have hlow := BitVec.le_two_mul_toInt (x := b)
    have hhigh := BitVec.two_mul_toInt_lt (x := b)
    have hlt := b.isLt
    apply CIntType.convert_of_fits (by decide)
    rw [fits_signed_iff rfl]
    cases charSigned with
    | true =>
      change -2 ^ 31 ≤ b.toInt ∧ b.toInt < 2 ^ 31
      omega
    | false =>
      change -2 ^ 31 ≤ (b.toNat : Int) ∧ (b.toNat : Int) < 2 ^ 31
      omega
  have heq : cNum charSigned .char l = cNum charSigned .char r ↔ l = r := by
    cases charSigned with
    | true => exact BitVec.toInt_inj
    | false => exact Int.natCast_inj.trans BitVec.toNat_inj
  cases op <;> cases ho <;> simp only [arith, hcommon, hconvert] at h <;>
    simp only [plainInstruction, if_true] <;>
    simp only [reduceCtorEq, false_or, or_false, and_false, and_true, or_true] at hop
  case eq => exact icmp_of_truth (beq_eq_of_iff heq) h signed
  case ne => exact icmp_of_truth (bne_eq_of_iff heq) h signed
  all_goals
    subst hop
  case lt => exact icmp_of_truth (decide_eq_decide.2 Int.ofNat_lt.symm) h signed
  case le => exact icmp_of_truth (decide_eq_decide.2 Int.ofNat_le.symm) h signed
  case gt => exact icmp_of_truth (decide_eq_decide.2 Int.ofNat_lt.symm) h signed
  case ge => exact icmp_of_truth (decide_eq_decide.2 Int.ofNat_le.symm) h signed

/-- A division that both backends make alike. -/
theorem division_agrees (hl : TypeRegistry.AliasChain reg nl lt kl.id)
    (hr : TypeRegistry.AliasChain reg nr rt kr.id) (hdl : nl < depth) (hdr : nr < depth)
    (hop : op = .intDiv ∨ op = .mod) (hleft : kl ≠ .char)
    (halike : divideAlike charSigned lt rt kl kr = true) :
    BackendsAgree reg depth charSigned op lt rt kl kr := by
  refine agree_of_register hl hr hdl (by obtain rfl | rfl := hop <;> rfl) ?_
  intro l r t x h
  have hread : readSigned reg op rt kl = !kl.unsigned := by
    obtain rfl | rfl := hop <;> rfl
  have hwidth : commonType kl.width kr.width = (cCommon charSigned kl kr).bits :=
    commonType_kinds charSigned fun hboth => hleft hboth.1
  rw [binaryRegister_plain hl hr hdl hdr, hwidth, hread]
  rw [cValue, cValue, cBinaryOp_division hop, cNum_eq (.inr hleft)] at h
  unfold divideAlike at halike
  split at halike
  · next hunsigned =>
    -- LLVM divides unsigned, and so does C.
    simp only [Bool.and_eq_true, Bool.not_eq_true', Bool.and_eq_false_iff, beq_eq_false_iff_ne]
      at halike
    obtain ⟨⟨⟨hid, hsigned⟩, hchar⟩, hkl⟩ := halike
    rw [if_pos hid, cNum_eq hchar, hkl] at h
    rw [hunsigned, hkl]
    obtain rfl | rfl := hop
    · exact udiv_of_arith hsigned rfl h
    · exact umod_of_arith hsigned rfl h
  · next hunsigned =>
    rw [Bool.or_eq_true, not_or, Bool.not_eq_true, Bool.not_eq_true] at hunsigned
    have hchar : kr ≠ .char := by
      rintro rfl
      exact absurd hunsigned.2 (by decide)
    have hid : ¬ (isHirUnsigned lt || isHirUnsigned rt) = true := by
      rw [Bool.or_eq_true, not_or]
      exact ⟨fun hlt => by simp [unsigned_of_isHirUnsigned hl hlt] at hunsigned,
        fun hrt => by simp [unsigned_of_isHirUnsigned hr hrt] at hunsigned⟩
    -- Both call the runtime, for the same width.
    have hwide : (isHirLong lt || isHirLong rt) = true ↔ kl.width = 64 ∨ kr.width = 64 := by
      constructor
      · intro hlong
        obtain hlong | hlong := Bool.or_eq_true_iff.1 hlong
        · exact .inl (width_of_isHirLong hl hlong)
        · exact .inr (width_of_isHirLong hr hlong)
      · intro hwidths
        obtain hnarrow | hlong := Bool.or_eq_true_iff.1 halike
        · rw [Bool.and_eq_true, beq_iff_eq, beq_iff_eq] at hnarrow
          omega
        · exact hlong
    have hcommon : (if isHirLong lt || isHirLong rt then .long else .int : CIntType) =
        cCommon charSigned kl kr := by
      rw [if_congr hwide rfl rfl]
      revert hunsigned
      cases kl <;> cases kr <;> cases charSigned <;> decide
    have hself : cCommon charSigned kl kr =
        if (cCommon charSigned kl kr).bits = 64 then .long else .int := by
      rw [← hcommon]
      split <;> rfl
    have hsigned : (cCommon charSigned kl kr).signed = true := by
      rw [hself]
      split <;> rfl
    rw [if_neg hid, cNum_eq (.inr hchar), hcommon, Option.map_eq_some_iff] at h
    obtain ⟨q, hq, hx⟩ := h
    cases hx
    rw [hunsigned.1, hunsigned.2] at *
    obtain rfl | rfl := hop
    · exact runtimeCall_of_runtime hself (fun a b q ha _ => fits_of_m2Div hsigned ha) hq
    · exact runtimeCall_of_runtime hself (fun a b q _ hb => fits_of_m2Mod hsigned hb) hq

/-- What both backends compute alike, they compute to the same values. -/
theorem agree_of_alike (hl : TypeRegistry.AliasChain reg nl lt kl.id)
    (hr : TypeRegistry.AliasChain reg nr rt kr.id) (hdl : nl < depth) (hdr : nr < depth)
    (hop : op.isInteger = true)
    (harith : op = .add ∨ op = .sub ∨ op = .mul → (kl = .char ↔ kr = .char))
    (hdiv : op = .intDiv ∨ op = .mod → kl ≠ .char)
    (halike : operateAlike charSigned (readSigned reg op rt kl) op lt rt kl kr = true) :
    BackendsAgree reg depth charSigned op lt rt kl kr := by
  -- Operands that are not two characters are read alike.
  have hplain {o : Binary} (ho : plainOperator op = some o)
      (hboth : ¬ (kl = .char ∧ kr = .char))
      (hchar : charSigned = false ∨ (kl ≠ .char ∧ kr ≠ .char))
      (hsigned : (op = .lt ∨ op = .le ∨ op = .gt ∨ op = .ge) →
        (kl.unsigned || kr.unsigned) = !(cCommon charSigned kl kr).signed)
      (hread : (op = .add ∨ op = .sub ∨ op = .mul) →
        readSigned reg op rt kl = (cCommon charSigned kl kr).signed) :
      BackendsAgree reg depth charSigned op lt rt kl kr := by
    refine agree_of_register hl hr hdl hop ?_
    intro l r t x h
    rw [binaryRegister_plain hl hr hdl hdr, commonType_kinds charSigned hboth]
    rw [cValue, cValue, cBinaryOp_plain hl hr ho, cNum_eq (hchar.imp_right And.left),
      cNum_eq (hchar.imp_right And.right)] at h
    exact plain_agrees ho rfl hsigned hread h
  have hchars {o : Binary} (ho : plainOperator op = some o) (hkl : kl = .char) (hkr : kr = .char)
      (hcmp : op = .eq ∨ op = .ne ∨
        (charSigned = false ∧ (op = .lt ∨ op = .le ∨ op = .gt ∨ op = .ge))) :
      BackendsAgree reg depth charSigned op lt rt kl kr := by
    subst hkl hkr
    refine agree_of_register hl hr hdl hop ?_
    intro l r t x h
    rw [cValue, cValue, cBinaryOp_plain hl hr ho] at h
    rw [binaryRegister_plain hl hr hdl hdr, ← IntN.coerce_eq, ← IntN.coerce_eq]
    have hself (b : BitVec 8) : IntN.coerce true 8 ⟨8, b⟩ = b := BitVec.setWidth_eq b
    have hagree := chars_agree ho hcmp l r h (readSigned reg op rt .char)
    rw [← hself l, ← hself r] at hagree
    exact hagree
  have harithmetic {o : Binary} (ho : plainOperator op = some o)
      (hop : op = .add ∨ op = .sub ∨ op = .mul)
      (halike : (kl != .char && readSigned reg op rt kl == (cCommon charSigned kl kr).signed) =
        true) :
      BackendsAgree reg depth charSigned op lt rt kl kr := by
    rw [Bool.and_eq_true, bne_iff_ne, beq_iff_eq] at halike
    obtain ⟨hkl, hread⟩ := halike
    have hkr : kr ≠ .char := fun hkr => hkl ((harith hop).2 hkr)
    refine hplain ho (fun hboth => hkl hboth.1) (.inr ⟨hkl, hkr⟩) (fun horder => ?_) fun _ => hread
    obtain rfl | rfl | rfl := hop <;> simp at horder
  have hequality {o : Binary} (ho : plainOperator op = some o) (hop : op = .eq ∨ op = .ne)
      (halike : (!charSigned || ((kl == .char) == (kr == .char))) = true) :
      BackendsAgree reg depth charSigned op lt rt kl kr := by
    by_cases hboth : kl = .char ∧ kr = .char
    · exact hchars ho hboth.1 hboth.2 (hop.imp_right .inl)
    · refine hplain ho hboth ?_ (fun horder => ?_) fun harith => ?_
      · revert halike hboth
        cases kl <;> cases kr <;> cases charSigned <;> decide
      · obtain rfl | rfl := hop <;> simp at horder
      · obtain rfl | rfl := hop <;> simp at harith
  have horder {o : Binary} (ho : plainOperator op = some o)
      (hop : op = .lt ∨ op = .le ∨ op = .gt ∨ op = .ge)
      (halike : orderAlike charSigned kl kr = true) :
      BackendsAgree reg depth charSigned op lt rt kl kr := by
    by_cases hboth : kl = .char ∧ kr = .char
    · refine hchars ho hboth.1 hboth.2 (.inr (.inr ⟨?_, hop⟩))
      rw [hboth.1, hboth.2] at halike
      simpa [orderAlike] using halike
    · refine hplain ho hboth ?_ (fun _ => ?_) fun harith => ?_
      · revert halike hboth
        cases kl <;> cases kr <;> cases charSigned <;> decide
      · revert halike hboth
        cases kl <;> cases kr <;> cases charSigned <;> decide
      · obtain rfl | rfl | rfl | rfl := hop <;> simp at harith
  cases op <;> first | exact absurd hop (by decide) | skip
  case add | sub | mul => exact harithmetic rfl (by simp) halike
  case intDiv | mod =>
    exact division_agrees hl hr hdl hdr (by simp) (hdiv (by simp)) halike
  case eq | ne => exact hequality rfl (by simp) halike
  case lt | le | gt | ge => exact horder rfl (by simp) halike

end Operator

/-! ## Accepted operands -/

section Accepted

variable {reg : TypeRegistry}

theorem get_ne_of_kind (k : IntKind) {t : RegType} (ht : t ∉ [.integer, .cardinal, .longInt,
    .longCard, .char]) : reg.get k.id ≠ t := by
  rw [get_kind]
  rintro rfl
  cases k <;> exact ht (by decide)

/-- A type at the front of a chain is an alias, or the chain is empty. -/
theorem chain_cases {n : Nat} {tid : TypeId} {k : IntKind}
    (h : TypeRegistry.AliasChain reg n tid k.id) :
    (n = 0 ∧ tid = k.id) ∨ ∃ name target m, n = m + 1 ∧ reg.get tid = .alias name target ∧
      TypeRegistry.AliasChain reg m target k.id := by
  cases h with
  | refl => exact .inl ⟨rfl, rfl⟩
  | step halias hrest => exact .inr ⟨_, _, _, rfl, halias, hrest⟩

/-- Behind the aliases there is one type. -/
theorem kind_unique {n m : Nat} {tid : TypeId} {k k' : IntKind}
    (h : TypeRegistry.AliasChain reg n tid k.id) (h' : TypeRegistry.AliasChain reg m tid k'.id) :
    k = k' := by
  induction n generalizing tid m with
  | zero =>
    obtain ⟨-, rfl⟩ | ⟨_, _, _, hn, -⟩ := chain_cases h
    · obtain ⟨-, hid⟩ | ⟨name, target, _, -, halias, -⟩ := chain_cases h'
      · revert hid
        cases k <;> cases k' <;> decide
      · exact absurd halias (get_ne_of_kind k (by simp))
    · exact nomatch hn
  | succ n ih =>
    obtain ⟨hn, -⟩ | ⟨name, target, _, hn, halias, hrest⟩ := chain_cases h
    · exact nomatch hn
    · cases hn
      obtain ⟨-, rfl⟩ | ⟨name', target', _, -, halias', hrest'⟩ := chain_cases h'
      · exact absurd halias (get_ne_of_kind k' (by simp))
      · rw [halias] at halias'
        cases halias'
        exact ih hrest hrest'

/-- A character is compatible with characters only. -/
theorem char_iff_of_compatible {depth nl nr : Nat} {lt rt : TypeId} {kl kr : IntKind}
    (hl : TypeRegistry.AliasChain reg nl lt kl.id) (hr : TypeRegistry.AliasChain reg nr rt kr.id)
    (h : reg.expressionCompatible depth lt rt = true) : kl = .char ↔ kr = .char := by
  induction depth generalizing lt rt nl nr with
  | zero => exact nomatch h
  | succ depth ih =>
    rw [TypeRegistry.expressionCompatible] at h
    dsimp only at h
    by_cases heq : lt = rt
    · subst heq
      rw [kind_unique hl hr]
    rw [if_neg heq] at h
    obtain ⟨-, rfl⟩ | ⟨name, target, m, -, halias, hrest⟩ := chain_cases hl
    · have hne : kl.id ≠ tyError := by cases kl <;> decide
      obtain ⟨-, rfl⟩ | ⟨name', target', m', -, halias', hrest'⟩ := chain_cases hr
      · have hne' : kr.id ≠ tyError := by cases kr <;> decide
        rw [if_neg (not_or.2 ⟨hne, hne'⟩), get_kind, get_kind] at h
        cases kl <;> cases kr <;> first | exact absurd h Bool.false_ne_true | simp
      · have hne' : rt ≠ tyError := TypeRegistry.ne_of_alias halias' (by decide)
        rw [if_neg (not_or.2 ⟨hne, hne'⟩), get_kind, halias'] at h
        cases kl <;> exact ih hl hrest' h
    · have hne : lt ≠ tyError := TypeRegistry.ne_of_alias halias (by decide)
      have hne' : rt ≠ tyError := by
        obtain ⟨-, rfl⟩ | ⟨name', target', m', -, halias', -⟩ := chain_cases hr
        · cases kr <;> decide
        · exact TypeRegistry.ne_of_alias halias' (by decide)
      rw [if_neg (not_or.2 ⟨hne, hne'⟩), halias] at h
      have hnum : (RegType.alias name target).isNumeric = false := rfl
      have hint : (RegType.alias name target).isIntegerType = false := rfl
      have haddr : (RegType.alias name target == .address) = false := rfl
      have hset : (RegType.alias name target).isSetType = false := rfl
      simp only [hnum, hint, haddr, hset, Bool.false_and, Bool.or_false, Bool.false_eq_true,
        if_false] at h
      exact ih hrest hr h

/-- No character is divided. -/
theorem ne_char_of_integer {n : Nat} {tid : TypeId} {k : IntKind}
    (h : TypeRegistry.AliasChain reg n tid k.id)
    (hacc : ((reg.get (reg.resolveHirAlias tid)).isIntegerType ||
      reg.get (reg.resolveHirAlias tid) == .address) = true) : k ≠ .char := by
  rintro rfl
  obtain ⟨m, hm⟩ := chain_followAliases h 51
  rw [TypeRegistry.resolveHirAlias] at hacc
  obtain ⟨-, hid⟩ | ⟨name, target, _, -, halias, -⟩ := chain_cases hm
  · rw [hid, get_kind] at hacc
    exact absurd hacc (by decide)
  · rw [halias] at hacc
    exact absurd hacc Bool.false_ne_true

end Accepted

/-! ## Operands on which the backends differ -/

/-- The kinds of operands. -/
def intKinds : List IntKind := [.integer, .cardinal, .longInt, .longCard, .char]

/-- A registry with an alias of each type. -/
def aliasRegistry : TypeRegistry := ⟨intKinds.map fun k => .alias "T" k.id⟩

/-- The id of a type or of its alias. -/
def kindId (k : IntKind) (aliased : Bool) : TypeId :=
  if aliased then 20 + intKinds.idxOf k else k.id

/-- The values of two operands. -/
def samples : List (Int × Int) :=
  [(-2147483647, -1), (128, 128), (9223372036854775807, 2147483649), (128, 1), (-2, 1), (1, -2),
    (1, 2)]

/-- Whether the backends differ on two operands, if LLVM reads the result as signed or not. -/
def differAt (charSigned signed : Bool) (op : BinaryOp) (lt rt : TypeId) (kl kr : IntKind)
    (p : Int × Int) : Bool :=
  match cBinaryOp aliasRegistry op lt rt (cValue charSigned kl (BitVec.ofInt kl.width p.1))
      (cValue charSigned kr (BitVec.ofInt kr.width p.2)) with
  | some (.int _ v) =>
    match binaryRegister aliasRegistry 2 op (IntN.ofInt kl.width p.1) (IntN.ofInt kr.width p.2)
        lt rt with
    | some x => !decide (x.num signed = v)
    | none => true
  | _ => false

/-- Wherever the backends do not compute alike, they differ on one of the samples. -/
theorem differAt_of_not_alike :
    ([BinaryOp.add, .sub, .mul, .intDiv, .mod, .eq, .ne, .lt, .le, .gt, .ge].all fun op =>
      intKinds.all fun kl => intKinds.all fun kr => [true, false].all fun al =>
        [true, false].all fun ar => [true, false].all fun charSigned =>
          [true, false].all fun signed =>
          operateAlike charSigned signed op (kindId kl al) (kindId kr ar) kl kr ||
          (((op == .add || op == .sub || op == .mul) && (kl == .char) != (kr == .char)) ||
            ((op == .intDiv || op == .mod) && (kl == .char || signed == kl.unsigned)) ||
            samples.any (differAt charSigned signed op (kindId kl al) (kindId kr ar) kl kr))) =
      true := by
  decide +kernel

section Differ

variable {reg : TypeRegistry} {nl nr depth : Nat} {lt rt : TypeId} {kl kr : IntKind}

theorem chain_kindId (k : IntKind) (aliased : Bool) :
    TypeRegistry.AliasChain aliasRegistry (if aliased then 1 else 0) (kindId k aliased) k.id := by
  cases aliased with
  | false => exact .refl _
  | true =>
    have halias : aliasRegistry.get (kindId k true) = .alias "T" k.id := by cases k <;> rfl
    exact .step halias (.refl _)

/-- The tests for ids only see whether there is an alias. -/
theorem isHirUnsigned_kindId {n : Nat} {tid : TypeId} {k : IntKind}
    (h : TypeRegistry.AliasChain reg n tid k.id) :
    isHirUnsigned tid = isHirUnsigned (kindId k (n != 0)) := by
  cases n with
  | zero => rw [h.eq_of_zero]; rfl
  | succ n =>
    rw [h.isHirUnsigned_eq]
    cases k <;> rfl

theorem isHirLong_kindId {n : Nat} {tid : TypeId} {k : IntKind}
    (h : TypeRegistry.AliasChain reg n tid k.id) :
    isHirLong tid = isHirLong (kindId k (n != 0)) := by
  cases n with
  | zero => rw [h.eq_of_zero]; rfl
  | succ n =>
    rw [h.isHirLong_eq]
    cases k <;> rfl

/-- The C text depends on the types behind the aliases and on whether there are any. -/
theorem cBinaryOp_kindId (hl : TypeRegistry.AliasChain reg nl lt kl.id)
    (hr : TypeRegistry.AliasChain reg nr rt kr.id) (op : BinaryOp) (l r : CValue) :
    cBinaryOp reg op lt rt l r =
      cBinaryOp aliasRegistry op (kindId kl (nl != 0)) (kindId kr (nr != 0)) l r := by
  have hsl := isHirSet_of_chain hl
  have hsr := isHirSet_of_chain hr
  have hcl := isHirComplex_of_chain hl
  have hsl' := isHirSet_of_chain (chain_kindId kl (nl != 0))
  have hsr' := isHirSet_of_chain (chain_kindId kr (nr != 0))
  have hcl' := isHirComplex_of_chain (chain_kindId kl (nl != 0))
  have hselect : reg.selectBinaryOp op lt rt =
      aliasRegistry.selectBinaryOp op (kindId kl (nl != 0)) (kindId kr (nr != 0)) := by
    cases op <;>
      simp only [TypeRegistry.selectBinaryOp, isHirUnsigned_kindId hl, isHirUnsigned_kindId hr,
        isHirLong_kindId hl, isHirLong_kindId hr, hsl, hsr, hcl, hsl', hsr', hcl']
  rw [cBinaryOp, cBinaryOp, hselect]

theorem binaryRegister_kindId (hl : TypeRegistry.AliasChain reg nl lt kl.id)
    (hr : TypeRegistry.AliasChain reg nr rt kr.id) (hdl : nl < depth) (hdr : nr < depth)
    (op : BinaryOp) (l r : IntN) :
    binaryRegister reg depth op l r lt rt =
      binaryRegister aliasRegistry 2 op l r (kindId kl (nl != 0)) (kindId kr (nr != 0)) := by
  have hle (b : Bool) : (if b then 1 else 0) < 2 := by cases b <;> decide
  rw [binaryRegister_plain hl hr hdl hdr,
    binaryRegister_plain (chain_kindId kl _) (chain_kindId kr _) (hle _) (hle _)]

theorem operateAlike_kindId {charSigned signed : Bool}
    (hl : TypeRegistry.AliasChain reg nl lt kl.id)
    (hr : TypeRegistry.AliasChain reg nr rt kr.id) (op : BinaryOp) :
    operateAlike charSigned signed op lt rt kl kr =
      operateAlike charSigned signed op (kindId kl (nl != 0)) (kindId kr (nr != 0)) kl kr := by
  have hdivide : divideAlike charSigned lt rt kl kr =
      divideAlike charSigned (kindId kl (nl != 0)) (kindId kr (nr != 0)) kl kr := by
    rw [divideAlike, isHirUnsigned_kindId hl, isHirUnsigned_kindId hr, isHirLong_kindId hl,
      isHirLong_kindId hr]
    rfl
  cases op <;> first | exact hdivide | rfl

/-- What both backends do not compute alike has other values for some operands. -/
theorem not_agree_of_not_alike {charSigned : Bool} (hl : TypeRegistry.AliasChain reg nl lt kl.id)
    (hr : TypeRegistry.AliasChain reg nr rt kr.id) (hdl : nl < depth) (hdr : nr < depth)
    {op : BinaryOp} (hop : op.isInteger = true)
    (harith : op = .add ∨ op = .sub ∨ op = .mul → (kl = .char ↔ kr = .char))
    (hdiv : op = .intDiv ∨ op = .mod → kl ≠ .char)
    (halike : operateAlike charSigned (readSigned reg op rt kl) op lt rt kl kr = false) :
    ¬ BackendsAgree reg depth charSigned op lt rt kl kr := by
  intro hagree
  have hmem (k : IntKind) : k ∈ intKinds := by cases k <;> decide
  have hall := differAt_of_not_alike
  simp only [List.all_eq_true] at hall
  have hcase := hall op (by cases op <;> first | exact absurd hop (by decide) | decide) kl (hmem kl)
    kr (hmem kr) (nl != 0) (by cases (nl != 0) <;> decide) (nr != 0)
    (by cases (nr != 0) <;> decide) charSigned (by cases charSigned <;> decide)
    (readSigned reg op rt kl) (by cases readSigned reg op rt kl <;> decide)
  rw [← operateAlike_kindId hl hr op, halike, Bool.false_or] at hcase
  have hmixed : ((op == .add || op == .sub || op == .mul) && (kl == .char) != (kr == .char)) =
      false := by
    cases op <;> first | rfl | skip
    all_goals
      have hiff := harith (by simp)
      revert hiff
      cases kl <;> cases kr <;> decide
  have hdivided : ((op == .intDiv || op == .mod) &&
      (kl == .char || readSigned reg op rt kl == kl.unsigned)) = false := by
    cases op <;> first | rfl | skip
    all_goals
      have hne := hdiv (by simp)
      revert hne
      simp only [readSigned]
      cases kl <;> decide
  rw [hmixed, hdivided, Bool.false_or, Bool.false_or, List.any_eq_true] at hcase
  obtain ⟨p, -, hdiffer⟩ := hcase
  rw [differAt, ← cBinaryOp_kindId hl hr] at hdiffer
  split at hdiffer
  · next t v hc =>
    obtain ⟨y, hy, hnum⟩ := hagree _ _ t v hc
    rw [genHirBinaryOp, binaryRegister_kindId hl hr hdl hdr] at hy
    obtain ⟨x, hx, rfl⟩ := Option.map_eq_some_iff.mp hy
    rw [LlvmVal.num, isUnsignedType_result hl hr hdl hop] at hnum
    rw [IntN.ofInt, IntN.ofInt, hx] at hdiffer
    simp [hnum] at hdiffer
  · exact Bool.false_ne_true hdiffer

end Differ

/-! ## All operators -/

/-- For an operator on integers that `sema` accepts, behind any aliases and for either signedness of
`char`, the two backends compute the same values just if they compute it alike. -/
theorem backendsAgree_iff {reg : TypeRegistry} {nl nr depth : Nat} {lt rt : TypeId}
    {kl kr : IntKind}
    (charSigned : Bool) {op : BinaryOp} (hop : op.isInteger = true)
    (hl : TypeRegistry.AliasChain reg nl lt kl.id) (hr : TypeRegistry.AliasChain reg nr rt kr.id)
    (hdl : nl < depth) (hdr : nr < depth) (haccepts : reg.acceptsOperands depth op lt rt = true) :
    BackendsAgree reg depth charSigned op lt rt kl kr ↔
      operateAlike charSigned (readSigned reg op rt kl) op lt rt kl kr = true := by
  have harith : op = .add ∨ op = .sub ∨ op = .mul → (kl = .char ↔ kr = .char) := by
    rintro (rfl | rfl | rfl) <;> exact char_iff_of_compatible hl hr haccepts
  have hdiv : op = .intDiv ∨ op = .mod → kl ≠ .char := by
    rintro (rfl | rfl) <;> exact ne_char_of_integer hl haccepts
  constructor
  · intro hagree
    by_contra halike
    exact not_agree_of_not_alike hl hr hdl hdr hop harith hdiv (Bool.not_eq_true _ ▸ halike) hagree
  · exact agree_of_alike hl hr hdl hdr hop harith hdiv

/-- `x < y` for a `CARDINAL` and an alias of `CARDINAL`. -/
theorem backendsAgree_cardinals :
    aliasRegistry.acceptsOperands 2 .lt tyCardinal (kindId .cardinal true) = true ∧
      BackendsAgree aliasRegistry 2 true .lt tyCardinal (kindId .cardinal true) .cardinal
        .cardinal :=
  ⟨rfl, (backendsAgree_iff true rfl (.refl _) (chain_kindId .cardinal true) (by decide) (by decide)
    rfl).2 rfl⟩

/-- `x < y` for a `CARDINAL` and a negative `LONGINT` is false in C and true for LLVM. -/
theorem not_backendsAgree_cardinal_longInt :
    ¬ ∀ (reg : TypeRegistry) (depth nl nr : Nat) (charSigned : Bool) (op : BinaryOp)
      (lt rt : TypeId) (kl kr : IntKind), op.isInteger = true →
        TypeRegistry.AliasChain reg nl lt kl.id → TypeRegistry.AliasChain reg nr rt kr.id →
        nl < depth → nr < depth → reg.acceptsOperands depth op lt rt = true →
        BackendsAgree reg depth charSigned op lt rt kl kr := by
  intro h
  have hagree := h aliasRegistry 1 0 0 true .lt tyCardinal tyLongInt .cardinal .longInt rfl
    (.refl _) (.refl _) (by decide) (by decide) rfl
  obtain ⟨x, hx, hnum⟩ := hagree 1 (-1) .int 0 (by decide +kernel)
  have hone : x = ⟨IntN.ofInt 32 1, tyBoolean⟩ := by
    have heval : genHirBinaryOp aliasRegistry 1 .lt ⟨IntKind.cardinal.width, 1⟩
        ⟨IntKind.longInt.width, -1⟩ tyCardinal tyLongInt tyBoolean =
        some ⟨IntN.ofInt 32 1, tyBoolean⟩ := by
      decide +kernel
    exact Option.some.inj (hx.symm.trans heval)
  subst hone
  exact absurd hnum (by decide)

example : CIntType.int.bits < CIntType.long.bits := by decide +kernel

end Mx

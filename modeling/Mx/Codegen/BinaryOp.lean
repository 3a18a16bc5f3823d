import Mx.Types.Registry

/-!
# Operator selection in the C backend

`emit_binary_op_c` picks the C operation of a binary operator from the types of its operands.
Whether an operand is unsigned, long, a set or complex is decided by four helpers, of which
only the last one looks through type aliases.
-/

namespace Mx

/-- The shape of the C text of a binary operation on the texts `l` and `r`. -/
inductive BinaryEmission where
  /-- `(l op r)` -/
  | parens (op : String)
  /-- `l op r`, without parentheses -/
  | bare (op : String)
  /-- `name(l, r)` -/
  | call (name : String)
  /-- `(!name(l, r))` -/
  | notCall (name : String)
  /-- `(l & ~(r))` -/
  | andNot
  /-- `((double)(l) / (double)(r))` -/
  | realDiv
  /-- `((r >> l) & 1)` -/
  | member
  deriving DecidableEq, Repr

/-- `is_hir_unsigned`, by the operand's type id. -/
def isHirUnsigned (ty : TypeId) : Bool := ty == tyCardinal || ty == tyLongCard

/-- `is_hir_long`. -/
def isHirLong (ty : TypeId) : Bool := ty == tyLongInt || ty == tyLongCard

/-- `COMPLEX` and `LONGCOMPLEX`. -/
def RegType.isComplex : RegType → Bool
  | .complex | .longComplex => true
  | _ => false

/-- A set type declared with `SET OF`. -/
def RegType.isSet : RegType → Bool
  | .set _ => true
  | _ => false

namespace TypeRegistry

/-- `is_hir_set`. -/
def isHirSet (reg : TypeRegistry) (ty : TypeId) : Bool :=
  ty == tyBitset || (reg.get ty).isSet

/-- Whether a type is complex after following at most `n` aliases. -/
def complexWithin (reg : TypeRegistry) (n : Nat) (ty : TypeId) : Bool :=
  (reg.get (reg.followAliases n ty)).isComplex

/-- `is_hir_complex`. -/
def isHirComplex (reg : TypeRegistry) (ty : TypeId) : Bool :=
  (reg.get (reg.resolveHirAlias ty)).isComplex

/-- `binary_result_type`, by the registry of the builder. -/
def binaryResultType (reg : TypeRegistry) (op : BinaryOp) (leftTy rightTy : TypeId) : TypeId :=
  let lt := reg.resolveHirAlias leftTy
  let rt := reg.resolveHirAlias rightTy
  match op with
  | .eq | .ne | .lt | .le | .gt | .ge | .isIn | .and | .or => tyBoolean
  | .add | .sub | .mul =>
    if lt = tyLongReal ∨ rt = tyLongReal then tyLongReal
    else if lt = tyReal ∨ rt = tyReal then tyReal
    else if lt = tyLongInt ∨ rt = tyLongInt then tyLongInt
    else leftTy
  | .realDiv => if lt = tyLongReal ∨ rt = tyLongReal then tyLongReal else tyReal
  | .intDiv | .mod => leftTy

/-- The C operation that `emit_binary_op_c` selects. -/
def selectBinaryOp (reg : TypeRegistry) (op : BinaryOp) (left right : TypeId) : BinaryEmission :=
  match op with
  | .intDiv =>
    if isHirUnsigned left || isHirUnsigned right then .parens "/"
    else if isHirLong left || isHirLong right then .call "m2_div64"
    else .call "m2_div"
  | .mod =>
    if isHirUnsigned left || isHirUnsigned right then .parens "%"
    else if isHirLong left || isHirLong right then .call "m2_mod64"
    else .call "m2_mod"
  | .realDiv =>
    if reg.isHirSet left || reg.isHirSet right then .parens "^"
    else if reg.isHirComplex left then .call "m2_complex_div"
    else .realDiv
  | .isIn => .member
  | .eq => if reg.isHirComplex left then .call "m2_complex_eq" else .bare "=="
  | .ne => if reg.isHirComplex left then .notCall "m2_complex_eq" else .bare "!="
  | .lt => .bare "<"
  | .le => .bare "<="
  | .gt => .bare ">"
  | .ge => .bare ">="
  | .and => .parens "&&"
  | .or => .parens "||"
  | .add =>
    if reg.isHirSet left || reg.isHirSet right then .parens "|"
    else if reg.isHirComplex left then .call "m2_complex_add"
    else .parens "+"
  | .sub =>
    if reg.isHirSet left || reg.isHirSet right then .andNot
    else if reg.isHirComplex left then .call "m2_complex_sub"
    else .parens "-"
  | .mul =>
    if reg.isHirSet left || reg.isHirSet right then .parens "&"
    else if reg.isHirComplex left then .call "m2_complex_mul"
    else .parens "*"

/-! ## The helpers on an alias -/

section Alias

variable {reg : TypeRegistry} {n : Nat} {s t : TypeId}

theorem AliasChain.eq_of_zero (h : AliasChain reg 0 s t) : s = t := by
  cases h
  rfl

theorem AliasChain.isHirUnsigned_eq (h : AliasChain reg (n + 1) s t) :
    isHirUnsigned s = false := by
  obtain _ | ⟨halias, _⟩ := h
  have hcard : s ≠ tyCardinal := ne_of_alias halias (by decide)
  have hlongCard : s ≠ tyLongCard := ne_of_alias halias (by decide)
  simp [isHirUnsigned, hcard, hlongCard]

theorem AliasChain.isHirLong_eq (h : AliasChain reg (n + 1) s t) : isHirLong s = false := by
  obtain _ | ⟨halias, _⟩ := h
  have hlongInt : s ≠ tyLongInt := ne_of_alias halias (by decide)
  have hlongCard : s ≠ tyLongCard := ne_of_alias halias (by decide)
  simp [isHirLong, hlongInt, hlongCard]

theorem AliasChain.isHirSet_eq (h : AliasChain reg (n + 1) s t) : reg.isHirSet s = false := by
  obtain _ | ⟨halias, _⟩ := h
  have hbitset : s ≠ tyBitset := ne_of_alias halias (by decide)
  simp [isHirSet, hbitset, halias, RegType.isSet]

/-- Aliases in front of a type use up the bound of the loop. -/
theorem AliasChain.isHirComplex_eq (h : AliasChain reg n s t) :
    reg.isHirComplex s = (decide (n ≤ 51) && reg.complexWithin (51 - n) t) := by
  by_cases hn : n ≤ 51
  · have hfollow := followAliases_of_chain h (51 - n)
    rw [Nat.add_sub_cancel' hn] at hfollow
    simp [isHirComplex, resolveHirAlias, complexWithin, hfollow, hn]
  · -- the loop stops at an alias
    have hstop : ∀ k m u, AliasChain reg (k + 1 + m) u t →
        (reg.get (reg.followAliases m u)).isComplex = false := by
      intro k m
      induction m with
      | zero =>
        intro u hu
        obtain _ | ⟨halias, _⟩ := hu
        simp [followAliases, halias, RegType.isComplex]
      | succ m ih =>
        intro u hu
        obtain _ | ⟨halias, hrest⟩ := hu
        rw [followAliases, halias]
        exact ih _ hrest
    obtain ⟨k, rfl⟩ : ∃ k, n = k + 1 + 51 := ⟨n - 52, by omega⟩
    simp [isHirComplex, resolveHirAlias, hstop k 51 s h]

end Alias

/-! ## Selection under aliases -/

/-- The operand that decides a class by its own id is not replaced: of the operands in the
class, one stands at the end of an empty chain. -/
def Kept (inClass : TypeId → Bool) (left right : TypeId) (n m : Nat) : Prop :=
  inClass left = true ∧ n = 0 ∨ inClass right = true ∧ m = 0

/-- A left operand that is recognized as complex still is, behind `n` more aliases. -/
def ComplexKept (reg : TypeRegistry) (left : TypeId) (n : Nat) : Prop :=
  reg.isHirComplex left = true → n ≤ 51 ∧ reg.complexWithin (51 - n) left = true

/-- When an operator selects the same operation after `n` aliases were put in front of the
type of its left operand and `m` in front of the type of its right one. -/
def SelectionKept (reg : TypeRegistry) (op : BinaryOp) (left right : TypeId) (n m : Nat) : Prop :=
  match op with
  | .intDiv | .mod =>
    if isHirUnsigned left || isHirUnsigned right then Kept isHirUnsigned left right n m
    else if isHirLong left || isHirLong right then Kept isHirLong left right n m
    else True
  | .realDiv | .add | .sub | .mul =>
    if reg.isHirSet left || reg.isHirSet right then Kept reg.isHirSet left right n m
    else reg.ComplexKept left n
  | .eq | .ne => reg.ComplexKept left n
  | _ => True

section Selection

variable {reg : TypeRegistry} {l l' r r' : TypeId} {n m : Nat}

/-- One of two operands is in a class after the replacement exactly if one was before and is
kept. -/
theorem class_or_iff {inClass : TypeId → Bool} (hl : AliasChain reg n l' l)
    (hr : AliasChain reg m r' r)
    (halias : ∀ k s t, AliasChain reg (k + 1) s t → inClass s = false) :
    (inClass l' || inClass r') = true ↔ Kept inClass l r n m := by
  have hone : ∀ {k s t}, AliasChain reg k s t → (inClass s = true ↔ inClass t = true ∧ k = 0) := by
    intro k s t h
    cases k with
    | zero => simp [h.eq_of_zero]
    | succ k => simp [halias k s t h]
  rw [Bool.or_eq_true, hone hl, hone hr, Kept]

theorem Kept.class_or {inClass : TypeId → Bool} (h : Kept inClass l r n m) :
    (inClass l || inClass r) = true := by
  rcases h with ⟨h, _⟩ | ⟨h, _⟩ <;> simp [h]

theorem class_or_eq_iff {inClass : TypeId → Bool}
    (h : (inClass l' || inClass r') = true ↔ Kept inClass l r n m) :
    (inClass l' || inClass r') = (inClass l || inClass r) ↔
      if inClass l || inClass r then Kept inClass l r n m else True := by
  rw [← h]
  by_cases hb : (inClass l || inClass r) = true
  · rw [if_pos hb, hb]
  · have hb' : ¬ (inClass l' || inClass r') = true := fun hc => hb (h.mp hc).class_or
    rw [if_neg hb, iff_true, Bool.eq_false_iff.mpr hb, Bool.eq_false_iff.mpr hb']

theorem complexWithin_mono {k k' : Nat} {t : TypeId} (hk : k ≤ k')
    (h : reg.complexWithin k t = true) : reg.complexWithin k' t = true := by
  induction k generalizing k' t with
  | zero =>
    cases k' with
    | zero => exact h
    | succ k' =>
      simp only [complexWithin, followAliases] at h ⊢
      split
      · next halias => simp [halias, RegType.isComplex] at h
      · exact h
  | succ k ih =>
    obtain ⟨j, rfl⟩ : ∃ j, k' = j + 1 := ⟨k' - 1, by omega⟩
    simp only [complexWithin, followAliases] at h ⊢
    split
    · next halias =>
      rw [halias] at h
      exact ih (Nat.le_of_succ_le_succ hk) h
    · next hnot =>
      split at h
      · next halias => exact absurd halias (hnot _ _)
      · exact h

theorem isHirComplex_eq_iff (hl : AliasChain reg n l' l) :
    reg.isHirComplex l' = reg.isHirComplex l ↔ reg.ComplexKept l n := by
  have hl' := hl.isHirComplex_eq
  have hmono : reg.isHirComplex l' = true → reg.isHirComplex l = true := by
    intro h
    rw [hl', Bool.and_eq_true] at h
    exact complexWithin_mono (Nat.sub_le 51 n) h.2
  rw [ComplexKept, ← decide_eq_true_iff (p := n ≤ 51), ← Bool.and_eq_true, ← hl']
  constructor
  · intro h hc
    rw [h, hc]
  · intro h
    apply Bool.eq_iff_iff.mpr
    exact ⟨hmono, h⟩

/-- Two nested choices between different operations, of which the second pair of conditions
holds whenever the first does. -/
theorem choice_eq_iff {β : Type} {x y z : β} (hxy : x ≠ y) (hxz : x ≠ z) (hyz : y ≠ z)
    {a a' b b' : Bool} (ha : a' = true → a = true) :
    ((if a' then x else if b' then y else z) = if a then x else if b then y else z) ↔
      if a then a' = true else b' = b := by
  cases a with
  | true => cases a' <;> cases b' <;> simp [hxy.symm, hxz.symm]
  | false =>
    obtain rfl : a' = false := by simpa using ha
    cases b' <;> cases b <;> simp [hyz, hyz.symm]

theorem division_eq_iff (hl : AliasChain reg n l' l) (hr : AliasChain reg m r' r)
    {x y z : BinaryEmission} (hxy : x ≠ y) (hxz : x ≠ z) (hyz : y ≠ z) :
    ((if isHirUnsigned l' || isHirUnsigned r' then x
      else if isHirLong l' || isHirLong r' then y else z) =
      if isHirUnsigned l || isHirUnsigned r then x
      else if isHirLong l || isHirLong r then y else z) ↔
    if isHirUnsigned l || isHirUnsigned r then Kept isHirUnsigned l r n m
    else if isHirLong l || isHirLong r then Kept isHirLong l r n m else True := by
  have hunsigned := class_or_iff hl hr fun _ _ _ h => h.isHirUnsigned_eq
  have hlong := class_or_iff hl hr fun _ _ _ h => h.isHirLong_eq
  rw [choice_eq_iff hxy hxz hyz fun h => (hunsigned.mp h).class_or, hunsigned,
    class_or_eq_iff hlong]

theorem overloaded_eq_iff (hl : AliasChain reg n l' l) (hr : AliasChain reg m r' r)
    {x y z : BinaryEmission} (hxy : x ≠ y) (hxz : x ≠ z) (hyz : y ≠ z) :
    ((if reg.isHirSet l' || reg.isHirSet r' then x
      else if reg.isHirComplex l' then y else z) =
      if reg.isHirSet l || reg.isHirSet r then x
      else if reg.isHirComplex l then y else z) ↔
    if reg.isHirSet l || reg.isHirSet r then Kept reg.isHirSet l r n m
    else reg.ComplexKept l n := by
  have hset := class_or_iff hl hr fun _ _ _ h => h.isHirSet_eq
  rw [choice_eq_iff hxy hxz hyz fun h => (hset.mp h).class_or, hset, isHirComplex_eq_iff hl]

/-- Aliases leave the operation of every binary operator unchanged if and only if the operand
that decides it keeps its id: for `DIV` and `MOD` an unsigned operand, or else a long one, for
the operators that sets overload a set operand, and otherwise, where a complex left operand
decides, if its type stays within reach of the alias loop. -/
theorem selectBinaryOp_alias_iff (op : BinaryOp) (hl : AliasChain reg n l' l)
    (hr : AliasChain reg m r' r) :
    reg.selectBinaryOp op l' r' = reg.selectBinaryOp op l r ↔ reg.SelectionKept op l r n m := by
  cases op with
  | intDiv | mod => exact division_eq_iff hl hr (by simp) (by simp) (by simp)
  | realDiv | add | sub | mul => exact overloaded_eq_iff hl hr (by simp) (by simp) (by simp)
  | eq | ne =>
    simp only [selectBinaryOp, SelectionKept, ← isHirComplex_eq_iff hl]
    cases reg.isHirComplex l' <;> cases reg.isHirComplex l <;> simp
  | _ => simp [selectBinaryOp, SelectionKept]

end Selection

/-- The registry after `TYPE Card = CARDINAL` in a block. -/
def cardRegistry : TypeRegistry := ⟨[.alias "Card" tyCardinal]⟩

/-- The id of `Card`. -/
def tyCard : TypeId := 20

theorem card_chain : AliasChain cardRegistry 1 tyCard tyCardinal := .step rfl (.refl _)

/-- A `Card` is added like a `CARDINAL`. -/
theorem selectBinaryOp_card_add :
    AliasChain cardRegistry 1 tyCard tyCardinal ∧
      cardRegistry.selectBinaryOp .add tyCard tyCard =
        cardRegistry.selectBinaryOp .add tyCardinal tyCardinal :=
  ⟨card_chain, (selectBinaryOp_alias_iff .add card_chain card_chain).mpr fun h => by
    simp [isHirComplex, resolveHirAlias, followAliases, get, types, builtinTypes, tyCardinal,
      RegType.isComplex] at h⟩

/-- `x DIV y` on two variables of type `Card` is emitted as `m2_div(x, y)`, on two variables
of type `CARDINAL` as `(x / y)`. -/
theorem selectBinaryOp_card_div :
    ¬ ∀ (reg : TypeRegistry) (op : BinaryOp) (n m : Nat) (l l' r r' : TypeId),
      AliasChain reg n l' l → AliasChain reg m r' r →
        reg.selectBinaryOp op l' r' = reg.selectBinaryOp op l r := by
  intro h
  have hdiv := h cardRegistry .intDiv 1 1 _ _ _ _ card_chain card_chain
  exact absurd hdiv (by decide)

end TypeRegistry

end Mx

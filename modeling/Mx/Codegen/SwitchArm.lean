import Mx.Core.CInt
import Mx.Cfg.Graph
import Mx.Codegen.TypeLowering

/-!
# The arm of a `CASE` in the two backends

Both backends emit a switch as a chain of tests. The C backend writes the text of the selector into
every test, so it is evaluated again each time, and compares it with the label constants under C's
conversions. The LLVM backend evaluates the selector once, truncates the constants to its width and
compares with `icmp eq`, `sge` and `sle`, which are signed. A negated label is a register of the
type of its operand, which need not be that of the selector.
-/

namespace Mx

open List CodeGen

/-- The ordinal types of a selector. -/
inductive OrdinalType where
  | integer | cardinal | char | longInt | longCard | enumeration
  deriving DecidableEq, Repr

namespace OrdinalType

/-- The number of bits of a value. -/
def width : OrdinalType → Nat
  | .char => 8
  | .integer | .cardinal | .enumeration => 32
  | .longInt | .longCard => 64

/-- The LLVM type of a value. -/
def llvmType : OrdinalType → LLVMType
  | .char => .i8
  | .integer | .cardinal | .enumeration => .i32
  | .longInt | .longCard => .i64

/-- Whether the type has negative values. -/
def signed : OrdinalType → Bool
  | .integer | .longInt => true
  | .cardinal | .char | .longCard | .enumeration => false

/-- The number that a value stands for. -/
def number (t : OrdinalType) (x : BitVec t.width) : Int :=
  if t.signed then x.toInt else x.toNat

/-- The C type of a selector; `char` is signed on some platforms. -/
def cType (charSigned : Bool) : OrdinalType → CIntType
  | .integer => .int
  | .cardinal | .enumeration => .uint
  | .char => ⟨8, charSigned⟩
  | .longInt => .long
  | .longCard => .ulong

/-- The smallest label constant. -/
def low : OrdinalType → Int
  | .integer => -2 ^ 31
  | .longInt => -2 ^ 63
  | .cardinal | .char | .longCard | .enumeration => 0

/-- The largest label constant; an integer literal of the HIR is an `i64`. -/
def high : OrdinalType → Int
  | .integer => 2 ^ 31 - 1
  | .cardinal | .enumeration => 2 ^ 32 - 1
  | .char => 2 ^ 8 - 1
  | .longInt | .longCard => 2 ^ 63 - 1

/-- The first value of the upper half. -/
def half (t : OrdinalType) : Int := 2 ^ (t.width - 1)

end OrdinalType

/-! ## Label constants -/

/-- A label constant: a number, the negation of a literal of a type, or a character literal. -/
inductive CaseConst where
  | int (v : Int)
  | neg (v : Int) (ty : TypeId)
  | char (c : Char)

namespace CaseConst

/-- The constant of a label expression. The builder has replaced a constant's name by its
value; a string of at most one byte is a character where a `CHAR` is expected. -/
def ofExpr : HirExpr → Option CaseConst
  | ⟨.intLit v, _, _⟩ => some (.int v)
  | ⟨.unaryOp .neg ⟨.intLit v, ty, _⟩, _, _⟩ => some (.neg v ty)
  | ⟨.charLit c, _, _⟩ => some (.char c)
  | ⟨.stringLit s, ty, _⟩ =>
    if ty = tyChar ∧ s.utf8ByteSize ≤ 1 then some (.char (s.toList.headD '\x00')) else none
  | _ => none

/-- The ordinal number of a constant. -/
def number : CaseConst → Int
  | .int v => v
  | .neg v _ => -v
  | .char c => c.toNat

/-- A constant of an ordinal type. -/
def OfType (t : OrdinalType) (k : CaseConst) : Prop :=
  (t = .char ↔ ∃ c, k = .char c) ∧ t.low ≤ k.number ∧ k.number ≤ t.high

/-- The UTF-8 bytes of a character, as they stand between the quotes of a C constant. -/
def utf8 (n : Nat) : List Nat :=
  if n < 0x80 then [n]
  else if n < 0x800 then [0xC0 + n / 0x40, 0x80 + n % 0x40]
  else if n < 0x10000 then [0xE0 + n / 0x1000, 0x80 + n / 0x40 % 0x40, 0x80 + n % 0x40]
  else [0xF0 + n / 0x40000, 0x80 + n / 0x1000 % 0x40, 0x80 + n / 0x40 % 0x40, 0x80 + n % 0x40]

/-- The value of a constant in C. `escape_c_char` writes an escape sequence for some ASCII
characters and any other character as it is; a constant of several bytes is the number with
these bytes. -/
def cValue : CaseConst → Int
  | .int v => v
  | .neg v _ => -v
  | .char c => ((utf8 c.toNat).foldl (fun n b => 256 * n + b) 0 : Nat)

/-- The C type of a constant. -/
def cType : CaseConst → CIntType
  | .int v => .ofDecimal v
  | .neg v _ => .ofDecimal v
  | .char _ => .int

/-- The text of a constant is a C expression: no decimal constant has the value `2 ^ 63`, and a
second minus sign before a number makes a decrement. -/
def IsC : CaseConst → Prop
  | .int v => -2 ^ 63 < v
  | .neg v _ => 0 ≤ v
  | .char _ => True

/-- The LLVM type of an integer literal. -/
def litType (reg : TypeRegistry) (depth : Nat) (v : Int) (ty : TypeId) : LLVMType :=
  if v > 2 ^ 31 - 1 ∨ v < -2 ^ 31 then .i64
  else
    match lowerType reg depth ty with
    | .void => .i32
    | t => t

/-- The LLVM type of the register with a negated literal. -/
def negType (reg : TypeRegistry) (depth : Nat) (v : Int) (ty : TypeId) : LLVMType :=
  match litType reg depth v ty with
  | .ptr => .i64
  | t => t

/-- The operand of `icmp` has the type of the selector; numbers have any type. -/
def IsTyped (reg : TypeRegistry) (depth : Nat) (t : OrdinalType) : CaseConst → Prop
  | .neg v ty => negType reg depth v ty = t.llvmType
  | .int _ | .char _ => True

end CaseConst

/-- A label of an arm. -/
inductive ArmLabel where
  | single (k : CaseConst)
  | range (lo hi : CaseConst)

/-- The label of a switch arm, if its bounds are constants. -/
def ArmLabel.ofLabel : CaseLabel → Option ArmLabel
  | .single e => return .single (← CaseConst.ofExpr e)
  | .range lo hi => return .range (← CaseConst.ofExpr lo) (← CaseConst.ofExpr hi)
  | .type _ _ => none

/-- The constants of a label. -/
def ArmLabel.bounds : ArmLabel → List CaseConst
  | .single k => [k]
  | .range lo hi => [lo, hi]

/-- The constants of a label have the type of the selector. -/
def ArmLabel.OfType (t : OrdinalType) (ℓ : ArmLabel) : Prop := ∀ k ∈ ℓ.bounds, k.OfType t

/-- The constant labels of an arm. -/
def SwitchArm.consts (arm : SwitchArm) : List ArmLabel := arm.labels.filterMap ArmLabel.ofLabel

/-- An arm of a `CASE` on an ordinal type: it has labels, which are `Single` and `Range` labels
with constants of that type. -/
def SwitchArm.OfType (t : OrdinalType) (arm : SwitchArm) : Prop :=
  arm.labels ≠ [] ∧ ∀ label ∈ arm.labels, ∃ ℓ, ArmLabel.ofLabel label = some ℓ ∧ ℓ.OfType t

theorem SwitchArm.OfType.consts_ne_nil {t : OrdinalType} {arm : SwitchArm} (h : arm.OfType t) :
    arm.consts ≠ [] := by
  obtain ⟨hne, hconst⟩ := h
  obtain ⟨label, hlabel⟩ := exists_mem_of_ne_nil _ hne
  obtain ⟨ℓ, hℓ, _⟩ := hconst label hlabel
  exact ne_nil_of_mem (mem_filterMap.mpr ⟨label, hlabel, hℓ⟩)

theorem SwitchArm.OfType.of_mem_consts {t : OrdinalType} {arm : SwitchArm} (h : arm.OfType t)
    {ℓ : ArmLabel} (hℓ : ℓ ∈ arm.consts) : ℓ.OfType t := by
  obtain ⟨label, hlabel, hof⟩ := mem_filterMap.mp hℓ
  obtain ⟨ℓ', hof', ht⟩ := h.2 label hlabel
  rw [hof, Option.some.injEq] at hof'
  exact hof' ▸ ht

/-! ## The C backend -/

section Backends

variable (t : OrdinalType) (charSigned : Bool)

/-- The value of a selector in C. -/
def cSelector (x : BitVec t.width) : Int :=
  if (t.cType charSigned).signed then x.toInt else x.toNat

/-- A comparison of the selector with a constant in C. -/
def cCompare (x : BitVec t.width) (rel : Int → Int → Bool) (k : CaseConst) : Bool :=
  CIntType.compare rel (t.cType charSigned) (cSelector t charSigned x) k.cType k.cValue

/-- The values of the selector each time that its text is evaluated. -/
abbrev SelectorValues := Nat → BitVec t.width

variable (sel : SelectorValues t)

/-- One disjunct of `switch_arm_condition` from the `i`-th evaluation of the selector on, and the
number of the next evaluation. -/
def cCatches (i : Nat) : ArmLabel → Bool × Nat
  | .single k => (cCompare t charSigned (sel i) (· == ·) k, i + 1)
  | .range lo hi =>
    if cCompare t charSigned (sel i) (· ≥ ·) lo then
      (cCompare t charSigned (sel (i + 1)) (· ≤ ·) hi, i + 2)
    else (false, i + 1)

/-- `switch_arm_condition`, whose disjuncts are evaluated until one of them is true. -/
def cTakes (i : Nat) : List ArmLabel → Bool × Nat
  | [] => (false, i)
  | ℓ :: ℓs =>
    let (caught, next) := cCatches t charSigned sel i ℓ
    if caught then (true, next) else cTakes next ℓs

/-- The arm that the chain of `if` statements of the C backend reaches; `none` is the
default. -/
def cArm (i : Nat) : List SwitchArm → Option Nat
  | [] => none
  | arm :: arms =>
    let (taken, next) := cTakes t charSigned sel i arm.consts
    if taken then some 0 else (cArm next arms).map (· + 1)

/-! ## The LLVM backend -/

/-- The disjunct that `emit_llvm_terminator` computes for a label. -/
def llvmCatches (x : BitVec t.width) : ArmLabel → Bool
  | .single k => x == BitVec.ofInt t.width k.number
  | .range lo hi =>
    (BitVec.ofInt t.width lo.number).sle x && x.sle (BitVec.ofInt t.width hi.number)

/-- The arm that the chain of conditional branches reaches. An arm without labels is taken
unconditionally. -/
def llvmArm (x : BitVec t.width) (arms : List SwitchArm) : Option Nat :=
  arms.findIdx? fun arm => arm.consts.isEmpty || arm.consts.any (llvmCatches t x)

/-- The label constants of a switch. -/
def switchConsts (arms : List SwitchArm) : List CaseConst :=
  arms.flatMap fun arm => arm.consts.flatMap ArmLabel.bounds

/-- The tests of both backends compile, and both reach the same arm. -/
def SameArm (reg : TypeRegistry) (depth : Nat) (arms : List SwitchArm) : Prop :=
  (∀ k ∈ switchConsts arms, k.IsC) ∧ (∀ k ∈ switchConsts arms, k.IsTyped reg depth t) ∧
    cArm t charSigned sel 0 arms = llvmArm t (sel 0) arms

end Backends

/-! ## What each label catches -/

/-- The number passes the test for a lower bound in C. No `char` reaches a character constant from
128 on, which has two bytes, and where `char` is signed the codes from 128 on are negative. -/
def CaseConst.LowPasses (t : OrdinalType) (charSigned : Bool) (lo : CaseConst) (n : Int) : Prop :=
  lo.number ≤ n ∧ (t = .char → lo.number < t.half ∧ (charSigned = true → n < t.half))

/-- The number passes the test for an upper bound in C. -/
def CaseConst.HighPasses (t : OrdinalType) (charSigned : Bool) (hi : CaseConst) (n : Int) : Prop :=
  n ≤ hi.number ∨ t = .char ∧ (t.half ≤ hi.number ∨ charSigned = true ∧ t.half ≤ n)

/-- Two bounds on the same side of the middle of an unsigned type. -/
def OrdinalType.SameHalf (t : OrdinalType) (lo hi : Int) : Prop :=
  t.signed = true ∨ (lo < t.half ↔ hi < t.half)

/-- A label catches the selector in C, where `n` gives the selector at each evaluation: the two
bounds of a range are compared with two evaluations. -/
def ArmLabel.CaughtInC (t : OrdinalType) (charSigned : Bool) (n : Nat → Int) (i : Nat) :
    ArmLabel → Prop
  | .single k => n i = k.number ∧ (t = .char → k.number < t.half)
  | .range lo hi => lo.LowPasses t charSigned (n i) ∧ hi.HighPasses t charSigned (n (i + 1))

/-- A label catches the selector `n` in LLVM. A range from the lower to the upper half of an
unsigned type catches nothing, and one from the upper to the lower half wraps around. -/
def ArmLabel.CaughtInLlvm (t : OrdinalType) (n : Int) : ArmLabel → Prop
  | .single k => n = k.number
  | .range lo hi => t.SameHalf lo.number hi.number ∧ lo.number ≤ n ∧ n ≤ hi.number ∨
      t.signed = false ∧ t.half ≤ lo.number ∧ hi.number < t.half ∧ (lo.number ≤ n ∨ n ≤ hi.number)

instance (t : OrdinalType) (charSigned : Bool) (lo : CaseConst) (n : Int) :
    Decidable (lo.LowPasses t charSigned n) := inferInstanceAs (Decidable (_ ∧ _))

/-- How often the tests of a label evaluate the selector in C, when it does not catch it. -/
def ArmLabel.reads (t : OrdinalType) (charSigned : Bool) (n : Nat → Int) (i : Nat) : ArmLabel → Nat
  | .single _ => 1
  | .range lo _ => if lo.LowPasses t charSigned (n i) then 2 else 1

/-- The number of the evaluation after the labels of an arm that do not catch the selector. -/
def readsAll (t : OrdinalType) (charSigned : Bool) (n : Nat → Int) : Nat → List ArmLabel → Nat
  | i, [] => i
  | i, ℓ :: ℓs => readsAll t charSigned n (i + ℓ.reads t charSigned n i) ℓs

/-- One of the labels of an arm catches the selector in C. -/
def LabelsCatchInC (t : OrdinalType) (charSigned : Bool) (n : Nat → Int) :
    Nat → List ArmLabel → Prop
  | _, [] => False
  | i, ℓ :: ℓs => ℓ.CaughtInC t charSigned n i ∨
      LabelsCatchInC t charSigned n (i + ℓ.reads t charSigned n i) ℓs

/-- One of the labels of an arm catches the selector in LLVM. -/
def LabelsCatchInLlvm (t : OrdinalType) (n : Int) (ℓs : List ArmLabel) : Prop :=
  ∃ ℓ ∈ ℓs, ℓ.CaughtInLlvm t n

/-- Reading the arms in order, the first one that catches the selector in one backend catches it in
both. -/
def FirstCaughtByBoth (t : OrdinalType) (charSigned : Bool) (n : Nat → Int) :
    Nat → List SwitchArm → Prop
  | _, [] => True
  | i, arm :: arms =>
    LabelsCatchInC t charSigned n i arm.consts ∧ LabelsCatchInLlvm t (n 0) arm.consts ∨
    ¬ LabelsCatchInC t charSigned n i arm.consts ∧ ¬ LabelsCatchInLlvm t (n 0) arm.consts ∧
      FirstCaughtByBoth t charSigned n (readsAll t charSigned n i arm.consts) arms

section Labels

variable {t : OrdinalType} {charSigned : Bool}

/-! ## The readings as numbers -/

/-- A number as a signed value of the same width. -/
def OrdinalType.signedNumber (t : OrdinalType) (n : Int) : Int :=
  if t.signed = false ∧ t.half ≤ n then n - 2 * t.half else n

theorem OrdinalType.number_bounds (t : OrdinalType) (x : BitVec t.width) :
    (if t.signed then -t.half else 0) ≤ t.number x ∧
      t.number x < if t.signed then t.half else 2 * t.half := by
  have hlt : x.toInt < 2 ^ (t.width - 1) := x.toInt_lt
  have hle := x.le_toInt
  have hnat := x.isLt
  cases t <;> simp [number, signed, half, width] at * <;> omega

theorem OrdinalType.toInt_eq (t : OrdinalType) (x : BitVec t.width) :
    x.toInt = t.signedNumber (t.number x) := by
  have hmod := x.toInt_eq_toNat_bmod
  have hnat := x.isLt
  rw [Int.bmod_def] at hmod
  cases t <;> simp [signedNumber, number, signed, half, width] at * <;> omega

theorem CaseConst.OfType.toInt_ofInt {k : CaseConst} (hk : k.OfType t) :
    (BitVec.ofInt t.width k.number).toInt = t.signedNumber k.number := by
  obtain ⟨_, hlow, hhigh⟩ := hk
  rw [BitVec.toInt_ofInt, Int.bmod_def]
  cases t <;>
    simp [OrdinalType.low, OrdinalType.high, OrdinalType.signedNumber, OrdinalType.signed,
      OrdinalType.half, OrdinalType.width] at * <;> omega

theorem llvmCatches_iff (x : BitVec t.width) {ℓ : ArmLabel} (hℓ : ℓ.OfType t) :
    llvmCatches t x ℓ = true ↔ ℓ.CaughtInLlvm t (t.number x) := by
  have hx := t.number_bounds x
  generalize hn : t.number x = n at hx
  cases ℓ with
  | single k =>
    have hof : k.OfType t := hℓ k (by simp [ArmLabel.bounds])
    have hk := hof.toInt_ofInt
    rw [llvmCatches, beq_iff_eq, ← BitVec.toInt_inj, hk, t.toInt_eq, hn]
    obtain ⟨_, hlow, hhigh⟩ := hof
    cases t <;>
      simp only [ArmLabel.CaughtInLlvm, OrdinalType.low, OrdinalType.high,
        OrdinalType.signedNumber, OrdinalType.signed, OrdinalType.half, OrdinalType.width] at * <;>
      grind
  | range lo hi =>
    have hlo : lo.OfType t := hℓ lo (by simp [ArmLabel.bounds])
    have hhi : hi.OfType t := hℓ hi (by simp [ArmLabel.bounds])
    rw [llvmCatches, Bool.and_eq_true, BitVec.sle_iff_toInt_le, BitVec.sle_iff_toInt_le,
      hlo.toInt_ofInt, hhi.toInt_ofInt, t.toInt_eq, hn]
    obtain ⟨_, hlow, hhigh⟩ := hlo
    obtain ⟨_, hlow', hhigh'⟩ := hhi
    cases t <;>
      simp only [ArmLabel.CaughtInLlvm, OrdinalType.low, OrdinalType.high,
        OrdinalType.signedNumber, OrdinalType.signed, OrdinalType.half, OrdinalType.width,
        OrdinalType.SameHalf] at * <;>
      grind

/-! ### Comparisons in C -/

/-- A number of a type compares with a constant as numbers do. -/
theorem CIntType.compare_selector {rel : Int → Int → Bool} (ht : t ≠ .char) {n v w : Int}
    (hx : (if t.signed then -t.half else 0) ≤ n ∧ n < if t.signed then t.half else 2 * t.half)
    (hv : v = w ∨ v = -w) (hlow : t.low ≤ v) (hhigh : v ≤ t.high) :
    CIntType.compare rel (t.cType charSigned) n (.ofDecimal w) v = rel n v := by
  simp only [CIntType.ofDecimal]
  split <;> cases t <;>
    first
    | exact absurd rfl ht
    | exact CIntType.compare_of_fits
        (by simp [CIntType.common, CIntType.promote, CIntType.Fits, CIntType.int, CIntType.uint,
          CIntType.long, CIntType.ulong, OrdinalType.cType, OrdinalType.low, OrdinalType.high,
          OrdinalType.signed, OrdinalType.half, OrdinalType.width] at *; omega)
        (by simp [CIntType.common, CIntType.promote, CIntType.Fits, CIntType.int, CIntType.uint,
          CIntType.long, CIntType.ulong, OrdinalType.cType, OrdinalType.low, OrdinalType.high,
          OrdinalType.signed, OrdinalType.half, OrdinalType.width] at *; omega)

theorem cCompare_eq {rel : Int → Int → Bool} (ht : t ≠ .char) (x : BitVec t.width) {k : CaseConst}
    (hk : k.OfType t) : cCompare t charSigned x rel k = rel (t.number x) k.number := by
  have hx := t.number_bounds x
  obtain ⟨hchar, hlow, hhigh⟩ := hk
  have hsel : cSelector t charSigned x = t.number x := by
    cases t <;> first | rfl | exact absurd rfl ht
  rw [cCompare, hsel]
  cases k with
  | char c => exact absurd (hchar.mpr ⟨c, rfl⟩) ht
  | int v => exact CIntType.compare_selector ht hx (.inl rfl) hlow hhigh
  | neg v ty => exact CIntType.compare_selector ht hx (.inr rfl) hlow hhigh

/-- A character constant below 128 is its code, any other one exceeds every `char`. -/
theorem CaseConst.OfType.cValue_char {k : CaseConst} (hk : k.OfType .char) :
    k.cValue = if k.number < 128 then k.number
      else 256 * (192 + k.number / 64) + (128 + k.number % 64) := by
  obtain ⟨hchar, hlow, hhigh⟩ := hk
  obtain ⟨c, rfl⟩ := hchar.mp rfl
  have hnumber : (CaseConst.char c).number = c.toNat := rfl
  rw [hnumber, OrdinalType.high] at hhigh
  rw [hnumber, cValue, utf8]
  split
  · rw [if_pos (by omega)]
    simp
  · rw [if_pos (by omega), if_neg (by omega)]
    simp

/-- C promotes both sides of a comparison of characters to `int`. -/
theorem cCompare_char {rel : Int → Int → Bool} (x : BitVec OrdinalType.char.width)
    {k : CaseConst} (hk : k.OfType .char) :
    cCompare .char charSigned x rel k =
      rel (if charSigned then OrdinalType.char.signedNumber (OrdinalType.char.number x)
        else OrdinalType.char.number x) k.cValue := by
  have hx := OrdinalType.char.number_bounds x
  have hv := hk.cValue_char
  obtain ⟨hchar, hlow, hhigh⟩ := hk
  have hsel : cSelector .char charSigned x =
      if charSigned then OrdinalType.char.signedNumber (OrdinalType.char.number x)
        else OrdinalType.char.number x := by
    rw [← OrdinalType.char.toInt_eq]
    rfl
  obtain ⟨c, rfl⟩ := hchar.mp rfl
  rw [cCompare, hsel]
  simp only [OrdinalType.low, OrdinalType.high, OrdinalType.signed, OrdinalType.half,
    OrdinalType.width, OrdinalType.signedNumber] at *
  apply CIntType.compare_of_fits
  · cases charSigned <;>
      simp [CIntType.common, CIntType.promote, CIntType.Fits, CIntType.int, OrdinalType.cType,
        CaseConst.cType] <;> omega
  · cases charSigned <;>
      simp [CIntType.common, CIntType.promote, CIntType.Fits, CIntType.int, OrdinalType.cType,
        CaseConst.cType] <;> omega

theorem cCompare_eq_iff (x : BitVec t.width) {k : CaseConst} (hk : k.OfType t) :
    cCompare t charSigned x (· == ·) k = true ↔
      t.number x = k.number ∧ (t = .char → k.number < t.half) := by
  by_cases ht : t = .char
  · subst ht
    have hx := OrdinalType.char.number_bounds x
    have hv := hk.cValue_char
    rw [cCompare_char x hk]
    obtain ⟨_, hlow, hhigh⟩ := hk
    simp only [OrdinalType.low, OrdinalType.high, OrdinalType.signedNumber, OrdinalType.signed,
      OrdinalType.half, OrdinalType.width] at *
    cases charSigned <;> grind
  · rw [cCompare_eq ht x hk]
    simp [ht]

theorem cCompare_ge_iff (x : BitVec t.width) {lo : CaseConst} (hlo : lo.OfType t) :
    cCompare t charSigned x (· ≥ ·) lo = true ↔ lo.LowPasses t charSigned (t.number x) := by
  by_cases ht : t = .char
  · subst ht
    have hx := OrdinalType.char.number_bounds x
    have hv := hlo.cValue_char
    rw [cCompare_char x hlo]
    obtain ⟨_, hlow, hhigh⟩ := hlo
    simp only [CaseConst.LowPasses, OrdinalType.low, OrdinalType.high, OrdinalType.signedNumber,
      OrdinalType.signed, OrdinalType.half, OrdinalType.width] at *
    cases charSigned <;> grind
  · rw [cCompare_eq ht x hlo]
    simp [CaseConst.LowPasses, ht]

theorem cCompare_le_iff (x : BitVec t.width) {hi : CaseConst} (hhi : hi.OfType t) :
    cCompare t charSigned x (· ≤ ·) hi = true ↔ hi.HighPasses t charSigned (t.number x) := by
  by_cases ht : t = .char
  · subst ht
    have hx := OrdinalType.char.number_bounds x
    have hv := hhi.cValue_char
    rw [cCompare_char x hhi]
    obtain ⟨_, hlow, hhigh⟩ := hhi
    simp only [CaseConst.HighPasses, OrdinalType.low, OrdinalType.high, OrdinalType.signedNumber,
      OrdinalType.signed, OrdinalType.half, OrdinalType.width] at *
    cases charSigned <;> grind
  · rw [cCompare_eq ht x hhi]
    simp [CaseConst.HighPasses, ht]

/-! ### The chain in C -/

variable (charSigned) (sel : SelectorValues t)

theorem cCatches_spec (i : Nat) {ℓ : ArmLabel} (hℓ : ℓ.OfType t) :
    ((cCatches t charSigned sel i ℓ).1 = true ↔
      ℓ.CaughtInC t charSigned (fun j => t.number (sel j)) i) ∧
    (cCatches t charSigned sel i ℓ).2 =
      i + ℓ.reads t charSigned (fun j => t.number (sel j)) i := by
  cases ℓ with
  | single k => exact ⟨cCompare_eq_iff (sel i) (hℓ k (by simp [ArmLabel.bounds])), rfl⟩
  | range lo hi =>
    have hlo : cCompare t charSigned (sel i) (· ≥ ·) lo = true ↔
        lo.LowPasses t charSigned (t.number (sel i)) :=
      cCompare_ge_iff (sel i) (hℓ lo (by simp [ArmLabel.bounds]))
    have hhi : cCompare t charSigned (sel (i + 1)) (· ≤ ·) hi = true ↔
        hi.HighPasses t charSigned (t.number (sel (i + 1))) :=
      cCompare_le_iff (sel (i + 1)) (hℓ hi (by simp [ArmLabel.bounds]))
    by_cases h : cCompare t charSigned (sel i) (· ≥ ·) lo = true
    · simp only [cCatches, ArmLabel.CaughtInC, ArmLabel.reads, if_pos h, if_pos (hlo.mp h)]
      exact ⟨by rw [hhi, and_iff_right (hlo.mp h)], trivial⟩
    · have hno : ¬ lo.LowPasses t charSigned (t.number (sel i)) := fun hp => h (hlo.mpr hp)
      simp only [cCatches, ArmLabel.CaughtInC, ArmLabel.reads, if_neg h, if_neg hno]
      exact ⟨by simp [hno], trivial⟩

theorem cTakes_spec (i : Nat) {ℓs : List ArmLabel} (hℓs : ∀ ℓ ∈ ℓs, ℓ.OfType t) :
    ((cTakes t charSigned sel i ℓs).1 = true ↔
      LabelsCatchInC t charSigned (fun j => t.number (sel j)) i ℓs) ∧
    ((cTakes t charSigned sel i ℓs).1 = false → (cTakes t charSigned sel i ℓs).2 =
      readsAll t charSigned (fun j => t.number (sel j)) i ℓs) := by
  induction ℓs generalizing i with
  | nil => simp [cTakes, LabelsCatchInC, readsAll]
  | cons ℓ ℓs ih =>
    obtain ⟨hcaught, hnext⟩ := cCatches_spec charSigned sel i (hℓs ℓ mem_cons_self)
    have hrest := ih (i + ℓ.reads t charSigned (fun j => t.number (sel j)) i)
      fun m hm => hℓs m (mem_cons_of_mem _ hm)
    rw [cTakes, LabelsCatchInC, readsAll, ← hcaught]
    simp only [hnext]
    cases (cCatches t charSigned sel i ℓ).1 with
    | true => simp
    | false => simpa using hrest

variable {charSigned sel}

theorem SwitchArm.OfType.consts {arm : SwitchArm} (h : arm.OfType t) :
    ∀ ℓ ∈ arm.consts, ℓ.OfType t := fun _ hℓ => h.of_mem_consts hℓ

/-- The two chains reach the same arm if and only if the first arm that catches the selector in one
of them catches it in both. -/
theorem cArm_eq_llvmArm_iff {arms : List SwitchArm} (harms : ∀ arm ∈ arms, arm.OfType t) (i : Nat) :
    cArm t charSigned sel i arms = llvmArm t (sel 0) arms ↔
      FirstCaughtByBoth t charSigned (fun j => t.number (sel j)) i arms := by
  have hsucc : ∀ o : Option Nat, ¬ some 0 = o.map (· + 1) := by
    intro o
    cases o <;> simp
  induction arms generalizing i with
  | nil => simp [cArm, llvmArm, FirstCaughtByBoth]
  | cons arm arms ih =>
    have harm := harms arm mem_cons_self
    have hempty : arm.consts.isEmpty = false := by simpa using harm.consts_ne_nil
    obtain ⟨hc, hnext⟩ := cTakes_spec charSigned sel i harm.consts
    have hl : arm.consts.any (llvmCatches t (sel 0)) = true ↔
        LabelsCatchInLlvm t (t.number (sel 0)) arm.consts := by
      rw [any_eq_true]
      exact exists_congr fun ℓ => and_congr_right fun hℓ =>
        llvmCatches_iff (sel 0) (harm.of_mem_consts hℓ)
    have hrest := (ih (fun a ha => harms a (mem_cons_of_mem _ ha))
      (readsAll t charSigned (fun j => t.number (sel j)) i arm.consts)).symm
    rw [FirstCaughtByBoth, ← hc, ← hl, hrest, cArm, llvmArm, findIdx?_cons, hempty,
      Bool.false_or]
    generalize cTakes t charSigned sel i arm.consts = r at hnext ⊢
    obtain ⟨taken, next⟩ := r
    cases taken with
    | true => cases arm.consts.any (llvmCatches t (sel 0)) <;> simp [hsucc]
    | false =>
      rw [← hnext rfl]
      cases arm.consts.any (llvmCatches t (sel 0)) with
      | true => simp [fun o : Option Nat => Ne.symm (hsucc o)]
      | false => simp [Option.map_inj_right, llvmArm]

end Labels

/-- The tests of both backends compile and reach the same arm if and only if every constant has a
text in C and the type of the selector in LLVM, and the first arm that catches the selector in one
backend catches it in both. -/
theorem sameArm_iff {t : OrdinalType} {charSigned : Bool} {sel : SelectorValues t}
    {reg : TypeRegistry} {depth : Nat} {arms : List SwitchArm}
    (harms : ∀ arm ∈ arms, arm.OfType t) :
    SameArm t charSigned sel reg depth arms ↔
      (∀ k ∈ switchConsts arms, k.IsC) ∧ (∀ k ∈ switchConsts arms, k.IsTyped reg depth t) ∧
        FirstCaughtByBoth t charSigned (fun i => t.number (sel i)) 0 arms := by
  rw [SameArm, cArm_eq_llvmArm_iff harms]

/-- The arm of `0 .. hi`. -/
def upTo (hi : Int) : SwitchArm :=
  ⟨[.range ⟨.intLit 0, tyInteger, .cfg⟩ ⟨.intLit hi, tyInteger, .cfg⟩], 1⟩

theorem upTo_ofType {hi : Int} (hlow : 0 ≤ hi) (hhigh : hi ≤ OrdinalType.cardinal.high) :
    (upTo hi).OfType .cardinal := by
  have hconst : ∀ {v : Int}, 0 ≤ v → v ≤ OrdinalType.cardinal.high →
      (CaseConst.int v).OfType .cardinal := fun h h' => ⟨by simp, h, h'⟩
  refine ⟨by simp [upTo], fun label hlabel => ⟨.range (.int 0) (.int hi), ?_, ?_⟩⟩
  · rw [upTo, mem_singleton] at hlabel
    rw [hlabel]
    rfl
  · intro k hk
    simp only [ArmLabel.bounds, mem_cons, not_mem_nil, or_false] at hk
    obtain rfl | rfl := hk
    · exact hconst (Int.le_refl 0) (by decide)
    · exact hconst hlow hhigh

theorem switchConsts_upTo (hi : Int) : switchConsts [upTo hi] = [.int 0, .int hi] := rfl

/-- A `CARDINAL` selector 5 takes the arm `0 .. 10` in both backends. -/
theorem sameArm_upTo :
    (∀ arm ∈ [upTo 10], arm.OfType .cardinal) ∧
      SameArm .cardinal true (fun _ => 5#32) ⟨[]⟩ 1 [upTo 10] := by
  have harms : ∀ arm ∈ [upTo 10], arm.OfType .cardinal := by
    intro arm harm
    rw [mem_singleton] at harm
    exact harm ▸ upTo_ofType (by decide) (by decide)
  have hconsts : ∀ k ∈ switchConsts [upTo 10], k.IsC ∧ k.IsTyped ⟨[]⟩ 1 .cardinal := by
    rw [switchConsts_upTo]
    simp [CaseConst.IsC, CaseConst.IsTyped]
  refine ⟨harms, (sameArm_iff harms).mpr ⟨fun k hk => (hconsts k hk).1,
    fun k hk => (hconsts k hk).2, .inl ⟨.inl ?_, .range (.int 0) (.int 10), ?_, ?_⟩⟩⟩
  · exact ⟨⟨by decide, by simp⟩, .inl (by decide)⟩
  · exact mem_singleton.mpr rfl
  · refine .inl ⟨.inr ?_, by decide, by decide⟩
    simp [CaseConst.number, OrdinalType.half, OrdinalType.width]

/-- A `CARDINAL` selector 5 takes the arm `0 .. 3000000000` in C and the default in LLVM, where
the upper bound is a negative `i32`. -/
theorem not_sameArm_upTo :
    ¬ ∀ (t : OrdinalType) (charSigned : Bool) (sel : SelectorValues t) (reg : TypeRegistry)
      (depth : Nat) (arms : List SwitchArm),
      (∀ arm ∈ arms, arm.OfType t) → SameArm t charSigned sel reg depth arms := by
  intro h
  have hsame := h .cardinal true (fun _ => 5#32) ⟨[]⟩ 1 [upTo 3000000000] fun arm harm => by
    rw [mem_singleton] at harm
    exact harm ▸ upTo_ofType (by decide) (by decide)
  exact absurd hsame.2.2 (by decide)

end Mx

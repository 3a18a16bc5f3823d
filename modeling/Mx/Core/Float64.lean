import Mathlib

/-!
# Binary64 numbers

Floating-point numbers as exact values, with rounding to the nearest one, the conversions from and
to integers of 64 bits, and reading of decimal texts. Integers of at most 53 bits are exact.
-/

namespace Mx.Core

/-- A binary64 number: a finite one is its mantissa times two to its exponent. -/
inductive F64 where
  | nan
  | inf (neg : Bool)
  | finite (neg : Bool) (mant : Nat) (exp : Int)
  deriving DecidableEq, Repr

namespace F64

/-- The greatest power of two that a fraction reaches. -/
def floorLog (num den : Nat) : Int :=
  let d : Int := (Nat.log2 num : Int) - Nat.log2 den
  if den * 2 ^ d.toNat ≤ num * 2 ^ (-d).toNat then d else d - 1

/-- The mantissa of a fraction of so many units, rounded to the nearest, to the even one of two. -/
def nearest (num den : Nat) : Nat :=
  let q := num / den
  let r := num % den
  if den < 2 * r ∨ den = 2 * r ∧ q % 2 = 1 then q + 1 else q

/-- The number nearest to a fraction. -/
def ofRatio (neg : Bool) (num den : Nat) : F64 :=
  if num = 0 then .finite neg 0 0
  else
    let e := max (floorLog num den - 52) (-1074)
    let m := nearest (num * 2 ^ (-e).toNat) (den * 2 ^ e.toNat)
    let (m, e) := if m = 9007199254740992 then (4503599627370496, e + 1) else (m, e)
    if 971 < e then .inf neg else .finite neg m e

/-- `n as f64`. -/
def ofInt (n : Int) : F64 := ofRatio (decide (n < 0)) n.natAbs 1

/-- The integer part of a size. -/
def magnitude (mant : Nat) (exp : Int) : Nat := mant * 2 ^ exp.toNat / 2 ^ (-exp).toNat

/-- `x as i64`, which saturates. -/
def toI64 : F64 → Int
  | .nan => 0
  | .inf true => -9223372036854775808
  | .inf false => 9223372036854775807
  | .finite neg mant exp =>
    let n : Int := if neg then -(magnitude mant exp : Int) else magnitude mant exp
    max (-9223372036854775808) (min 9223372036854775807 n)

/-- `==`. -/
def eq : F64 → F64 → Bool
  | .nan, _ => false
  | _, .nan => false
  | .inf a, .inf b => a == b
  | .finite a m e, .finite b m' e' =>
    decide (m = 0 ∧ m' = 0) || (a == b && decide (m = m') && decide (e = e'))
  | _, _ => false

/-- `is_finite`. -/
def isFinite : F64 → Bool
  | .finite _ _ _ => true
  | _ => false

/-! ## Reading -/

/-- The number that decimal digits denote. -/
def ofDigits (ds : List Char) : Nat := Nat.ofDigitChars 10 ds 0

/-- An exponent: a sign that may be missing, and digits. -/
def parseExponent : List Char → Option Int
  | '+' :: ds => if ds ≠ [] ∧ ds.all Char.isDigit = true then some (ofDigits ds) else none
  | '-' :: ds => if ds ≠ [] ∧ ds.all Char.isDigit = true then some (-(ofDigits ds : Int)) else none
  | ds => if ds ≠ [] ∧ ds.all Char.isDigit = true then some (ofDigits ds) else none

/-- Behind the digits there is nothing or an exponent. -/
def parseTail : List Char → Option Int
  | [] => some 0
  | c :: l => if c = 'e' ∨ c = 'E' then parseExponent l else none

/-- The value of the digits in front of and behind the point with an exponent. -/
def ofDecimal (neg : Bool) (int frac : List Char) (exp : Int) : F64 :=
  let e := exp - frac.length
  ofRatio neg (ofDigits (int ++ frac) * 10 ^ e.toNat) (10 ^ (-e).toNat)

/-- A text without a sign. -/
def parseUnsigned (neg : Bool) (l : List Char) : Option F64 :=
  let int := l.takeWhile Char.isDigit
  match l.dropWhile Char.isDigit with
  | '.' :: l =>
    let frac := l.takeWhile Char.isDigit
    if int = [] ∧ frac = [] then none
    else (parseTail (l.dropWhile Char.isDigit)).map (ofDecimal neg int frac)
  | l => if int = [] then none else (parseTail l).map (ofDecimal neg int [])

/-- The words for numbers that are not finite, in any case. -/
def parseWord (neg : Bool) (l : List Char) : Option F64 :=
  let word := l.map Char.toLower
  if word = ['i', 'n', 'f'] ∨ word = ['i', 'n', 'f', 'i', 'n', 'i', 't', 'y'] then some (.inf neg)
  else if word = ['n', 'a', 'n'] then some .nan
  else none

/-- `parse::<f64>`. -/
def parse : List Char → Option F64
  | '-' :: l => (parseWord true l).orElse fun _ => parseUnsigned true l
  | '+' :: l => (parseWord false l).orElse fun _ => parseUnsigned false l
  | l => (parseWord false l).orElse fun _ => parseUnsigned false l

/-! ## Digits -/

section Digits

variable {neg : Bool} {c : Char} {ds l : List Char}

theorem toLower_of_isDigit (h : c.isDigit = true) : c.toLower = c := by
  have hupper : ¬(c.val ≥ 'A'.val ∧ c.val ≤ 'Z'.val) := by
    rw [Char.isDigit, Bool.and_eq_true, decide_eq_true_eq, decide_eq_true_eq] at h
    intro hup
    have hle : (65 : UInt32) ≤ 57 := UInt32.le_trans hup.1 h.2
    exact absurd hle (by decide)
  rw [Char.toLower, dif_neg hupper]

/-- What starts with a digit is no word. -/
theorem parseWord_digit (h : c.isDigit = true) : parseWord neg (c :: l) = none := by
  have hword : ∀ w : Char, w.isDigit = false → ∀ ws, (c :: l).map Char.toLower ≠ w :: ws := by
    intro w hw ws heq
    rw [List.map_cons, toLower_of_isDigit h, List.cons.injEq] at heq
    rw [heq.1, hw] at h
    cases h
  rw [parseWord, if_neg fun h => h.elim (hword 'i' rfl _) (hword 'i' rfl _),
    if_neg (hword 'n' rfl _)]

theorem parse_neg (h : c.isDigit = true) : parse ('-' :: c :: l) = parseUnsigned true (c :: l) := by
  rw [parse, parseWord_digit h]
  rfl

theorem parse_digit (h : c.isDigit = true) : parse (c :: l) = parseUnsigned false (c :: l) := by
  have hminus : c ≠ '-' := by
    rintro rfl
    cases h
  have hplus : c ≠ '+' := by
    rintro rfl
    cases h
  unfold parse
  split
  · next heq => exact absurd (List.cons.inj heq).1 hminus
  · next heq => exact absurd (List.cons.inj heq).1 hplus
  · rw [parseWord_digit h]
    rfl

theorem parseUnsigned_digits (hne : ds ≠ []) (h : ∀ c ∈ ds, c.isDigit = true) :
    parseUnsigned neg ds = some (ofRatio neg (ofDigits ds) 1) := by
  have htake : ds.takeWhile Char.isDigit = ds := List.takeWhile_eq_self_iff.mpr h
  have hdrop : ds.dropWhile Char.isDigit = [] := List.dropWhile_eq_nil_iff.mpr h
  rw [parseUnsigned, hdrop, htake]
  dsimp only
  rw [if_neg hne, parseTail, Option.map_some, ofDecimal, List.append_nil, List.length_nil]
  simp

end Digits

/-! ## Integers -/

section Integers

theorem floorLog_nat {n : Nat} (hpos : n ≠ 0) : floorLog n 1 = Nat.log2 n := by
  have hle := Nat.log2_self_le hpos
  have hone : Nat.log2 1 = 0 := by decide
  have htoNat : ((Nat.log2 n : Int) - (0 : Nat)).toNat = Nat.log2 n := by omega
  have hneg : (-((Nat.log2 n : Int) - (0 : Nat))).toNat = 0 := by omega
  rw [floorLog, hone, htoNat, hneg, Nat.one_mul, Nat.pow_zero, Nat.mul_one, if_pos hle]
  omega

theorem nearest_one (n : Nat) : nearest n 1 = n := by
  rw [nearest]
  simp only [Nat.mod_one, Nat.div_one]
  exact if_neg (by omega)

theorem mantissa_lt {n : Nat} (hpos : n ≠ 0) (h : n < 9007199254740992) :
    Nat.log2 n ≤ 52 ∧ n * 2 ^ (52 - Nat.log2 n) < 9007199254740992 := by
  have hlog : Nat.log2 n < 53 := (Nat.log2_lt hpos).mpr h
  have hlt : n < 2 ^ (Nat.log2 n + 1) := Nat.lt_log2_self
  have hpow : 2 ^ (Nat.log2 n + 1) * 2 ^ (52 - Nat.log2 n) = 9007199254740992 := by
    rw [← Nat.pow_add]
    have hsum : Nat.log2 n + 1 + (52 - Nat.log2 n) = 53 := by omega
    rw [hsum]
  refine ⟨by omega, ?_⟩
  rw [← hpow]
  exact Nat.mul_lt_mul_of_pos_right hlt (Nat.pow_pos Nat.two_pos)

theorem ofRatio_nat {n : Nat} (hpos : n ≠ 0) (h : n < 9007199254740992) (neg : Bool) :
    ofRatio neg n 1 = .finite neg (n * 2 ^ (52 - Nat.log2 n)) ((Nat.log2 n : Int) - 52) := by
  obtain ⟨hlog, hmant⟩ := mantissa_lt hpos h
  have hmax : max ((Nat.log2 n : Int) - 52) (-1074) = (Nat.log2 n : Int) - 52 := by omega
  have hneg : (-((Nat.log2 n : Int) - 52)).toNat = 52 - Nat.log2 n := by omega
  have htoNat : ((Nat.log2 n : Int) - 52).toNat = 0 := by omega
  rw [ofRatio, if_neg hpos, floorLog_nat hpos, hmax]
  dsimp only
  rw [hneg, htoNat, Nat.pow_zero, Nat.mul_one, nearest_one, if_neg (Nat.ne_of_lt hmant)]
  dsimp only
  rw [if_neg (by omega)]

theorem magnitude_nat {n : Nat} (hlog : Nat.log2 n ≤ 52) :
    magnitude (n * 2 ^ (52 - Nat.log2 n)) ((Nat.log2 n : Int) - 52) = n := by
  have hneg : (-((Nat.log2 n : Int) - 52)).toNat = 52 - Nat.log2 n := by omega
  have htoNat : ((Nat.log2 n : Int) - 52).toNat = 0 := by omega
  rw [magnitude, hneg, htoNat, Nat.pow_zero, Nat.mul_one,
    Nat.mul_div_cancel _ (Nat.pow_pos Nat.two_pos)]

/-- Integers of at most 53 bits come back. -/
theorem toI64_ofInt {n : Int} (h : n.natAbs < 9007199254740992) : (ofInt n).toI64 = n := by
  by_cases hzero : n = 0
  · rw [hzero]
    rfl
  · have hpos : n.natAbs ≠ 0 := by omega
    rw [ofInt, ofRatio_nat hpos h, toI64, magnitude_nat (mantissa_lt hpos h).1]
    by_cases hneg : n < 0
    · simp only [hneg, decide_true, if_true]
      omega
    · simp only [hneg, decide_false, Bool.false_eq_true, if_false]
      omega

theorem isFinite_ofInt {n : Int} (h : n.natAbs < 9007199254740992) : (ofInt n).isFinite = true := by
  by_cases hzero : n = 0
  · rw [hzero]
    rfl
  · rw [ofInt, ofRatio_nat (by omega) h]
    rfl

theorem eq_self {x : F64} (h : x.isFinite = true) : x.eq x = true := by
  cases x with
  | nan => cases h
  | inf neg => cases h
  | finite neg mant exp => simp [eq]

end Integers

end F64

end Mx.Core

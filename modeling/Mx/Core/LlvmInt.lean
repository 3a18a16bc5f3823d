import Mx.Core.CInt

/-!
# LLVM integers

Bit patterns of some width. An instruction has no signedness of its types: a pattern stands for a
number under either of its two readings.
-/

namespace Mx.Core

/-- An LLVM integer. -/
structure IntN where
  width : Nat
  bits : BitVec width
  deriving DecidableEq, Repr

namespace IntN

/-- The number that the bits are, read as signed or not. -/
def num (signed : Bool) (x : IntN) : Int := if signed then x.bits.toInt else x.bits.toNat

/-- The bits of a number. -/
def ofInt (width : Nat) (v : Int) : IntN := ⟨width, BitVec.ofInt width v⟩

/-- A number is what one of the readings of the bits gives. -/
def Denotes (x : IntN) (v : Int) : Prop := v = x.bits.toInt ∨ v = x.bits.toNat

instance (x : IntN) (v : Int) : Decidable (x.Denotes v) := by
  unfold Denotes
  infer_instance

/-- `sext`, `zext`, `trunc` or nothing, to a width. -/
def coerce (unsigned : Bool) (target : Nat) (x : IntN) : BitVec target :=
  if x.width < target ∧ unsigned = false then x.bits.signExtend target else x.bits.setWidth target

theorem coerce_eq (unsigned : Bool) (target : Nat) (x : IntN) :
    x.coerce unsigned target = BitVec.ofInt target (x.num (!unsigned)) := by
  obtain ⟨w, b⟩ := x
  cases unsigned with
  | true =>
    simp only [coerce, num, Bool.true_eq_false, and_false, if_false, Bool.not_true,
      Bool.false_eq_true, BitVec.ofInt_natCast]
    exact BitVec.eq_of_toNat_eq (by simp)
  | false =>
    simp only [coerce, num, and_true, Bool.not_false, if_true]
    split
    · rfl
    · next h =>
      -- Not wider: the reading does not matter for the bits that stay.
      apply BitVec.eq_of_toNat_eq
      rw [BitVec.toNat_setWidth, BitVec.toNat_ofInt, BitVec.toInt_eq_toNat_bmod]
      have hdvd : ((2 ^ target : Nat) : Int) ∣ ((2 ^ w : Nat) : Int) :=
        Int.natCast_dvd_natCast.2 (Nat.pow_dvd_pow 2 (Nat.le_of_not_lt h))
      have hmod : (Int.bmod b.toNat (2 ^ w)) % ((2 ^ target : Nat) : Int) =
          (b.toNat : Int) % ((2 ^ target : Nat) : Int) := by
        rw [← Int.emod_emod_of_dvd _ hdvd, Int.bmod_emod, Int.emod_emod_of_dvd _ hdvd]
      rw [hmod, ← Int.natCast_mod, Int.toNat_natCast]

/-- The bits of a number read in a type of their width are the number converted to the type. -/
theorem num_ofInt (t : CIntType) (v : Int) : (ofInt t.bits v).num t.signed = t.convert v := by
  unfold num ofInt CIntType.convert
  cases t.signed with
  | true => simp [BitVec.toInt_ofInt]
  | false =>
    have hpos : (0 : Int) < 2 ^ t.bits := Int.pow_pos (by decide)
    simp [BitVec.toNat_ofInt, Int.toNat_of_nonneg (Int.emod_nonneg v (Int.ne_of_gt hpos))]

theorem denotes_num (x : IntN) (signed : Bool) : x.Denotes (x.num signed) := by
  cases signed with
  | true => exact .inl rfl
  | false => exact .inr rfl

end IntN

/-! ## Words with more bits -/

section MoreBits

variable {w : Nat} {x f : BitVec w}

theorem or_eq_left_iff (h : x &&& f = 0) : x ||| f = x ↔ f = 0 := by
  constructor
  · intro heq
    calc f = (x ||| f) &&& f := by
          ext i
          simp only [BitVec.getElem_and, BitVec.getElem_or]
          cases f[i] <;> simp
      _ = 0 := by rw [heq, h]
  · rintro rfl
    exact BitVec.or_zero

theorem or_eq_xor (h : x &&& f = 0) : x ||| f = x ^^^ f := by
  ext i hi
  have hbit : (x[i] && f[i]) = false := by
    rw [← BitVec.getElem_and, h]
    exact BitVec.getElem_zero hi
  simp only [BitVec.getElem_or, BitVec.getElem_xor]
  revert hbit
  cases x[i] <;> cases f[i] <;> decide

theorem map_or_eq_iff {g : BitVec w → BitVec w} (hor : ∀ x y, g (x ||| y) = g x ||| g y)
    (hand : ∀ x y, x &&& y = 0 → g x &&& g y = 0) (h : x &&& f = 0) :
    g (x ||| f) = g x ↔ g f = 0 := by
  rw [hor]
  exact or_eq_left_iff (hand x f h)

theorem shiftLeft_or_eq_iff (h : x &&& f = 0) (n : Nat) :
    (x ||| f) <<< n = x <<< n ↔ f <<< n = 0 := by
  apply map_or_eq_iff (g := (· <<< n)) _ _ h
  · exact fun x y => BitVec.shiftLeft_or_distrib x y n
  · intro x y hxy
    rw [← BitVec.shiftLeft_and_distrib, hxy]
    exact BitVec.zero_shiftLeft n

theorem ushiftRight_or_eq_iff (h : x &&& f = 0) (n : Nat) :
    (x ||| f) >>> n = x >>> n ↔ f >>> n = 0 := by
  apply map_or_eq_iff (g := (· >>> n)) _ _ h
  · exact fun x y => BitVec.ushiftRight_or_distrib x y n
  · intro x y hxy
    rw [← BitVec.ushiftRight_and_distrib, hxy]
    exact BitVec.zero_ushiftRight

theorem and_or_eq_iff (h : x &&& f = 0) (y : BitVec w) :
    (x ||| f) &&& y = x &&& y ↔ f &&& y = 0 := by
  apply map_or_eq_iff (g := (· &&& y)) _ _ h
  · exact fun a b => BitVec.and_or_distrib_right
  · intro a b hab
    calc (a &&& y) &&& (b &&& y) = (a &&& b) &&& y := by
          ext i
          simp only [BitVec.getElem_and]
          cases a[i] <;> cases b[i] <;> simp
      _ = 0 := by rw [hab]; exact BitVec.zero_and

theorem or_or_eq_iff (h : x &&& f = 0) (y : BitVec w) :
    (x ||| f) ||| y = x ||| y ↔ f &&& ~~~y = 0 := by
  -- Outside of `y` the words are as they are without it.
  have hdrop (a : BitVec w) : (a ||| y) &&& ~~~y = a &&& ~~~y := by
    ext i
    simp only [BitVec.getElem_and, BitVec.getElem_or, BitVec.getElem_not]
    cases y[i] <;> simp
  have hadd (a : BitVec w) : (a &&& ~~~y) ||| y = a ||| y := by
    ext i
    simp only [BitVec.getElem_and, BitVec.getElem_or, BitVec.getElem_not]
    cases y[i] <;> simp
  rw [← and_or_eq_iff h]
  constructor
  · intro heq
    rw [← hdrop, heq, hdrop]
  · intro heq
    rw [← hadd, heq, hadd]

end MoreBits

end Mx.Core

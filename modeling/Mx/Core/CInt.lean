import Mathlib

/-!
# C integer types

Integer types by width and signedness, the integer promotions, the usual arithmetic
conversions and conversion between types. Conversion to a signed type wraps around, as every
common implementation defines it.
-/

/-- A C integer type. -/
structure CIntType where
  bits : Nat
  signed : Bool
  deriving DecidableEq, Repr

namespace CIntType

/-- `int`. -/
def int : CIntType := ⟨32, true⟩

/-- `unsigned int`. -/
def uint : CIntType := ⟨32, false⟩

/-- `long`, of 64 bits. -/
def long : CIntType := ⟨64, true⟩

/-- `unsigned long`. -/
def ulong : CIntType := ⟨64, false⟩

/-- `unsigned char`. -/
def uchar : CIntType := ⟨8, false⟩

/-- The type of a decimal constant, with a minus sign or without. -/
def ofDecimal (v : Int) : CIntType := if v.natAbs < 2 ^ 31 then int else long

/-- The integer promotions: a type narrower than `int` becomes `int`. -/
def promote (t : CIntType) : CIntType := if t.bits < 32 then int else t

/-- The usual arithmetic conversions. -/
def common (a b : CIntType) : CIntType :=
  if a.promote.signed = b.promote.signed then
    if a.promote.bits < b.promote.bits then b.promote else a.promote
  else
    let u := if a.promote.signed then b.promote else a.promote
    let s := if a.promote.signed then a.promote else b.promote
    -- a wider signed type represents every value of the unsigned one
    if u.bits < s.bits then s else u

/-- Conversion of a value to a type. -/
def convert (t : CIntType) (v : Int) : Int :=
  if t.signed then v.bmod (2 ^ t.bits) else v % 2 ^ t.bits

/-- A comparison of two values after the usual arithmetic conversions. -/
def compare (rel : Int → Int → Bool) (a : CIntType) (v : Int) (b : CIntType) (w : Int) : Bool :=
  rel ((common a b).convert v) ((common a b).convert w)

/-- The values of a type. -/
def Fits (t : CIntType) (v : Int) : Prop :=
  if t.signed then -2 ^ (t.bits - 1) ≤ v ∧ v < 2 ^ (t.bits - 1) else 0 ≤ v ∧ v < 2 ^ t.bits

instance (t : CIntType) (v : Int) : Decidable (t.Fits v) := by
  unfold Fits
  infer_instance

/-- Conversion keeps a value that the type can represent. -/
theorem convert_of_fits {t : CIntType} {v : Int} (hbits : 0 < t.bits) (h : t.Fits v) :
    t.convert v = v := by
  unfold Fits at h
  unfold convert
  split at h
  · obtain ⟨k, hk⟩ := Nat.exists_eq_succ_of_ne_zero (Nat.pos_iff_ne_zero.mp hbits)
    simp only [hk, Nat.succ_eq_add_one, Nat.add_sub_cancel] at h ⊢
    have hpow : (2 ^ (k + 1) : Nat) = 2 * 2 ^ k := Nat.pow_succ'
    rw [if_pos ‹_›]
    apply Int.bmod_eq_of_le <;> rw [hpow] <;> push_cast <;> omega
  · rw [if_neg ‹_›]
    exact Int.emod_eq_of_lt h.1 h.2

theorem promote_bits (t : CIntType) : 32 ≤ t.promote.bits := by
  unfold promote
  split
  · exact Nat.le_refl 32
  · exact Nat.le_of_not_lt ‹_›

theorem common_bits (a b : CIntType) : 32 ≤ (common a b).bits := by
  have ha := a.promote_bits
  have hb := b.promote_bits
  unfold common
  dsimp only
  split_ifs <;> assumption

/-- Values that the common type can represent are compared as they are. -/
theorem compare_of_fits {rel : Int → Int → Bool} {a b : CIntType} {v w : Int}
    (hv : (common a b).Fits v) (hw : (common a b).Fits w) :
    compare rel a v b w = rel v w := by
  have hbits : 0 < (common a b).bits := Nat.lt_of_lt_of_le (by decide) (common_bits a b)
  rw [compare, convert_of_fits hbits hv, convert_of_fits hbits hw]

end CIntType

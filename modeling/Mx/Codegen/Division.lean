import Mx.Codegen.IntegerAgree

/-!
# The division law of the runtime

`m2_div` rounds down and `m2_mod` is never negative. The two belong to one division, so that the
dividend is the divisor times the quotient plus the remainder, for a positive divisor and for one
that divides; a negative divisor that does not divide has a quotient for a remainder of its own
sign and a remainder of the other.
-/

namespace CIntType

/-- The least value of a signed type. -/
def least (t : CIntType) : Int := -2 ^ (t.bits - 1)

end CIntType

namespace Mx

variable {t : CIntType} {a b : Int}

/-- The truncated quotient leaves the type for one pair only. -/
theorem fits_tdiv (ht : t.signed = true) (ha : t.Fits a) (h0 : b ≠ 0)
    (hmin : ¬ (a = t.least ∧ b = -1)) : t.Fits (a.tdiv b) := by
  rw [fits_signed_iff ht] at ha ⊢
  rw [CIntType.least] at hmin
  have hpow : (0 : Int) < 2 ^ (t.bits - 1) := Int.pow_pos (by decide)
  generalize (2 : Int) ^ (t.bits - 1) = p at *
  by_cases hone : b = 1
  · rw [hone, Int.tdiv_one]
    exact ha
  · by_cases hneg : b = -1
    · rw [hneg, Int.tdiv_neg, Int.tdiv_one]
      have hne : a ≠ -p := fun h => hmin ⟨h, hneg⟩
      omega
    · -- Any other divisor at least halves the dividend.
      have hsize : (a.tdiv b).natAbs ≤ a.natAbs / 2 := by
        rw [Int.natAbs_tdiv]
        apply Nat.div_le_div_left
        · omega
        · decide
      omega

/-- `m2_div` rounds down. -/
theorem m2Div_eq_fdiv (h0 : b ≠ 0) (hfits : t.Fits (a.tdiv b)) :
    m2Div t a b = some (a.fdiv b) := by
  have hdiv := Int.fdiv_eq_ediv (a := a) (b := b)
  have htrunc := Int.tdiv_eq_ediv (a := a) (b := b)
  have hrem := Int.tmod_eq_emod (a := a) (b := b)
  have hnonneg := Int.emod_nonneg a h0
  have hlt := Int.emod_lt a h0
  have hdvd := Int.dvd_iff_emod_eq_zero (a := b) (b := a)
  rw [m2Div, if_neg (by simp [h0, hfits])]
  dsimp only
  apply congrArg some
  rcases Int.lt_or_gt_of_ne h0 with hneg | hpos
  · rw [Int.sign_eq_neg_one_of_neg hneg] at htrunc
    split <;> grind
  · rw [Int.sign_eq_one_of_pos hpos] at htrunc
    split <;> grind

/-- `m2_mod` is the remainder that is not negative, where it negates no least value. -/
theorem m2Mod_eq_emod (h0 : b ≠ 0) (hfits : t.Fits (a.tdiv b))
    (hneg : t.Fits (-b) ∨ 0 ≤ a ∨ b ∣ a) :
    m2Mod t a b = some (a % b) := by
  have hrem := Int.tmod_eq_emod (a := a) (b := b)
  have hnonneg := Int.emod_nonneg a h0
  have hlt := Int.emod_lt a h0
  have hdvd := Int.dvd_iff_emod_eq_zero (a := b) (b := a)
  rw [m2Mod, if_neg (by simp [h0, hfits])]
  dsimp only
  rcases Int.lt_or_gt_of_ne h0 with hb | hb
  · split <;> grind
  · split <;> grind

/-- The quotient rounded down and the remainder that is not negative give the dividend back for a
positive divisor, and for a negative one that divides. -/
theorem mul_fdiv_add_emod_iff (h0 : b ≠ 0) : a = b * a.fdiv b + a % b ↔ 0 < b ∨ b ∣ a := by
  have hdiv := Int.fdiv_eq_ediv (a := a) (b := b)
  have hlaw := Int.mul_ediv_add_emod a b
  by_cases hexact : 0 ≤ b ∨ b ∣ a
  · rw [if_pos hexact, Int.sub_zero] at hdiv
    rw [hdiv]
    constructor
    · intro _
      apply hexact.imp_left
      omega
    · intro _
      exact hlaw.symm
  · rw [if_neg hexact] at hdiv
    rw [hdiv, Int.mul_sub]
    constructor
    · intro h
      omega
    · intro h
      exact absurd (h.imp_left Int.le_of_lt) hexact

/-- `m2_div` and `m2_mod` satisfy the division law: the quotient is rounded down, the remainder
lies between zero and the size of the divisor, and nothing leaves the type on the way. -/
def DivisionLaw (t : CIntType) (a b : Int) : Prop :=
  ∃ q r, m2Div t a b = some q ∧ m2Mod t a b = some r ∧ q = a.fdiv b ∧
    0 ≤ r ∧ r < b.natAbs ∧ a = b * q + r

/-- At every pair of a signed type but the one whose quotient leaves it, `m2_div` is the quotient
rounded down. Where `m2_mod` does not negate the least value, it is a remainder between zero and
the size of the divisor, and the two give the dividend back exactly where the divisor is positive
or divides it. -/
theorem m2Div_m2Mod_spec {t : CIntType} {a b : Int} (ht : t.signed = true) (ha : t.Fits a)
    (hb : t.Fits b) (h0 : b ≠ 0) (hmin : ¬ (a = t.least ∧ b = -1)) :
    m2Div t a b = some (a.fdiv b) ∧ t.Fits (a.fdiv b) ∧
      (b ≠ t.least ∨ 0 ≤ a ∨ b ∣ a → ∃ r, m2Mod t a b = some r ∧ t.Fits r ∧ 0 ≤ r ∧ r < b.natAbs ∧
        (a = b * a.fdiv b + r ↔ 0 < b ∨ b ∣ a)) := by
  have hfits := fits_tdiv ht ha h0 hmin
  have hdiv := m2Div_eq_fdiv h0 hfits
  refine ⟨hdiv, fits_of_m2Div ht ha hdiv, fun hnegates => ?_⟩
  have hneg : t.Fits (-b) ∨ 0 ≤ a ∨ b ∣ a := by
    apply hnegates.imp_left
    intro hne
    rw [fits_signed_iff ht] at hb ⊢
    rw [CIntType.least] at hne
    omega
  have hmod := m2Mod_eq_emod h0 hfits hneg
  exact ⟨a % b, hmod, fits_of_m2Mod ht hb hmod, Int.emod_nonneg a h0, Int.emod_lt a h0,
    mul_fdiv_add_emod_iff h0⟩

/-- Minus seven by three, in 32 bits. -/
theorem m2Div_m2Mod_spec_minus_seven :
    m2Div .int (-7) 3 = some (-3) ∧ ∃ r, m2Mod .int (-7) 3 = some r ∧ -7 = 3 * -3 + r := by
  obtain ⟨hdiv, -, hmod⟩ := m2Div_m2Mod_spec (t := .int) (a := -7) (b := 3) rfl (by decide)
    (by decide) (by decide) (by decide)
  obtain ⟨r, hr, -, -, -, hlaw⟩ := hmod (.inl (by decide))
  exact ⟨hdiv, r, hr, hlaw.2 (.inl (by decide))⟩

/-- Seven by minus three has the quotient minus three and the remainder one. -/
theorem not_divisionLaw :
    ¬ ∀ a b : Int, CIntType.int.Fits a → CIntType.int.Fits b → b ≠ 0 →
      ¬ (a = CIntType.int.least ∧ b = -1) → DivisionLaw .int a b := by
  intro h
  obtain ⟨q, r, hq, hr, -, -, -, hlaw⟩ := h 7 (-3) (by decide) (by decide) (by decide) (by decide)
  have hquot : m2Div .int 7 (-3) = some (-3) := by decide
  have hrem : m2Mod .int 7 (-3) = some 1 := by decide
  cases hquot.symm.trans hq
  cases hrem.symm.trans hr
  exact absurd hlaw (by decide)

end Mx

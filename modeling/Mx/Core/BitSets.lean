import Mathlib

/-!
# Words as finite sets

A word stands for the set of the positions of its bits that are set. The operations of set algebra
are operations on words; inclusion is no order of the words as numbers.
-/

namespace Mx.Core

variable {w : Nat} {x y : BitVec w}

/-- The positions of the bits that are set. -/
def members (x : BitVec w) : Finset (Fin w) := Finset.univ.filter fun i => x[i] = true

@[simp] theorem mem_members {i : Fin w} : i ∈ members x ↔ x[i] = true := by
  simp [members]

theorem members_injective : Function.Injective (members (w := w)) := by
  intro x y h
  ext i hi
  have hbit := Finset.ext_iff.mp h ⟨i, hi⟩
  simp only [mem_members, Fin.getElem_fin] at hbit
  exact Bool.eq_iff_iff.mpr hbit

@[simp] theorem members_zero : members (0#w) = ∅ := by
  ext i
  simp

@[simp] theorem members_or : members (x ||| y) = members x ∪ members y := by
  ext i
  simp

@[simp] theorem members_and : members (x &&& y) = members x ∩ members y := by
  ext i
  simp

@[simp] theorem members_andNot : members (x &&& ~~~y) = members x \ members y := by
  ext i
  simp

@[simp] theorem members_xor : members (x ^^^ y) = symmDiff (members x) (members y) := by
  ext i
  simp only [mem_members, Fin.getElem_fin, BitVec.getElem_xor, Finset.mem_symmDiff]
  cases x[i.val] <;> cases y[i.val] <;> simp

/-- The word with the given bits. -/
def wordOf (s : Finset (Fin w)) : BitVec w :=
  BitVec.ofNat w (Nat.ofBits fun i => decide (i ∈ s))

@[simp] theorem members_wordOf (s : Finset (Fin w)) : members (wordOf s) = s := by
  ext i
  rw [mem_members, wordOf, Fin.getElem_fin, ← BitVec.getLsbD_eq_getElem, BitVec.getLsbD_ofNat,
    Nat.testBit_ofBits_lt _ i i.isLt]
  simp

@[simp] theorem wordOf_members (x : BitVec w) : wordOf (members x) = x := by
  apply members_injective
  rw [members_wordOf]

theorem wordOf_eq_iff {s : Finset (Fin w)} : wordOf s = x ↔ s = members x := by
  constructor
  · rintro rfl
    rw [members_wordOf]
  · rintro rfl
    rw [wordOf_members]

/-- A one shifted to a position. -/
theorem members_shiftLeft_one {n : Nat} (h : n < w) : members (1#w <<< n) = {⟨n, h⟩} := by
  ext i
  rw [mem_members, Fin.getElem_fin, ← BitVec.getLsbD_eq_getElem, BitVec.getLsbD_shiftLeft,
    BitVec.getLsbD_one, Finset.mem_singleton, Fin.ext_iff]
  simp only [Bool.and_eq_true, Bool.not_eq_true', decide_eq_true_eq, decide_eq_false_iff_not]
  omega

/-- As many ones as `n`, shifted to a position. -/
theorem members_ones_shiftLeft {n : Nat} (h : n < w) (low : Nat) :
    members ((1#w <<< n - 1#w) <<< low) =
      Finset.univ.filter fun i => low ≤ i.val ∧ i.val < low + n := by
  have hpow : 2 ^ n < 2 ^ w := Nat.pow_lt_pow_right (by decide) h
  have hpos : 0 < 2 ^ n := Nat.two_pow_pos n
  have hones : (1#w <<< n - 1#w).toNat = 2 ^ n - 1 := by
    have hone : 1 % 2 ^ w = 1 := Nat.mod_eq_of_lt (by omega)
    rw [BitVec.toNat_sub, BitVec.toNat_shiftLeft, BitVec.toNat_ofNat, hone, Nat.shiftLeft_eq,
      Nat.one_mul, Nat.mod_eq_of_lt hpow]
    have hsum : 2 ^ w - 1 + 2 ^ n = 2 ^ n - 1 + 2 ^ w := by omega
    rw [hsum, Nat.add_mod_right]
    exact Nat.mod_eq_of_lt (by omega)
  ext i
  have hbit : ∀ j, (1#w <<< n - 1#w).getLsbD j = decide (j < n) := by
    intro j
    rw [BitVec.getLsbD, hones, Nat.testBit_two_pow_sub_one]
  rw [mem_members, Fin.getElem_fin, ← BitVec.getLsbD_eq_getElem, BitVec.getLsbD_shiftLeft, hbit]
  simp only [Finset.mem_filter, Finset.mem_univ, true_and, Bool.and_eq_true, Bool.not_eq_true',
    decide_eq_true_eq, decide_eq_false_iff_not]
  omega

/-- The bit at a position, moved to the front. -/
theorem ushiftRight_and_one {n : Nat} (h : n < w) :
    (x >>> n) &&& 1#w = if ⟨n, h⟩ ∈ members x then 1#w else 0#w := by
  have hone : BitVec.setWidth w 1#1 = 1#w := BitVec.eq_of_toNat_eq (by simp)
  have hmem : ⟨n, h⟩ ∈ members x ↔ x.getLsbD n = true := by
    rw [mem_members, Fin.getElem_fin, ← BitVec.getLsbD_eq_getElem]
  rw [BitVec.and_one_eq_setWidth_ofBool_getLsbD, BitVec.getLsbD_ushiftRight, Nat.add_zero]
  simp only [hmem]
  cases x.getLsbD n with
  | true => exact hone
  | false => simp

/-- A subset is the smaller number. -/
theorem toNat_le_of_subset (h : members x ⊆ members y) : x.toNat ≤ y.toNat := by
  have hand : x &&& y = x := by
    apply members_injective
    rw [members_and]
    exact Finset.inter_eq_left.mpr h
  rw [← hand, BitVec.toNat_and]
  exact Nat.and_le_right

end Mx.Core

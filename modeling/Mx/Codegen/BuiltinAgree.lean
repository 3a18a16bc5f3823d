import Mx.Codegen.BuiltinOps
import Mx.Codegen.IntegerAgree

/-!
# When the builtins of both backends agree

Both backends compute most builtins on words of 32 bits. The words of an argument are the same,
except for a character from `200C` on where `char` is signed: C extends its sign. The other
differences are in the formulas: `toupper` and a mask, `abs` and a shift by 31 at any width, a shift
to either side and one to the left.
-/

namespace Mx

open CGrammar Mx.Core

/-- Both backends compute a value, and it is the same. -/
def SameValue (c : Option CValue) (l : Option Val) : Prop :=
  ∃ t v x, c = some (.int t v) ∧ l.bind Val.used = some x ∧ x.Denotes v

/-- A call of a builtin has the same value in both backends. -/
def BuiltinAgrees (g : CodeGen) (reg : TypeRegistry) (depth : Nat) (charSigned : Bool)
    (op : IntBuiltin) (ta tb : TypeId) {ka kb : ArgKind} (a : BitVec ka.width)
    (b : BitVec kb.width) : Prop :=
  SameValue (cBuiltin g op (ka.cValue charSigned a) (kb.cValue charSigned b))
    (genHirBuiltin op ⟨ka.width, a⟩ ⟨kb.width, b⟩ (reg.isUnsignedType depth ta)
      (reg.isUnsignedType depth tb))

/-- A character that is negative in C. -/
def signLost (charSigned : Bool) (k : ArgKind) (a : BitVec k.width) : Bool :=
  charSigned && k == .int .char && decide (128 ≤ a.toNat)

/-- The bits of a word that a character does not have. -/
def upper : BitVec 32 := 0xFFFFFF00

/-- The low word of an argument. -/
def lowWord {k : ArgKind} (a : BitVec k.width) : BitVec 32 := a.setWidth 32

/-- A call of a builtin that both backends compute alike. -/
def callAlike (charSigned : Bool) (op : IntBuiltin) {ka kb : ArgKind} (a : BitVec ka.width)
    (b : BitVec kb.width) : Prop :=
  let lostA := signLost charSigned ka a
  let lostB := signLost charSigned kb b
  match op with
  | .abs =>
    ka.width ≠ 8 ∧ ((-2 ^ 31 < a.toInt ∧ a.toInt < 2 ^ 31) ∨ a.toInt = 2 ^ 31 + 1)
  | .cap =>
    lostA = false ∧ (lowWord a).toNat < 256 ∧
      ((97 ≤ (lowWord a).toNat ∧ (lowWord a).toNat ≤ 122) ∨ lowWord a &&& 32 = 0)
  | .odd => ka.width = 32
  | .band =>
    (lostA = true → lostB = false ∧ upper &&& lowWord b = 0) ∧
      (lostB = true → lostA = false ∧ upper &&& lowWord a = 0)
  | .bor =>
    (lostA = true → lostB = false ∧ upper &&& ~~~lowWord b = 0) ∧
      (lostB = true → lostA = false ∧ upper &&& ~~~lowWord a = 0)
  | .bxor => lostA = lostB
  | .bnot | .shr | .rotate => lostA = false
  | .shl => lostA = true → 24 ≤ (lowWord b).toNat
  | .shift => (lowWord b).toNat < 32 ∧ (lostA = true → 24 ≤ (lowWord b).toNat)

instance (charSigned : Bool) (op : IntBuiltin) {ka kb : ArgKind} (a : BitVec ka.width)
    (b : BitVec kb.width) : Decidable (callAlike charSigned op a b) :=
  match op with
  | .abs | .cap | .band | .bor | .shift => inferInstanceAs (Decidable (_ ∧ _))
  | .odd => inferInstanceAs (Decidable (ka.width = 32))
  | .bxor | .bnot | .shr | .rotate => inferInstanceAs (Decidable (_ = _))
  | .shl => inferInstanceAs (Decidable (_ → _))

/-! ## The words of an argument -/

section Word

variable {charSigned : Bool} {k : ArgKind}

/-- The word of an argument in C. -/
def cWord (charSigned : Bool) (k : ArgKind) (a : BitVec k.width) : BitVec 32 :=
  .ofInt 32 (k.cNum charSigned a)

theorem coerce_eq_lowWord {flag : Bool} (hflag : k = .int .char → flag = true)
    (a : BitVec k.width) : IntN.coerce flag 32 ⟨k.width, a⟩ = lowWord a := by
  apply if_neg
  rintro ⟨hwidth, rfl⟩
  have hlt : k.width < 32 := hwidth
  refine Bool.false_ne_true (hflag ?_)
  clear hwidth a
  revert hlt
  rcases k with (_ | _ | _ | _ | _) | _ | _ <;> decide

theorem cWord_eq (a : BitVec k.width) :
    cWord charSigned k a = if signLost charSigned k a then lowWord a ||| upper else lowWord a := by
  have hword : cWord charSigned k a =
      IntN.coerce (!(k.cType charSigned).signed) 32 ⟨k.width, a⟩ := by
    rw [IntN.coerce_eq, Bool.not_not]
    rfl
  rw [hword]
  by_cases hchar : k = .int .char
  · subst hchar
    cases charSigned with
    | true =>
      have hall : ∀ a : BitVec 8, a.signExtend 32 =
          if decide (128 ≤ a.toNat) then a.setWidth 32 ||| upper else a.setWidth 32 := by
        decide +kernel
      exact hall a
    | false => rfl
  · have hlost : signLost charSigned k a = false := by simp [signLost, hchar]
    rw [hlost, coerce_eq_lowWord (fun h => absurd h hchar)]
    rfl

theorem cWord_of_kept {a : BitVec k.width} (h : signLost charSigned k a = false) :
    cWord charSigned k a = lowWord a := by
  rw [cWord_eq, h]
  rfl

theorem cWord_of_lost {a : BitVec k.width} (h : signLost charSigned k a = true) :
    cWord charSigned k a = lowWord a ||| upper := by
  rw [cWord_eq, h]
  rfl

/-- A character has no upper bits. -/
theorem lowWord_and_upper {a : BitVec k.width} (h : signLost charSigned k a = true) :
    lowWord a &&& upper = 0 := by
  simp only [signLost, Bool.and_eq_true, beq_iff_eq] at h
  obtain ⟨⟨-, rfl⟩, -⟩ := h
  have hall : ∀ a : BitVec 8, a.setWidth 32 &&& upper = 0 := by decide +kernel
  exact hall a

example : upper.toNat = 4294967040 := by decide +kernel

end Word

/-! ## The values of the C text -/

section Text

variable (g : CodeGen) (t u : CIntType) (v w : Int)

theorem cBuiltin_abs (b : CValue) :
    cBuiltin g .abs (.int t v) b = cAbs (CIntType.int.convert v) := rfl

theorem cBuiltin_cap (b : CValue) :
    cBuiltin g .cap (.int t v) b = toUpper (CIntType.int.convert v) := rfl

theorem cBuiltin_odd (b : CValue) : cBuiltin g .odd (.int t v) b = arith .and t v .int 1 := rfl

theorem cBuiltin_bnot (b : CValue) :
    cBuiltin g .bnot (.int t v) b = compl (some (.int .uint (CIntType.uint.convert v))) := rfl

theorem cBuiltin_band : cBuiltin g .band (.int t v) (.int u w) =
    arith .and .uint (CIntType.uint.convert v) .uint (CIntType.uint.convert w) := rfl

theorem cBuiltin_bor : cBuiltin g .bor (.int t v) (.int u w) =
    arith .or .uint (CIntType.uint.convert v) .uint (CIntType.uint.convert w) := rfl

theorem cBuiltin_bxor : cBuiltin g .bxor (.int t v) (.int u w) =
    arith .xor .uint (CIntType.uint.convert v) .uint (CIntType.uint.convert w) := rfl

theorem cBuiltin_shl : cBuiltin g .shl (.int t v) (.int u w) =
    arith .shl .uint (CIntType.uint.convert v) u w := rfl

theorem cBuiltin_shr : cBuiltin g .shr (.int t v) (.int u w) =
    arith .shr .uint (CIntType.uint.convert v) u w := rfl

theorem cBuiltin_shift : cBuiltin g .shift (.int t v) (.int u w) =
    wordCall m2Shift (some (.int .uint (CIntType.uint.convert v))) (some (.int u w)) := rfl

theorem cBuiltin_rotate : cBuiltin g .rotate (.int t v) (.int u w) =
    wordCall (fun x n => some (m2Rotate x n)) (some (.int .uint (CIntType.uint.convert v)))
      (some (.int u w)) := rfl

end Text

/-! ## Words -/

theorem sameValue_iff (t : CIntType) (v : Int) (x : IntN) :
    SameValue (some (.int t v)) (some ⟨x.width, x⟩) ↔ x.Denotes v := by
  have hused : (some (⟨x.width, x⟩ : Val)).bind Val.used = some x := if_pos rfl
  constructor
  · rintro ⟨_, _, z, hc, hl, hdenotes⟩
    cases hc
    rw [hused] at hl
    cases hl
    exact hdenotes
  · exact fun h => ⟨_, _, _, rfl, hused, h⟩

theorem not_sameValue_none (l : Option Val) : ¬ SameValue none l := by
  rintro ⟨t, v, x, hc, -⟩
  exact nomatch hc

/-- Two words are the same value just if they are the same. -/
theorem sameValue_words (x y : BitVec 32) :
    SameValue (some (.int .uint x.toNat)) (some (i32Val y)) ↔ x = y := by
  refine (sameValue_iff .uint x.toNat ⟨32, y⟩).trans ⟨fun hdenotes => ?_, ?_⟩
  · have hbits : BitVec.ofInt 32 (x.toNat : Int) = y := by
      obtain h | h := hdenotes
      · rw [h]
        exact BitVec.ofInt_toInt
      · rw [h]
        simp
    rw [← hbits]
    simp
  · rintro rfl
    exact .inr rfl

theorem convert_uint_toInt (x : BitVec 32) : CIntType.uint.convert x.toInt = x.toNat := by
  have h := convert_eq_num (c := .uint) (v := x.toInt)
  rw [h]
  change ((BitVec.ofInt 32 x.toInt).toNat : Int) = x.toNat
  rw [BitVec.ofInt_toInt]

theorem bitwise_uint (f : BitVec 32 → BitVec 32 → BitVec 32) (v w : Int) :
    bitwise .uint f (CIntType.uint.convert (CIntType.uint.convert v))
      (CIntType.uint.convert (CIntType.uint.convert w)) =
      some (.int .uint (f (.ofInt 32 v) (.ofInt 32 w)).toNat) := by
  have hword (v : Int) : BitVec.ofInt 32 (CIntType.uint.convert (CIntType.uint.convert v)) =
      BitVec.ofInt 32 v := (ofInt_convert (c := .uint) _).trans (ofInt_convert (c := .uint) v)
  unfold bitwise
  change some (CValue.int .uint (CIntType.uint.convert (f (BitVec.ofInt 32 _)
    (BitVec.ofInt 32 _)).toInt)) = _
  rw [hword, hword, convert_uint_toInt]

theorem compl_uint (v : Int) : compl (some (.int .uint (CIntType.uint.convert v))) =
    some (.int .uint (BitVec.ofInt 32 v ^^^ -1).toNat) := by
  have hword : BitVec.ofInt 32 (CIntType.uint.convert v) = BitVec.ofInt 32 v :=
    ofInt_convert (c := .uint) v
  change some (CValue.int .uint (CIntType.uint.convert (~~~ BitVec.ofInt 32 _).toInt)) = _
  rw [hword, convert_uint_toInt]
  rw [← BitVec.xor_allOnes]
  rfl

theorem convert_uint (v : Int) : CIntType.uint.convert v = (BitVec.ofInt 32 v).toNat :=
  (toNat_ofInt_of_unsigned (c := .uint) rfl).symm

theorem convert_int (v : Int) : CIntType.int.convert v = (BitVec.ofInt 32 v).toInt :=
  convert_eq_num (c := .int) v

theorem arith_shl_uint (u : CIntType) (v : Int) {n : Nat} (hn : n < 32) :
    arith .shl .uint (CIntType.uint.convert v) u n =
      some (.int .uint (BitVec.ofInt 32 v <<< n).toNat) := by
  have hcount : (0 : Int) ≤ n ∧ (n : Int) < CIntType.uint.promote.bits :=
    ⟨Int.natCast_nonneg n, by exact_mod_cast hn⟩
  simp only [arith]
  rw [if_pos hcount, Int.toNat_natCast, convert_uint]
  change some (CValue.int .uint (CIntType.uint.convert _)) = _
  rw [convert_uint]
  congr 3
  rw [show ((BitVec.ofInt 32 v).toNat : Int) * 2 ^ n = ((BitVec.ofInt 32 v).toNat * 2 ^ n : Nat) by
    push_cast; rfl, BitVec.ofInt_natCast, BitVec.toNat_ofNat, BitVec.toNat_shiftLeft,
    Nat.shiftLeft_eq]

theorem arith_shr_uint (u : CIntType) (v : Int) {n : Nat} (hn : n < 32) :
    arith .shr .uint (CIntType.uint.convert v) u n =
      some (.int .uint (BitVec.ofInt 32 v >>> n).toNat) := by
  have hcount : (0 : Int) ≤ n ∧ (n : Int) < CIntType.uint.promote.bits :=
    ⟨Int.natCast_nonneg n, by exact_mod_cast hn⟩
  simp only [arith]
  rw [if_pos hcount, Int.toNat_natCast, convert_uint, BitVec.toNat_ushiftRight,
    Nat.shiftRight_eq_div_pow]
  push_cast
  rfl

/-- The count of a call of the runtime is the word of the second argument. -/
theorem wordCall_uint (f : BitVec 32 → Int → Option (BitVec 32)) (u : CIntType) (v w : Int) :
    wordCall f (some (.int .uint (CIntType.uint.convert v))) (some (.int u w)) =
      (f (.ofInt 32 v) (BitVec.ofInt 32 w).toInt).map fun x => .int .uint x.toNat := by
  have hword : BitVec.ofInt 32 (CIntType.uint.convert v) = BitVec.ofInt 32 v :=
    ofInt_convert (c := .uint) v
  rw [wordCall, hword, convert_int]

theorem m2Shift_of_lt (x : BitVec 32) {n : Nat} (hn : n < 32) : m2Shift x n = some (x <<< n) := by
  unfold m2Shift
  split
  · next h =>
    obtain rfl : n = 0 := by omega
    simp
  · rw [if_pos (by omega), if_neg (by omega), Int.toNat_natCast]

theorem m2Rotate_eq (x y : BitVec 32) : m2Rotate x y.toInt = fshl x x y := by
  have hcount : (if y.toInt.tmod 32 < 0 then y.toInt.tmod 32 + 32 else y.toInt.tmod 32) =
      ((y.toNat % 32 : Nat) : Int) := by
    have htoInt := BitVec.toInt_eq_toNat_cond y
    have htmod := Int.tmod_eq_emod (a := y.toInt) (b := 32)
    have habs : Int.natAbs 32 = 32 := rfl
    rw [habs] at htmod
    split at htoInt <;> split at htmod <;> split <;> omega
  unfold m2Rotate fshl
  dsimp only
  rw [hcount]
  split
  · next h =>
    have hzero : y.toNat % 32 = 0 := by omega
    rw [hzero, BitVec.ushiftRight_eq_zero (by decide), BitVec.shiftLeft_zero, BitVec.or_zero]
  · have hrest : ((32 : Int) - (y.toNat % 32 : Nat)).toNat = 32 - y.toNat % 32 := by omega
    rw [Int.toNat_natCast, hrest]

theorem fshl_ne {x y : BitVec 32} (n : BitVec 32) (hx : x.getLsbD 31 = false)
    (hy : y.getLsbD 31 = true) : fshl x x n ≠ fshl y y n := by
  intro heq
  have hlt : n.toNat % 32 < 32 := Nat.mod_lt _ (by decide)
  unfold fshl at heq
  generalize n.toNat % 32 = k at heq hlt
  obtain rfl | hk := Nat.eq_zero_or_pos k
  · rw [BitVec.ushiftRight_eq_zero (by decide), BitVec.ushiftRight_eq_zero (by decide),
      BitVec.shiftLeft_zero, BitVec.shiftLeft_zero, BitVec.or_zero, BitVec.or_zero] at heq
    exact Bool.false_ne_true (hx.symm.trans ((congrArg (·.getLsbD 31) heq).trans hy))
  · -- The upmost bit comes to the place below `k`.
    have hbit (z : BitVec 32) : (z <<< k ||| z >>> (32 - k)).getLsbD (k - 1) = z.getLsbD 31 := by
      have hup : 32 - k + (k - 1) = 31 := by omega
      have hlow : decide (k - 1 < k) = true := decide_eq_true (by omega)
      rw [BitVec.getLsbD_or, BitVec.getLsbD_shiftLeft, BitVec.getLsbD_ushiftRight, hup, hlow]
      simp
    exact Bool.false_ne_true (hx.symm.trans ((hbit x).symm.trans
      ((congrArg (·.getLsbD (k - 1)) heq).trans ((hbit y).trans hy))))

/-! ## Words of both backends -/

section Words

variable {charSigned : Bool} {ka kb : ArgKind} (a : BitVec ka.width) (b : BitVec kb.width)

theorem cWord_eq_iff : cWord charSigned ka a = lowWord a ↔ signLost charSigned ka a = false := by
  cases hlost : signLost charSigned ka a with
  | false => simp [cWord_of_kept hlost]
  | true =>
    rw [cWord_of_lost hlost, or_eq_left_iff (lowWord_and_upper hlost)]
    simp [upper]

/-- Both signs are lost: the words have all upper bits, and the low words have none. -/
theorem ne_of_upper {x y : BitVec 32} (hx : upper &&& x = upper) (hy : y &&& upper = 0) :
    x ≠ y := by
  rintro rfl
  rw [BitVec.and_comm, hx] at hy
  exact absurd hy (by decide)

theorem band_iff :
    cWord charSigned ka a &&& cWord charSigned kb b = lowWord a &&& lowWord b ↔
      callAlike charSigned .band a b := by
  simp only [callAlike]
  cases ha : signLost charSigned ka a <;> cases hb : signLost charSigned kb b
  · simp [cWord_of_kept ha, cWord_of_kept hb]
  · rw [cWord_of_kept ha, cWord_of_lost hb, BitVec.and_comm, BitVec.and_comm (lowWord a),
      and_or_eq_iff (lowWord_and_upper hb)]
    simp
  · rw [cWord_of_lost ha, cWord_of_kept hb, and_or_eq_iff (lowWord_and_upper ha)]
    simp
  · rw [cWord_of_lost ha, cWord_of_lost hb]
    have hne : (lowWord a ||| upper) &&& (lowWord b ||| upper) ≠ lowWord a &&& lowWord b := by
      apply ne_of_upper
      · ext i
        simp
        grind
      · rw [BitVec.and_assoc, lowWord_and_upper hb]
        exact BitVec.and_zero
    simp [hne]

theorem bor_iff :
    cWord charSigned ka a ||| cWord charSigned kb b = lowWord a ||| lowWord b ↔
      callAlike charSigned .bor a b := by
  simp only [callAlike]
  cases ha : signLost charSigned ka a <;> cases hb : signLost charSigned kb b
  · simp [cWord_of_kept ha, cWord_of_kept hb]
  · rw [cWord_of_kept ha, cWord_of_lost hb, BitVec.or_comm, BitVec.or_comm (lowWord a),
      or_or_eq_iff (lowWord_and_upper hb)]
    simp
  · rw [cWord_of_lost ha, cWord_of_kept hb, or_or_eq_iff (lowWord_and_upper ha)]
    simp
  · rw [cWord_of_lost ha, cWord_of_lost hb]
    have hne : (lowWord a ||| upper) ||| (lowWord b ||| upper) ≠ lowWord a ||| lowWord b := by
      apply ne_of_upper
      · ext i
        simp
        grind
      · calc (lowWord a ||| lowWord b) &&& upper
            = (lowWord a &&& upper) ||| (lowWord b &&& upper) := BitVec.and_or_distrib_right
          _ = 0 := by
              rw [lowWord_and_upper ha, lowWord_and_upper hb]
              rfl
    simp [hne]

theorem bxor_iff :
    cWord charSigned ka a ^^^ cWord charSigned kb b = lowWord a ^^^ lowWord b ↔
      callAlike charSigned .bxor a b := by
  simp only [callAlike]
  cases ha : signLost charSigned ka a <;> cases hb : signLost charSigned kb b
  · simp [cWord_of_kept ha, cWord_of_kept hb]
  · rw [cWord_of_kept ha, BitVec.xor_right_inj, cWord_eq_iff, hb]
    simp
  · rw [cWord_of_kept hb, BitVec.xor_left_inj, cWord_eq_iff, ha]
  · rw [cWord_of_lost ha, cWord_of_lost hb, or_eq_xor (lowWord_and_upper ha),
      or_eq_xor (lowWord_and_upper hb), BitVec.xor_comm (lowWord b), ← BitVec.xor_assoc,
      BitVec.xor_assoc (lowWord a), BitVec.xor_self, BitVec.xor_zero]
    simp

theorem shiftLeft_iff {n : Nat} (hn : n < 32) :
    cWord charSigned ka a <<< n = lowWord a <<< n ↔ (signLost charSigned ka a = true → 24 ≤ n) := by
  cases ha : signLost charSigned ka a with
  | false => simp [cWord_of_kept ha]
  | true =>
    have hall : ∀ n < 32, upper <<< n = 0 ↔ 24 ≤ n := by decide +kernel
    rw [cWord_of_lost ha, shiftLeft_or_eq_iff (lowWord_and_upper ha), hall n hn]
    simp

theorem ushiftRight_iff {n : Nat} (hn : n < 32) :
    cWord charSigned ka a >>> n = lowWord a >>> n ↔ signLost charSigned ka a = false := by
  cases ha : signLost charSigned ka a with
  | false => simp [cWord_of_kept ha]
  | true =>
    have hall : ∀ n < 32, upper >>> n ≠ 0 := by decide +kernel
    rw [cWord_of_lost ha, ushiftRight_or_eq_iff (lowWord_and_upper ha)]
    exact iff_of_false (hall n hn) (by decide)

example : upper &&& 255 = 0 := by decide +kernel

theorem fshl_iff (n : BitVec 32) :
    fshl (cWord charSigned ka a) (cWord charSigned ka a) n = fshl (lowWord a) (lowWord a) n ↔
      signLost charSigned ka a = false := by
  cases ha : signLost charSigned ka a with
  | false => simp [cWord_of_kept ha]
  | true =>
    rw [cWord_of_lost ha]
    have hlow : (lowWord a).getLsbD 31 = false := by
      have hbit := congrArg (·.getLsbD 31) (lowWord_and_upper ha)
      simpa [upper] using hbit
    have hup : (lowWord a ||| upper).getLsbD 31 = true := by
      rw [BitVec.getLsbD_or]
      simp [upper]
    simp [(fshl_ne n hlow hup).symm]

end Words

/-! ## Capital letters -/

theorem toUpper_iff_of_lt {x : BitVec 32} (hx : x.toNat < 256) :
    SameValue (toUpper x.toInt) (some (i32Val (x &&& -33))) ↔
      (97 ≤ x.toNat ∧ x.toNat ≤ 122) ∨ x &&& 32 = 0 := by
  have hall : ∀ n : Nat, n < 256 →
      toUpper n = some (.int .int (if 97 ≤ n ∧ n ≤ 122 then (n : Int) - 32 else n)) ∧
        (IntN.Denotes ⟨32, BitVec.ofNat 32 n &&& -33⟩
            (if 97 ≤ n ∧ n ≤ 122 then (n : Int) - 32 else n) ↔
          (97 ≤ n ∧ n ≤ 122) ∨ BitVec.ofNat 32 n &&& 32 = 0) := by
    decide +kernel
  have hint : x.toInt = x.toNat := BitVec.toInt_eq_toNat_of_lt (by omega)
  have hbits : BitVec.ofNat 32 x.toNat = x := BitVec.eq_of_toNat_eq (by simp)
  obtain ⟨hupper, hiff⟩ := hall x.toNat hx
  rw [hbits] at hiff
  rw [hint, hupper]
  exact (sameValue_iff _ _ ⟨32, _⟩).trans hiff

/-- `toupper` has a value for no other word but that of `EOF`. -/
theorem not_toUpper_of_ge {x : BitVec 32} (hx : 256 ≤ x.toNat) :
    ¬ SameValue (toUpper x.toInt) (some (i32Val (x &&& -33))) := by
  unfold toUpper
  split
  · next hrange =>
    have hcond := BitVec.toInt_eq_toNat_cond x
    have hall : x = -1 := by
      apply BitVec.eq_of_toInt_eq
      have hone : (-1 : BitVec 32).toInt = -1 := by decide
      split at hcond <;> omega
    subst hall
    rw [show (-1 : BitVec 32).toInt = -1 by decide]
    intro hsame
    exact absurd ((sameValue_iff _ _ ⟨32, _⟩).1 hsame) (by decide)
  · exact not_sameValue_none _

theorem not_toUpper_of_lost (a : BitVec 8) (ha : 128 ≤ a.toNat) :
    ¬ SameValue (toUpper (a.setWidth 32 ||| upper).toInt)
      (some (i32Val (a.setWidth 32 &&& -33))) := by
  have hall : ∀ a : BitVec 8, 128 ≤ a.toNat → toUpper (a.setWidth 32 ||| upper).toInt = none ∨
      (toUpper (a.setWidth 32 ||| upper).toInt = some (.int .int (-1)) ∧ a = 255) := by
    decide +kernel
  obtain hnone | ⟨hone, rfl⟩ := hall a ha
  · rw [hnone]
    exact not_sameValue_none _
  · rw [hone]
    intro hsame
    exact absurd ((sameValue_iff _ _ ⟨32, _⟩).1 hsame) (by decide)

example : toUpper 97 = some (.int .int 65) := by decide +kernel

theorem cap_iff {charSigned : Bool} {ka kb : ArgKind} (a : BitVec ka.width) (b : BitVec kb.width) :
    SameValue (toUpper (cWord charSigned ka a).toInt) (some (i32Val (lowWord a &&& -33))) ↔
      callAlike charSigned .cap a b := by
  simp only [callAlike]
  cases ha : signLost charSigned ka a with
  | false =>
    rw [cWord_of_kept ha]
    by_cases hlt : (lowWord a).toNat < 256
    · rw [toUpper_iff_of_lt hlt]
      simp [hlt]
    · exact iff_of_false (not_toUpper_of_ge (Nat.le_of_not_lt hlt)) fun h => hlt h.2.1
  | true =>
    rw [cWord_of_lost ha]
    simp only [signLost, Bool.and_eq_true, beq_iff_eq, decide_eq_true_eq] at ha
    obtain ⟨⟨-, rfl⟩, hge⟩ := ha
    exact iff_of_false (not_toUpper_of_lost a hge) (by simp)

/-! ## Odd numbers -/

/-- The bits of an operation stand for its value in C. -/
theorem bitwise_denotes (c : CIntType) (f : BitVec c.bits → BitVec c.bits → BitVec c.bits)
    (v w : Int) : ∃ x, bitwise c f v w = some (.int c x) ∧
      IntN.Denotes ⟨c.bits, f (.ofInt c.bits v) (.ofInt c.bits w)⟩ x := by
  refine ⟨_, rfl, ?_⟩
  rw [convert_eq_num, IntN.ofInt, BitVec.ofInt_toInt]
  exact IntN.denotes_num _ _

/-- The lowest bit of a word, in a type of its width. -/
theorem odd_word {c : CIntType} (hc : c = .int ∨ c = .uint) (a : BitVec 32) :
    SameValue (arith .and c (IntN.num c.signed ⟨32, a⟩) .int 1) (some ⟨32, 32, a &&& 1⟩) := by
  have hword (d : CIntType) (hd : d.bits = 32) (signed : Bool) :
      BitVec.ofInt 32 (d.convert (IntN.num signed ⟨32, a⟩)) = a := by
    have hconvert := ofInt_convert (c := d) (IntN.num signed ⟨32, a⟩)
    rw [hd] at hconvert
    rw [hconvert, ← Bool.not_not signed, ← IntN.coerce_eq]
    exact (if_neg (by simp)).trans (BitVec.setWidth_eq a)
  obtain rfl | rfl := hc
  · obtain ⟨x, hx, hdenotes⟩ := bitwise_denotes .int (· &&& ·)
      (CIntType.int.convert (IntN.num true ⟨32, a⟩)) (CIntType.int.convert 1)
    refine ⟨_, _, ⟨32, a &&& 1⟩, hx, rfl, ?_⟩
    change IntN.Denotes ⟨32, BitVec.ofInt 32 _ &&& 1⟩ x at hdenotes
    rwa [hword .int rfl] at hdenotes
  · obtain ⟨x, hx, hdenotes⟩ := bitwise_denotes .uint (· &&& ·)
      (CIntType.uint.convert (IntN.num false ⟨32, a⟩)) (CIntType.uint.convert 1)
    refine ⟨_, _, ⟨32, a &&& 1⟩, hx, rfl, ?_⟩
    change IntN.Denotes ⟨32, BitVec.ofInt 32 _ &&& 1⟩ x at hdenotes
    rwa [hword .uint rfl] at hdenotes

theorem odd_iff {charSigned : Bool} {ka kb : ArgKind} (a : BitVec ka.width) (b : BitVec kb.width) :
    SameValue (arith .and (ka.cType charSigned) (ka.cNum charSigned a) .int 1)
      (some ⟨32, ka.width, a &&& 1⟩) ↔ callAlike charSigned .odd a b := by
  constructor
  · rintro ⟨t, v, x, -, hused, -⟩
    by_contra hwidth
    rw [Option.bind_some, Val.used, if_neg (fun h => hwidth (Eq.symm h))] at hused
    exact nomatch hused
  · intro halike
    have hwidth : ka.width = 32 := halike
    clear halike
    rcases ka with (_ | _ | _ | _ | _) | _ | _
    · exact odd_word (.inl rfl) a
    · exact odd_word (.inr rfl) a
    · exact absurd hwidth (by decide)
    · exact absurd hwidth (by decide)
    · exact absurd hwidth (by decide)
    · exact odd_word (.inr rfl) a
    · exact odd_word (.inl rfl) a

/-! ## Absolute values -/

section Abs

theorem xor_le_add (m n : Nat) : m ^^^ n ≤ m + n := by
  induction m using Nat.strongRecOn generalizing n with
  | ind m ih =>
    obtain rfl | hm := Nat.eq_zero_or_pos m
    · simp
    · have hhalf := ih (m / 2) (by omega) (n / 2)
      have hdiv : (m ^^^ n) / 2 = m / 2 ^^^ n / 2 := Nat.xor_div_two
      have hmod := Nat.xor_mod_two_eq_one (a := m) (b := n)
      omega

/-- What LLVM computes for `ABS`. -/
def absBits {w : Nat} (x : BitVec w) : BitVec w := (x ^^^ x.sshiftRight 31) - x.sshiftRight 31

theorem cAbs_word (x : BitVec 32) : cAbs x.toInt =
    if x.toInt = -2 ^ 31 then none else some (.int .int x.toInt.natAbs) := by
  have hlt : x.toInt < 2 ^ 31 := BitVec.toInt_lt
  have hge : -2 ^ 31 ≤ x.toInt := x.le_toInt
  have habs : (if x.toInt < 0 then -x.toInt else x.toInt) = x.toInt.natAbs := by omega
  rw [cAbs, habs, result]
  split
  · next h =>
    rw [if_pos (by_contra fun hne => h.2 ?_)]
    change -2 ^ 31 ≤ _ ∧ _ < 2 ^ 31
    omega
  · next h =>
    have hfits : CIntType.int.Fits x.toInt.natAbs := by
      by_contra hnot
      exact h ⟨rfl, hnot⟩
    have hne : x.toInt ≠ -2 ^ 31 := by
      intro heq
      rw [heq] at hfits
      exact absurd hfits (by decide)
    rw [if_neg hne, CIntType.convert_of_fits (by decide) hfits]

/-- Within the range of `int` it is the absolute value. -/
theorem absBits_of_small {w : Nat} (hw : 32 ≤ w) {x : BitVec w} (hge : -2 ^ 31 ≤ x.toInt)
    (hlt : x.toInt < 2 ^ 31) : (absBits x).toNat = x.toInt.natAbs := by
  have hpow : (2 : Nat) ^ 32 ≤ 2 ^ w := Nat.pow_le_pow_right (by decide) hw
  have hshift : (x.sshiftRight 31).toInt = x.toInt / 2 ^ 31 := by
    rw [BitVec.toInt_sshiftRight, Int.shiftRight_eq_div_pow]
    rfl
  have hcond := BitVec.toInt_eq_toNat_cond x
  by_cases hneg : x.toInt < 0
  · have hones : x.sshiftRight 31 = BitVec.allOnes w := by
      apply BitVec.eq_of_toInt_eq
      rw [hshift, BitVec.toInt_allOnes, if_pos (by omega)]
      omega
    have hpos : 0 < x.toNat := by
      by_contra hzero
      rw [if_pos (by omega)] at hcond
      omega
    have hx := x.isLt
    rw [absBits, hones, BitVec.xor_allOnes, BitVec.toNat_sub, BitVec.toNat_not,
      BitVec.toNat_allOnes, Nat.mod_eq_of_lt (by omega)]
    split at hcond <;> omega
  · have hzero : x.sshiftRight 31 = 0 := by
      apply BitVec.eq_of_toInt_eq
      rw [hshift]
      simp
      omega
    rw [absBits, hzero]
    simp
    omega

theorem le_xor_add (m n : Nat) : m ≤ (m ^^^ n) + n := by
  have h := xor_le_add (m ^^^ n) n
  rwa [Nat.xor_assoc, Nat.xor_self, Nat.xor_zero] at h

theorem absBits_of_lt {x : BitVec 64} (h : x.toInt < -2 ^ 31) : 2 ^ 31 ≤ (absBits x).toNat := by
  have hcond := BitVec.toInt_eq_toNat_cond x
  have hmsb : x.msb = true := BitVec.msb_eq_true_iff_two_mul_ge.2 (by split at hcond <;> omega)
  have hshift := BitVec.sshiftRight_eq_of_msb_true (s := 31) hmsb
  have hy : (~~~x).toNat = 2 ^ 64 - 1 - x.toNat := BitVec.toNat_not
  have hxor : x ^^^ ~~~(~~~x >>> 31) = ~~~x ^^^ (~~~x >>> 31) := by
    rw [← BitVec.not_xor_left, ← BitVec.not_xor_right]
  rw [absBits, hshift, hxor, BitVec.toNat_sub, BitVec.toNat_not, BitVec.toNat_xor,
    BitVec.toNat_ushiftRight, Nat.shiftRight_eq_div_pow]
  have hlow : (~~~x).toNat < 2 ^ 63 := by split at hcond <;> omega
  have hup : 2 ^ 31 ≤ (~~~x).toNat := by split at hcond <;> omega
  have hle := le_xor_add (~~~x).toNat ((~~~x).toNat / 2 ^ 31)
  have hlt : (~~~x).toNat ^^^ (~~~x).toNat / 2 ^ 31 < 2 ^ 63 :=
    Nat.xor_lt_two_pow hlow (by omega)
  rw [Nat.mod_eq_of_lt (by omega)]
  omega

/-- Beyond the range it comes back into it for one number. -/
theorem absBits_of_ge {x : BitVec 64} (h : 2 ^ 31 ≤ x.toInt) (hlt : (absBits x).toNat < 2 ^ 31) :
    x.toInt = 2 ^ 31 + 1 := by
  have hcond := BitVec.toInt_eq_toNat_cond x
  have hmsb : x.msb = false := BitVec.msb_eq_false_iff_two_mul_lt.2 (by
    have := x.isLt
    split at hcond <;> omega)
  have hint := BitVec.toInt_eq_toNat_of_msb hmsb
  rw [absBits, BitVec.sshiftRight_eq_of_msb_false hmsb, BitVec.toNat_sub, BitVec.toNat_xor,
    BitVec.toNat_ushiftRight, Nat.shiftRight_eq_div_pow] at hlt
  have hx := x.isLt
  generalize x.toNat = n at *
  have hle := le_xor_add n (n / 2 ^ 31)
  have hxor : n ^^^ n / 2 ^ 31 < 2 ^ 64 := Nat.xor_lt_two_pow hx (by omega)
  rw [show 2 ^ 64 - n / 2 ^ 31 + (n ^^^ n / 2 ^ 31) =
    2 ^ 64 + ((n ^^^ n / 2 ^ 31) - n / 2 ^ 31) by omega, Nat.add_mod_left,
    Nat.mod_eq_of_lt (by omega)] at hlt
  have hone : n / 2 ^ 31 = 1 := by omega
  rw [hone] at hlt hle
  by_contra hne
  obtain rfl : n = 2 ^ 31 := by omega
  exact absurd hlt (by decide)

theorem denotes_natCast_iff (x : IntN) (n : Nat) : x.Denotes n ↔ x.bits.toNat = n := by
  have hcond := BitVec.toInt_eq_toNat_cond x.bits
  have hlt := x.bits.isLt
  unfold IntN.Denotes
  split at hcond <;> omega

theorem abs_long_iff (x : BitVec 64) :
    SameValue (cAbs (x.setWidth 32).toInt) (some ⟨64, 64, absBits x⟩) ↔
      (-2 ^ 31 < x.toInt ∧ x.toInt < 2 ^ 31) ∨ x.toInt = 2 ^ 31 + 1 := by
  have hlow : (x.setWidth 32).toInt < 2 ^ 31 := BitVec.toInt_lt
  have hlow' : -2 ^ 31 ≤ (x.setWidth 32).toInt := BitVec.le_toInt _
  have hkeep : -2 ^ 31 ≤ x.toInt → x.toInt < 2 ^ 31 → (x.setWidth 32).toInt = x.toInt := by
    intro hge hlt
    have hcond := BitVec.toInt_eq_toNat_cond x
    rw [BitVec.toInt_setWidth, Int.bmod_def]
    split at hcond <;> split <;> omega
  rw [cAbs_word]
  constructor
  · intro hsame
    split at hsame
    · exact absurd hsame (not_sameValue_none _)
    · next hne =>
      have hbits := (denotes_natCast_iff _ _).1 ((sameValue_iff _ _ ⟨64, absBits x⟩).1 hsame)
      dsimp only at hbits
      by_cases hlt : x.toInt < -2 ^ 31
      · have := absBits_of_lt hlt
        omega
      · by_cases hge : 2 ^ 31 ≤ x.toInt
        · exact .inr (absBits_of_ge hge (by omega))
        · have := hkeep (by omega) (by omega)
          omega
  · rintro (⟨hge, hlt⟩ | hone)
    · rw [hkeep (by omega) hlt, if_neg (by omega)]
      refine (sameValue_iff _ _ ⟨64, absBits x⟩).2 ((denotes_natCast_iff _ _).2 ?_)
      exact absBits_of_small (w := 64) (by decide) (by omega) hlt
    · obtain rfl : x = 0x80000001 := BitVec.eq_of_toInt_eq (by rw [hone]; decide)
      exact (sameValue_iff .int (2 ^ 31 - 1) ⟨64, absBits 0x80000001⟩).2 (by decide)

/-- `ABS` of a word. -/
theorem abs_word_iff (x : BitVec 32) :
    SameValue (cAbs x.toInt) (some ⟨32, 32, absBits x⟩) ↔
      (-2 ^ 31 < x.toInt ∧ x.toInt < 2 ^ 31) ∨ x.toInt = 2 ^ 31 + 1 := by
  have hlt : x.toInt < 2 ^ 31 := BitVec.toInt_lt
  have hge : -2 ^ 31 ≤ x.toInt := x.le_toInt
  rw [cAbs_word]
  split
  · exact iff_of_false (not_sameValue_none _) (by omega)
  · refine iff_of_true ((sameValue_iff _ _ ⟨32, absBits x⟩).2 ((denotes_natCast_iff _ _).2 ?_))
      (by omega)
    exact absBits_of_small (Nat.le_refl 32) hge hlt

end Abs

theorem abs_iff {charSigned : Bool} {ka kb : ArgKind} (a : BitVec ka.width) (b : BitVec kb.width)
    (flag flag' : Bool) :
    SameValue (cAbs (cWord charSigned ka a).toInt)
      (genHirBuiltin .abs ⟨ka.width, a⟩ ⟨kb.width, b⟩ flag flag') ↔
        callAlike charSigned .abs a b := by
  have hkept (hne : ka ≠ .int .char) : cWord charSigned ka a = lowWord a :=
    cWord_of_kept (by simp [signLost, hne])
  have hword (x : BitVec 32) : x.setWidth 32 = x := BitVec.setWidth_eq x
  rcases ka with (_ | _ | _ | _ | _) | _ | _
  case int.char =>
    refine iff_of_false ?_ fun h => h.1 rfl
    rintro ⟨t, v, x, -, hnone, -⟩
    exact nomatch hnone
  case int.longInt =>
    rw [hkept (by decide)]
    exact (abs_long_iff a).trans (and_iff_right (by decide)).symm
  case int.longCard =>
    rw [hkept (by decide)]
    exact (abs_long_iff a).trans (and_iff_right (by decide)).symm
  all_goals
    rw [hkept (by decide), show lowWord a = a from hword a]
    exact (abs_word_iff a).trans (and_iff_right (by decide)).symm

/-! ## Calls -/

section Call

variable {reg : TypeRegistry} {depth n : Nat} {tid : TypeId} {charSigned : Bool}

theorem isUnsignedType_of_kept (h : reg.KeptAs n tid (.int .char)) (hdepth : n < depth) :
    reg.isUnsignedType depth tid = true := by
  obtain ⟨t, hchain, hkind⟩ := h
  have hchar : reg.get t = .char := by
    revert hkind
    unfold RegType.argKind
    split <;> simp_all
  induction n generalizing tid depth with
  | zero =>
    obtain ⟨d, rfl⟩ : ∃ d, depth = d + 1 := ⟨depth - 1, by omega⟩
    rw [hchain.eq_of_zero, TypeRegistry.isUnsignedType, hchar]
  | succ n ih =>
    obtain ⟨d, rfl⟩ : ∃ d, depth = d + 1 := ⟨depth - 1, by omega⟩
    cases hchain with
    | step halias hrest =>
      rw [TypeRegistry.isUnsignedType, halias]
      exact ih (by omega) hrest

/-- A small count is the same number everywhere. -/
theorem count_of_small {k : ArgKind} {b : BitVec k.width} (h : b.toNat < 32) :
    k.cNum charSigned b = b.toNat ∧ (lowWord b).toNat = b.toNat := by
  have hwidth : 8 ≤ k.width := by rcases k with (_ | _ | _ | _ | _) | _ | _ <;> decide
  have hpow : 2 ^ 8 ≤ 2 ^ k.width := Nat.pow_le_pow_right (by decide) hwidth
  have hint : b.toInt = b.toNat := BitVec.toInt_eq_toNat_of_lt (by omega)
  constructor
  · unfold ArgKind.cNum IntN.num
    split
    · exact hint
    · rfl
  · rw [lowWord, BitVec.toNat_setWidth]
    exact Nat.mod_eq_of_lt (by omega)

/-- A count below 32 is not negative in C. -/
theorem cWord_of_count {k : ArgKind} {b : BitVec k.width} (h : (lowWord b).toNat < 32) :
    (cWord charSigned k b).toInt = (lowWord b).toNat := by
  have hkept : signLost charSigned k b = false := by
    by_contra hlost
    have hlost : signLost charSigned k b = true := by simpa using hlost
    simp only [signLost, Bool.and_eq_true, beq_iff_eq, decide_eq_true_eq] at hlost
    obtain ⟨⟨-, rfl⟩, hge⟩ := hlost
    have hlow : (lowWord b).toNat = b.toNat := by
      rw [lowWord, BitVec.toNat_setWidth]
      exact Nat.mod_eq_of_lt (Nat.lt_trans b.isLt (by decide))
    omega
  rw [cWord_of_kept hkept]
  exact BitVec.toInt_eq_toNat_of_lt (by omega)

/-- Counts of a rotation are taken modulo 32. -/
theorem fshl_count {k : ArgKind} (b : BitVec k.width) (x : BitVec 32) :
    fshl x x (cWord charSigned k b) = fshl x x (lowWord b) := by
  have hmod : (cWord charSigned k b).toNat % 32 = (lowWord b).toNat % 32 := by
    cases hlost : signLost charSigned k b with
    | false => rw [cWord_of_kept hlost]
    | true =>
      rw [cWord_of_lost hlost]
      simp only [signLost, Bool.and_eq_true, beq_iff_eq] at hlost
      obtain ⟨⟨-, rfl⟩, -⟩ := hlost
      have hall : ∀ b : BitVec 8, (b.setWidth 32 ||| upper).toNat % 32 =
          (b.setWidth 32).toNat % 32 := by
        decide +kernel
      exact hall b
  rw [fshl, fshl, hmod]

end Call

/-- A call of a builtin on integers, with arguments of any types that are kept as integers and
counts below 32 for `SHL` and `SHR`, has the same value in both backends just if they compute it
alike. -/
theorem builtinAgrees_iff (g : CodeGen) {reg : TypeRegistry} {na nb depth : Nat} {ta tb : TypeId}
    {ka kb : ArgKind} (charSigned : Bool) (op : IntBuiltin) (ha : reg.KeptAs na ta ka)
    (hb : reg.KeptAs nb tb kb) (hda : na < depth) (hdb : nb < depth) (a : BitVec ka.width)
    (b : BitVec kb.width) (hcount : op = .shl ∨ op = .shr → b.toNat < 32) :
    BuiltinAgrees g reg depth charSigned op ta tb a b ↔ callAlike charSigned op a b := by
  have hflagA : ka = .int .char → reg.isUnsignedType depth ta = true := by
    rintro rfl
    exact isUnsignedType_of_kept ha hda
  have hflagB : kb = .int .char → reg.isUnsignedType depth tb = true := by
    rintro rfl
    exact isUnsignedType_of_kept hb hdb
  unfold BuiltinAgrees ArgKind.cValue
  cases op with
  | abs =>
    rw [cBuiltin_abs, convert_int]
    exact abs_iff a b _ _
  | cap =>
    rw [cBuiltin_cap, convert_int, genHirBuiltin, coerce_eq_lowWord hflagA]
    exact cap_iff a b
  | odd =>
    rw [cBuiltin_odd, genHirBuiltin]
    exact odd_iff a b
  | band =>
    rw [cBuiltin_band, genHirBuiltin, coerce_eq_lowWord hflagA, coerce_eq_lowWord hflagB]
    exact (iff_of_eq (congrArg (SameValue · _) (bitwise_uint _ _ _))).trans
      ((sameValue_words _ _).trans (band_iff a b))
  | bor =>
    rw [cBuiltin_bor, genHirBuiltin, coerce_eq_lowWord hflagA, coerce_eq_lowWord hflagB]
    exact (iff_of_eq (congrArg (SameValue · _) (bitwise_uint _ _ _))).trans
      ((sameValue_words _ _).trans (bor_iff a b))
  | bxor =>
    rw [cBuiltin_bxor, genHirBuiltin, coerce_eq_lowWord hflagA, coerce_eq_lowWord hflagB]
    exact (iff_of_eq (congrArg (SameValue · _) (bitwise_uint _ _ _))).trans
      ((sameValue_words _ _).trans (bxor_iff a b))
  | bnot =>
    rw [cBuiltin_bnot, compl_uint, genHirBuiltin, coerce_eq_lowWord hflagA]
    exact (sameValue_words _ _).trans ((BitVec.xor_left_inj _).trans (cWord_eq_iff a))
  | shl =>
    have hlt := hcount (.inl rfl)
    obtain ⟨hnum, hlow⟩ : kb.cNum charSigned b = b.toNat ∧ (lowWord b).toNat = b.toNat :=
      count_of_small hlt
    rw [cBuiltin_shl, hnum, arith_shl_uint _ _ hlt, genHirBuiltin, coerce_eq_lowWord hflagA,
      coerce_eq_lowWord hflagB]
    simp only [callAlike]
    rw [shiftBy, hlow, if_pos hlt]
    exact (sameValue_words _ _).trans (shiftLeft_iff a hlt)
  | shr =>
    have hlt := hcount (.inr rfl)
    obtain ⟨hnum, hlow⟩ : kb.cNum charSigned b = b.toNat ∧ (lowWord b).toNat = b.toNat :=
      count_of_small hlt
    rw [cBuiltin_shr, hnum, arith_shr_uint _ _ hlt, genHirBuiltin, coerce_eq_lowWord hflagA,
      coerce_eq_lowWord hflagB, shiftBy, hlow, if_pos hlt]
    exact (sameValue_words _ _).trans (ushiftRight_iff a hlt)
  | shift =>
    rw [cBuiltin_shift, wordCall_uint, genHirBuiltin, coerce_eq_lowWord hflagA,
      coerce_eq_lowWord hflagB]
    simp only [callAlike]
    by_cases hlt : (lowWord b).toNat < 32
    · have hword : (cWord charSigned kb b).toInt = (lowWord b).toNat := cWord_of_count hlt
      rw [cWord] at hword
      rw [hword, m2Shift_of_lt _ hlt, shiftBy, if_pos hlt]
      exact (sameValue_words _ _).trans ((shiftLeft_iff a hlt).trans (and_iff_right hlt).symm)
    · rw [shiftBy, if_neg hlt]
      refine iff_of_false ?_ fun h => hlt h.1
      rintro ⟨t, v, x, -, hnone, -⟩
      exact nomatch hnone
  | rotate =>
    have hcount : fshl (lowWord a) (lowWord a) (cWord charSigned kb b) =
        fshl (lowWord a) (lowWord a) (lowWord b) := fshl_count b _
    rw [cBuiltin_rotate, wordCall_uint, m2Rotate_eq, genHirBuiltin, coerce_eq_lowWord hflagA,
      coerce_eq_lowWord hflagB, ← hcount]
    exact (sameValue_words _ _).trans (fshl_iff a _)

/-- A registry with an alias of `CHAR`. -/
def charAlias : TypeRegistry := ⟨[.alias "T" tyChar]⟩

/-- A character as an argument. -/
def charArg (n : Nat) : BitVec (ArgKind.int .char).width := BitVec.ofNat 8 n

/-- `CAP` of a letter, of a type that is an alias of `CHAR`. -/
theorem builtinAgrees_cap_letter :
    charAlias.KeptAs 1 20 (.int .char) ∧
      BuiltinAgrees CodeGen.plain charAlias 2 true .cap 20 tyChar (charArg 97) (charArg 0) := by
  have hkept : charAlias.KeptAs 1 20 (.int .char) := ⟨tyChar, .step rfl (.refl _), rfl⟩
  have hkept' : charAlias.KeptAs 0 tyChar (.int .char) := ⟨tyChar, .refl _, rfl⟩
  exact ⟨hkept, (builtinAgrees_iff _ true .cap hkept hkept' (by decide) (by decide) _ _
    (by decide)).2 (by decide)⟩

/-- `CAP` of a digit is the digit in C and a control character for LLVM. -/
theorem not_builtinAgrees_cap_digit :
    ¬ ∀ (g : CodeGen) (reg : TypeRegistry) (na nb depth : Nat) (ta tb : TypeId) (ka kb : ArgKind)
      (charSigned : Bool) (op : IntBuiltin) (a : BitVec ka.width) (b : BitVec kb.width),
        reg.KeptAs na ta ka → reg.KeptAs nb tb kb → na < depth → nb < depth →
        (op = .shl ∨ op = .shr → b.toNat < 32) →
        BuiltinAgrees g reg depth charSigned op ta tb a b := by
  intro h
  have hkept : charAlias.KeptAs 0 tyChar (.int .char) := ⟨tyChar, .refl _, rfl⟩
  obtain ⟨t, v, x, hc, hl, hdenotes⟩ := h CodeGen.plain charAlias 0 0 1 tyChar tyChar _ _ false .cap
    (charArg 49) (charArg 0) hkept hkept (by decide) (by decide) (by decide)
  have hc' : cBuiltin CodeGen.plain .cap (ArgKind.cValue false (.int .char) (charArg 49))
      (ArgKind.cValue false (.int .char) (charArg 0)) = some (.int .int 49) := rfl
  have hl' : (genHirBuiltin .cap ⟨8, charArg 49⟩ ⟨8, charArg 0⟩ true true).bind Val.used =
      some ⟨32, 17⟩ := by decide
  cases hc.symm.trans hc'
  cases hl.symm.trans hl'
  exact absurd hdenotes (by decide)

end Mx

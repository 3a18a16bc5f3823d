import Mx.Http2.HpackSync

/-!
# Integers of any length

The value that the bytes of an integer denote, without a bound, and what `DecodeInt` makes of it.
The multiplier of the decoder is reduced with the same modulus as the result, so that it is zero
after five continuation bytes and its guard never stops a long integer.
-/

namespace Mx.Http2

open Mx.Core List

/-! ## What the bytes denote -/

/-- The number that continuation bytes denote, the least significant first, and how many they are.
The last of them is the first below 128. -/
def continuation : List UInt8 → Option (Nat × Nat)
  | [] => none
  | b :: bs =>
    if b.toNat < 128 then some (b.toNat, 1)
    else (continuation bs).map fun r => (b.toNat % 128 + 128 * r.1, r.2 + 1)

/-- The integer that a prefix and the bytes behind it denote, and how many of these belong to it. -/
def denoted (prefixBits first : Nat) (bs : List UInt8) : Option (Nat × Nat) :=
  if first < 2 ^ prefixBits - 1 then some (first, 0)
  else (continuation bs).map fun r => (2 ^ prefixBits - 1 + r.1, r.2)

/-! ## What `DecodeInt` returns -/

section Decode

variable {prefixBits first : Nat} {v : List UInt8} {pos : Nat}

theorem prefixMax_eq (hlo : 1 ≤ prefixBits) (hhi : prefixBits ≤ 8) :
    prefixMax prefixBits = 2 ^ prefixBits - 1 := by
  have hall : ∀ p < 9, 1 ≤ p → prefixMax p = 2 ^ p - 1 := by decide
  exact hall prefixBits (Nat.lt_succ_of_le hhi) hlo

/-- The multipliers of `DecodeInt`: the powers of 128 as a CARDINAL holds them. -/
def Multiplier (mult : Nat) : Prop := IsMult mult ∨ mult = 0

theorem Multiplier.next {mult : Nat} (h : Multiplier mult) :
    Multiplier (card (mult * 128)) ∧ card (mult * 128) ≤ 268435456 := by
  unfold Multiplier IsMult card
  obtain (rfl | rfl | rfl | rfl | rfl) | rfl := h
  all_goals refine ⟨?_, ?_⟩ <;> omega

theorem card_add_mul (result digit mult n : Nat) :
    card (card (result + card (digit * mult)) + n * card (mult * 128)) =
      card (result + (digit + 128 * n) * mult) := by
  unfold card
  have hsum : result + (digit + 128 * n) * mult = result + digit * mult + n * (mult * 128) := by
    rw [Nat.add_mul, Nat.mul_comm 128 n, Nat.mul_assoc, Nat.mul_comm 128 mult, Nat.add_assoc]
  rw [hsum, Nat.add_mod (_ % _), Nat.mod_mod, Nat.add_mod result, Nat.mod_mod, ← Nat.add_mod result,
    Nat.mul_mod n, Nat.mod_mod, ← Nat.mul_mod, ← Nat.add_mod]

/-- The loop adds up what the continuation bytes denote, and no overflow stops it. -/
theorem decodeIntLoop_eq (fuel : Nat) {result mult : Nat} (hmult : Multiplier mult)
    (hfuel : v.length - pos < fuel) :
    decodeIntLoop fuel result mult v pos =
      match continuation (v.drop pos) with
      | none => .error .notOk
      | some (n, k) => .ok (card (result + n * mult), pos + k) := by
  induction fuel generalizing result mult pos with
  | zero => exact absurd hfuel (Nat.not_lt_zero _)
  | succ fuel ih =>
    rw [decodeIntLoop_succ]
    by_cases hpos : pos < v.length
    · obtain ⟨hmult', hguard⟩ := hmult.next
      have hbyte : viewGetByte v pos = v[pos].toNat := by
        rw [viewGetByte, getD_eq_getElem?_getD, getElem?_eq_getElem hpos, Option.getD_some]
      rw [if_neg (Nat.not_le.mpr hpos), hbyte, drop_eq_getElem_cons hpos, continuation]
      by_cases hlast : v[pos].toNat < 128
      · rw [if_pos hlast, if_pos hlast, Nat.mod_eq_of_lt hlast]
        have hadd := card_add_mul result v[pos].toNat mult 0
        rw [Nat.zero_mul, Nat.add_zero, Nat.mul_zero, Nat.add_zero] at hadd
        have hcard : ∀ n, card (card n) = card n := fun n => Nat.mod_mod _ _
        rw [hcard] at hadd
        simp only [hadd]
      · rw [if_neg hlast, if_neg hlast, if_neg (Nat.not_lt.mpr hguard), ih hmult' (by omega)]
        cases continuation (v.drop (pos + 1)) with
        | none => rfl
        | some r => simp only [Option.map_some, card_add_mul, Nat.add_assoc, Nat.add_comm 1]
    · rw [if_pos (Nat.not_lt.mp hpos), drop_eq_nil_of_le (Nat.not_lt.mp hpos)]
      rfl

/-- `DecodeInt` returns what the bytes denote, modulo `2^32`. -/
theorem decodeInt_eq (hlo : 1 ≤ prefixBits) (hhi : prefixBits ≤ 8) :
    decodeInt first prefixBits v pos =
      match denoted prefixBits first (v.drop pos) with
      | none => .error .notOk
      | some (n, k) => .ok (card n, pos + k) := by
  have hpow : 2 ^ prefixBits ≤ 256 := Nat.pow_le_pow_right (by decide) hhi
  rw [decodeInt, denoted, prefixMax_eq hlo hhi]
  split
  · have hcard : card first = first := card_of_lt (by omega)
    simp only [hcard, Nat.add_zero]
  · rw [decodeIntLoop_eq _ (.inl (.inl rfl)) (by omega)]
    cases continuation (v.drop pos) with
    | none => rfl
    | some r => simp only [Option.map_some, Nat.mul_one]

theorem continuation_length {bs : List UInt8} {n k : Nat} (h : continuation bs = some (n, k)) :
    k ≤ bs.length := by
  induction bs generalizing n k with
  | nil => cases h
  | cons b bs ih =>
    rw [continuation] at h
    split at h
    · cases h
      exact Nat.succ_pos _
    · obtain ⟨r, hr, hrk⟩ := Option.map_eq_some_iff.mp h
      cases hrk
      exact Nat.succ_le_succ (ih hr)

theorem denoted_length {bs : List UInt8} {n k : Nat}
    (h : denoted prefixBits first bs = some (n, k)) :
    k ≤ bs.length := by
  rw [denoted] at h
  split at h
  · cases h
    exact Nat.zero_le _
  · obtain ⟨r, hr, hrk⟩ := Option.map_eq_some_iff.mp h
    cases hrk
    exact continuation_length hr

end Decode

/-! ## Exact integers -/

/-- What `EncodeInt` appends, behind whatever a buffer with room for it holds and in front of
whatever follows, is read as the value by `DecodeInt`, which stops behind it. -/
def RoundTrips (prefixBits value mask : Nat) : Prop :=
  ∀ (b : Buf) (rest : List UInt8),
    b.bytes.length + (intRest value prefixBits).length < maxBufCap →
      decodeInt (viewGetByte (encodeInt b value prefixBits mask).bytes b.bytes.length %
          2 ^ prefixBits) prefixBits ((encodeInt b value prefixBits mask).bytes ++ rest)
          (b.bytes.length + 1) =
        .ok (value, (encodeInt b value prefixBits mask).bytes.length)

/-- `DecodeInt` ends, inside the view, and what it returns is what the bytes denote. -/
structure DecodesExactly (prefixBits first : Nat) (v : List UInt8) (pos : Nat) : Prop where
  ends : ∀ fuel, v.length - pos < fuel →
    decodeIntLoop fuel (prefixMax prefixBits) 1 v pos =
      decodeIntLoop (v.length + 1) (prefixMax prefixBits) 1 v pos
  inside : ∀ n pos', decodeInt first prefixBits v pos = .ok (n, pos') → pos' ≤ v.length
  exact : ∀ n pos', decodeInt first prefixBits v pos = .ok (n, pos') →
    n < 4294967296 ∧ denoted prefixBits first (v.drop pos) = some (n, pos' - pos)

section Exact

variable {prefixBits : Nat}

theorem encodeInt_bytes {b : Buf} {value mask : Nat}
    (h : b.bytes.length + (intRest value prefixBits).length < maxBufCap) :
    (encodeInt b value prefixBits mask).bytes =
      b.bytes ++ UInt8.ofNat (mask + intFirst value prefixBits) ::
        wire (intRest value prefixBits) :=
  Buf.appendBytes_of_le h

/-- The first byte without the bits above the prefix. -/
theorem first_mod (hhi : prefixBits ≤ 8) (front rest : List UInt8) (x : Nat) :
    viewGetByte (front ++ UInt8.ofNat x :: rest) front.length % 2 ^ prefixBits =
      x % 2 ^ prefixBits := by
  have hdvd : 2 ^ prefixBits ∣ 256 := Nat.pow_dvd_pow 2 hhi
  rw [viewGetByte_append, UInt8.toNat_ofNat']
  exact Nat.mod_mod_of_dvd x hdvd

theorem intFirst_lt (hlo : 1 ≤ prefixBits) (hhi : prefixBits ≤ 8) (value : Nat) :
    intFirst value prefixBits < 2 ^ prefixBits := by
  have hpos : 0 < 2 ^ prefixBits := Nat.two_pow_pos _
  rw [intFirst, prefixMax_eq hlo hhi]
  omega

theorem intTail_length (fuel : Nat) {val k : Nat} (h : val < 128 ^ (k + 1)) :
    (intTail fuel val).length ≤ k + 1 := by
  induction fuel generalizing val k with
  | zero => exact Nat.succ_pos k
  | succ fuel ih =>
    rw [intTail]
    split
    · next hval =>
      cases k with
      | zero => omega
      | succ k =>
        have hdiv : val / 128 < 128 ^ (k + 1) :=
          Nat.div_lt_of_lt_mul (Nat.pow_succ' ▸ h)
        exact Nat.succ_le_succ (ih hdiv)
    · exact Nat.succ_pos k

theorem add_mod_eq_iff {mask x m : Nat} (hx : x < m) : (mask + x) % m = x ↔ mask % m = 0 := by
  have hr : mask % m < m := Nat.mod_lt _ (Nat.zero_lt_of_lt hx)
  rw [Nat.add_mod, Nat.mod_eq_of_lt hx]
  constructor
  · intro h
    by_cases hsum : mask % m + x < m
    · rw [Nat.mod_eq_of_lt hsum] at h
      omega
    · rw [Nat.mod_eq_sub_mod (Nat.not_lt.mp hsum), Nat.mod_eq_of_lt (by omega)] at h
      omega
  · intro h
    rw [h, Nat.zero_add, Nat.mod_eq_of_lt hx]

theorem roundTrips_of_mask (hlo : 1 ≤ prefixBits) (hhi : prefixBits ≤ 8) {value mask : Nat}
    (hvalue : value < 4294967296) (hmask : mask % 2 ^ prefixBits = 0) :
    RoundTrips prefixBits value mask := by
  intro b rest hroom
  have hfirst := (add_mod_eq_iff (intFirst_lt hlo hhi value)).mpr hmask
  have hreads := (reads_decodeInt _ prefixBits hvalue).whole
    (b.bytes ++ [UInt8.ofNat (mask + intFirst value prefixBits)]) rest le_rfl
  rw [encodeInt_bytes hroom, first_mod hhi, hfirst]
  simpa using hreads

/-- With a mask that reaches into the prefix a value is not read as it was written. -/
theorem mask_of_roundTrips (hlo : 1 ≤ prefixBits) (hhi : prefixBits ≤ 8) {value mask : Nat}
    (hvalue : value < 4294967296) (h : RoundTrips prefixBits value mask) :
    mask % 2 ^ prefixBits = 0 := by
  have hlt := intFirst_lt hlo hhi value
  have hmax := prefixMax_eq hlo hhi
  have hpow : 2 ^ prefixBits ≤ 256 := Nat.pow_le_pow_right (by decide) hhi
  have hroom : Buf.empty.bytes.length + (intRest value prefixBits).length < maxBufCap := by
    have hlength : (intRest value prefixBits).length ≤ 5 := by
      rw [intRest]
      split
      · exact Nat.zero_le 5
      · exact intTail_length (k := 4) _ (by omega)
    have hcap : maxBufCap = 10485760 := rfl
    have hempty : Buf.empty.bytes.length = 0 := rfl
    omega
  have hread := h Buf.empty [] hroom
  refine (add_mod_eq_iff hlt).mp ?_
  rw [encodeInt_bytes hroom, first_mod hhi, decodeInt_eq hlo hhi, denoted] at hread
  have hfirst : (mask + intFirst value prefixBits) % 2 ^ prefixBits < 2 ^ prefixBits :=
    Nat.mod_lt _ (Nat.two_pow_pos _)
  generalize (mask + intFirst value prefixBits) % 2 ^ prefixBits = first at hread hfirst ⊢
  have hmin : intFirst value prefixBits = min value (2 ^ prefixBits - 1) := by rw [intFirst, hmax]
  by_cases hsmall : first < 2 ^ prefixBits - 1
  · rw [if_pos hsmall] at hread
    have hcard : card first = first := card_of_lt (by omega)
    simp only [hcard] at hread
    have hvalue : first = value := congrArg Prod.fst (Except.ok.inj hread)
    omega
  · rw [if_neg hsmall] at hread
    by_contra hne
    have hless : value < prefixMax prefixBits := by omega
    rw [intRest, if_pos hless] at hread
    cases hread

/-- The value is exact if and only if it is below `2^32`. -/
theorem decodesExactly_iff_fits (hlo : 1 ≤ prefixBits) (hhi : prefixBits ≤ 8) {first : Nat}
    {v : List UInt8} {pos : Nat} (hpos : pos ≤ v.length) :
    DecodesExactly prefixBits first v pos ↔
      ∀ n k, denoted prefixBits first (v.drop pos) = some (n, k) → n < 4294967296 := by
  constructor
  · intro h n k hden
    have hdec : decodeInt first prefixBits v pos = .ok (card n, pos + k) := by
      rw [decodeInt_eq hlo hhi, hden]
    obtain ⟨hlt, hsame⟩ := h.exact _ _ hdec
    rw [hden] at hsame
    have hcard : n = card n := congrArg Prod.fst (Option.some.inj hsame)
    omega
  · intro h
    have hdec : ∀ n pos', decodeInt first prefixBits v pos = .ok (n, pos') → ∃ k,
        denoted prefixBits first (v.drop pos) = some (n, k) ∧ pos' = pos + k := by
      intro n pos' hok
      rw [decodeInt_eq hlo hhi] at hok
      cases hden : denoted prefixBits first (v.drop pos) with
      | none =>
        rw [hden] at hok
        cases hok
      | some r =>
        rw [hden] at hok
        cases hok
        refine ⟨r.2, ?_, rfl⟩
        rw [card_of_lt (h r.1 r.2 hden)]
    constructor
    · intro fuel hfuel
      rw [decodeIntLoop_eq fuel (.inl (.inl rfl)) hfuel,
        decodeIntLoop_eq _ (.inl (.inl rfl)) (by omega)]
    · intro n pos' hok
      obtain ⟨k, hden, rfl⟩ := hdec n pos' hok
      have hlength := denoted_length hden
      rw [length_drop] at hlength
      omega
    · intro n pos' hok
      obtain ⟨k, hden, rfl⟩ := hdec n pos' hok
      rw [Nat.add_sub_cancel_left]
      exact ⟨h n k hden, hden⟩

end Exact

/-- A value is read as it was written if and only if the mask stays above the prefix, and any bytes
are read as what they denote if and only if that is below `2^32` or nothing. -/
theorem ints_exact_iff (prefixBits : Nat) (hlo : 1 ≤ prefixBits) (hhi : prefixBits ≤ 8) :
    (∀ value mask, value < 4294967296 →
      (RoundTrips prefixBits value mask ↔ mask % 2 ^ prefixBits = 0)) ∧
    ∀ first v pos, first < 2 ^ prefixBits → pos ≤ v.length →
      (DecodesExactly prefixBits first v pos ↔
        ∀ n k, denoted prefixBits first (v.drop pos) = some (n, k) → n < 4294967296) :=
  ⟨fun _ _ hvalue => ⟨mask_of_roundTrips hlo hhi hvalue, roundTrips_of_mask hlo hhi hvalue⟩,
    fun _ _ _ _ hpos => decodesExactly_iff_fits hlo hhi hpos⟩

theorem ints_exact_iff_five :
    (∀ value mask, value < 4294967296 → (RoundTrips 5 value mask ↔ mask % 2 ^ 5 = 0)) ∧
    ∀ first v pos, first < 2 ^ 5 → pos ≤ v.length → (DecodesExactly 5 first v pos ↔
      ∀ n k, denoted 5 first (v.drop pos) = some (n, k) → n < 4294967296) :=
  ints_exact_iff 5 (by decide) (by decide)

/-- A length of `2^33 + 30` is accepted as 30. -/
theorem decodeInt_wraps :
    decodeInt 31 5 [255, 255, 255, 255, 31] 0 = .ok (30, 5) ∧
      denoted 5 31 [255, 255, 255, 255, 31] = some (8589934622, 5) ∧
      ¬DecodesExactly 5 31 [255, 255, 255, 255, 31] 0 := by
  have hdec : decodeInt 31 5 [255, 255, 255, 255, 31] 0 = .ok (30, 5) := by decide
  have hden : denoted 5 31 [255, 255, 255, 255, 31] = some (8589934622, 5) := by decide
  refine ⟨hdec, hden, fun h => ?_⟩
  have hsame := (h.exact 30 5 hdec).2
  rw [drop_zero, hden] at hsame
  exact absurd hsame (by decide)

end Mx.Http2

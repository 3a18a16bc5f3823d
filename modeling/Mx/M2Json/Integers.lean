import Mx.M2Json.Tokens

/-!
# The integers of `m2json`

`GetInteger` and `GetLong` add up the digits of a number token in 32 and in 64 bits. They are exact
for the tokens whose integer is in the range, and wrap around for all others without a fraction.
-/

namespace Mx.M2Json

open Strings List
open Pkg (isDigit)

/-- Two's complement of so many bits. -/
def wrap (bits : Nat) (x : Int) : Int := x.bmod (2 ^ bits)

/-- The loop that adds up the digits. -/
def addDigits (bits : Nat) : Text → Int → Option Int
  | [], result => some result
  | ch :: cs, result =>
    if isDigit ch then addDigits bits cs (wrap bits (wrap bits (result * 10) + (ch.toNat - 48)))
    else none

/-- A decimal point or an exponent. -/
def isReal (ch : UInt8) : Bool := ch = 46 || ch = 101 || ch = 69

/-- The sign of a text, and the text behind it. -/
def splitSign : Text → Bool × Text
  | [] => (false, [])
  | ch :: cs => if ch = 45 then (true, cs) else (false, ch :: cs)

/-- `GetInteger` and `GetLong`: the value, if they return `TRUE`. -/
def getIn (bits : Nat) (p : Parser) (tok : Token) : Option Int :=
  if tok.kind ≠ .jNumber then none
  else
    let (neg, ds) := splitSign (tok.text p.src)
    if ds.any isReal then none
    else (addDigits bits ds 0).map fun result => if neg then wrap bits (-result) else result

/-- `GetInteger`. -/
def getInteger (p : Parser) (tok : Token) : Option Int := getIn 32 p tok

/-- `GetLong`. -/
def getLong (p : Parser) (tok : Token) : Option Int := getIn 64 p tok

/-! ## What tokens denote -/

/-- The number that digits denote. -/
def decimal (ds : Text) : Int := ds.foldl (fun n ch => n * 10 + (ch.toNat - 48)) 0

/-- The integer that a text denotes: digits, perhaps with a sign. -/
def denoted (s : Text) : Option Int :=
  let (neg, ds) := splitSign s
  if ds ≠ [] ∧ ds.all isDigit then some (if neg then -decimal ds else decimal ds) else none

/-- The integers of so many bits. -/
def InRange (bits : Nat) (x : Int) : Prop := -2 ^ (bits - 1) ≤ x ∧ x < 2 ^ (bits - 1)

/-- A token's integer is returned exactly, if it has one in the range, and nothing otherwise. -/
def Exact (bits : Nat) (get : Option Int) (s : Text) : Prop :=
  ∀ x, get = some x ↔ denoted s = some x ∧ InRange bits x

theorem addDigits_eq (bits : Nat) (ds : Text) (n : Int) :
    addDigits bits ds (wrap bits n) =
      if ds.all isDigit then some (wrap bits (ds.foldl (fun n ch => n * 10 + (ch.toNat - 48)) n))
      else none := by
  induction ds generalizing n with
  | nil => rfl
  | cons ch cs ih =>
    have hstep : wrap bits (wrap bits (wrap bits n * 10) + (ch.toNat - 48)) =
        wrap bits (n * 10 + (ch.toNat - 48)) := by
      simp only [wrap, Int.bmod_mul_bmod, Int.bmod_add_bmod]
    rw [addDigits, all_cons, foldl_cons, hstep]
    cases isDigit ch with
    | false => rfl
    | true => exact ih _

theorem splitSign_all {s : Text} (h : (splitSign s).2.all isDigit = true) :
    (splitSign s).2.any isReal = false := by
  rw [any_eq_false]
  intro ch hch hreal
  have hdigit := all_eq_true.mp h ch hch
  simp only [isReal, isDigit, Bool.or_eq_true, Bool.and_eq_true, decide_eq_true_eq] at hreal hdigit
  obtain (rfl | rfl) | rfl := hreal <;> exact absurd hdigit (by decide)

theorem wrap_eq_iff {bits : Nat} (h : 0 < bits) (x : Int) : wrap bits x = x ↔ InRange bits x := by
  obtain ⟨b, rfl⟩ := Nat.exists_eq_succ_of_ne_zero h.ne'
  have hpow : (2 : Nat) ^ (b + 1) = 2 * 2 ^ b := by rw [Nat.pow_succ, Nat.mul_comm]
  have hhalf : ((2 ^ b : Nat) : Int) = 2 ^ b := by norm_cast
  rw [InRange, wrap, Nat.succ_eq_add_one, Nat.add_sub_cancel, hpow, ← hhalf]
  have hpos : 0 < 2 ^ b := Nat.two_pow_pos b
  generalize 2 ^ b = m at hpos
  constructor
  · intro heq
    have hle := Int.le_bmod (x := x) (show 0 < 2 * m by omega)
    have hlt := Int.bmod_lt (x := x) (show 0 < 2 * m by omega)
    omega
  · intro hx
    exact Int.bmod_eq_of_le (by omega) (by omega)

/-- Every number is returned that a token denotes, as the bits hold it. -/
theorem getIn_eq {bits : Nat} {p : Parser} {tok : Token} (hk : tok.kind = .jNumber)
    (hne : (splitSign (tok.text p.src)).2 ≠ []) :
    getIn bits p tok = (denoted (tok.text p.src)).map (wrap bits) := by
  have hzero := addDigits_eq bits (splitSign (tok.text p.src)).2 0
  rw [getIn, if_neg (not_not.mpr hk), denoted]
  dsimp only
  rw [wrap, Int.zero_bmod] at hzero
  rw [hzero]
  generalize (splitSign (tok.text p.src)).1 = neg
  cases hall : (splitSign (tok.text p.src)).2.all isDigit with
  | false => simp [hall]
  | true =>
    rw [splitSign_all hall, if_neg Bool.false_ne_true, if_pos rfl, if_pos ⟨hne, rfl⟩]
    cases neg <;> simp [wrap, decimal]

theorem exact_iff {bits : Nat} (h : 0 < bits) (s : Text) :
    Exact bits ((denoted s).map (wrap bits)) s ↔ ∀ x, denoted s = some x → InRange bits x := by
  rw [Exact]
  generalize denoted s = d
  constructor
  · rintro hexact v rfl
    obtain ⟨heq, hrange⟩ := (hexact (wrap bits v)).mp rfl
    rwa [← Option.some.inj heq] at hrange
  · intro hrange x
    have hmap : d.map (wrap bits) = d := by
      cases d with
      | none => rfl
      | some v => exact congrArg some ((wrap_eq_iff h v).mpr (hrange v rfl))
    rw [hmap]
    exact ⟨fun hx => ⟨hx, hrange x hx⟩, And.left⟩

/-! ## Number tokens -/

variable {src : Text} {stop : Nat}

theorem isAt_take {f : UInt8 → Bool} {i : Nat} (hf : isAt f src i = true)
    (hlt : i < stop) : ∃ ch cs, (src.drop i).take (stop - i) = ch :: cs ∧
      src[i]? = some ch ∧ f ch = true ∧ cs = (src.drop (i + 1)).take (stop - (i + 1)) := by
  rw [isAt, Option.any_eq_true] at hf
  obtain ⟨ch, hch, hfch⟩ := hf
  obtain ⟨hi, heq⟩ := List.getElem?_eq_some_iff.mp hch
  have hsub : stop - i = stop - (i + 1) + 1 := by omega
  exact ⟨ch, _, by rw [drop_eq_getElem_cons hi, hsub, take_succ_cons, heq], hch, hfch, rfl⟩

theorem lt_skipWhile {pos : Nat} (h : isAt isDigit src pos = true) :
    pos < skipWhile isDigit src pos := by
  rw [isAt, Option.any_eq_true] at h
  obtain ⟨ch, hch, hf⟩ := h
  obtain ⟨hi, heq⟩ := List.getElem?_eq_some_iff.mp hch
  rw [skipWhile, drop_eq_getElem_cons hi, takeWhile_cons, heq, if_pos hf]
  exact Nat.lt_add_of_pos_right (Nat.succ_pos _)

theorem scanDigits_le {pos : Nat} {msg : String}
    (h : scanDigits src pos msg = (stop, none)) : pos ≤ stop := by
  rw [scanDigits] at h
  split at h
  · cases h
    exact Nat.le_add_right _ _
  · cases h

theorem scanFraction_le {pos : Nat} (h : scanFraction src pos = (stop, none)) :
    pos ≤ stop := by
  rw [scanFraction] at h
  split at h
  · exact Nat.le_of_succ_le (scanDigits_le h)
  · cases h
    exact le_rfl

theorem scanExponent_le {pos : Nat} (h : scanExponent src pos = (stop, none)) :
    pos ≤ stop := by
  rw [scanExponent] at h
  split at h
  · have hle := scanDigits_le h
    split at hle <;> omega
  · cases h
    exact le_rfl

/-- A number has a digit behind its sign. -/
theorem scanNumber_digit {start : Nat} (h : scanNumber src start = (stop, none)) :
    ∃ i, i = (if isAt (· = 45) src start then start + 1 else start) ∧
      isAt isDigit src i = true ∧ i < stop := by
  refine ⟨_, rfl, ?_⟩
  rw [scanNumber] at h
  generalize (if isAt (· = 45) src start then start + 1 else start) = i at h ⊢
  dsimp only at h
  split at h
  · next hdigit =>
    refine ⟨hdigit, ?_⟩
    generalize hint : (if isAt (· = 48) src i = true then i + 1
      else skipWhile isDigit src i) = j at h
    have hlt : i < j := by
      rw [← hint]
      split
      · exact Nat.lt_succ_self i
      · exact lt_skipWhile hdigit
    split at h
    · cases h
    · next hfraction =>
      exact Nat.lt_of_lt_of_le hlt (Nat.le_trans (scanFraction_le hfraction) (scanExponent_le h))
  · cases h

theorem scanNumber_le {start : Nat} (h : scanNumber src start = (stop, none)) :
    start ≤ stop := by
  obtain ⟨i, hi, -, hlt⟩ := scanNumber_digit h
  split at hi <;> omega

theorem structural_ne (ch : UInt8) : structural ch ≠ some .jNumber := by
  rw [structural]
  repeat' split
  all_goals exact fun h => nomatch h

theorem keyword_ne {ch : UInt8} {kind : TokenKind} {kw : Text} (h : keyword ch = some (kind, kw)) :
    kind ≠ .jNumber := by
  rw [keyword] at h
  repeat' split at h
  all_goals cases h
  all_goals exact fun h => nomatch h

/-- A number token is what `ScanNumber` finds at its start. -/
theorem number_of_next {p p' : Parser} {tok : Token} (h : p.next = (true, tok, p'))
    (hk : tok.kind = .jNumber) : p'.src = p.src ∧
      scanNumber p.src tok.start = (tok.start + tok.len, none) := by
  rw [Parser.next] at h
  split at h
  · cases h
  split at h
  · cases h
  have hsrc : p.skipWS.src = p.src := rfl
  generalize p.skipWS = q at h hsrc
  rw [Parser.nextAt] at h
  split at h
  · next kind hkind =>
    cases h
    exact absurd (hkind.trans (congrArg some hk)) (structural_ne _)
  split at h
  · split at h
    · cases h
      cases hk
    · cases h
  split at h
  · split at h
    · next pos hscan =>
      have hle := scanNumber_le hscan
      cases h
      exact ⟨hsrc, by rw [← hsrc, Nat.add_sub_cancel' hle]; exact hscan⟩
    · cases h
  split at h
  · next kind kw hkw =>
    split at h
    · cases h
      exact absurd hk (keyword_ne hkw)
    · cases h
  · cases h

theorem splitSign_number {start : Nat} (h : scanNumber src start = (stop, none)) :
    (splitSign ((src.drop start).take (stop - start))).2 ≠ [] := by
  obtain ⟨i, hi, hdigit, hlt⟩ := scanNumber_digit h
  obtain ⟨ch, cs, htext, hch, hf, -⟩ := isAt_take hdigit hlt
  split at hi
  · next hsign =>
    subst hi
    obtain ⟨sign, ds, htext', -, hsign, rfl⟩ := isAt_take hsign (Nat.lt_of_succ_lt hlt)
    rw [htext', splitSign, if_pos (of_decide_eq_true hsign), htext]
    exact cons_ne_nil _ _
  · next hsign =>
    subst hi
    rw [htext, splitSign]
    split
    · next h45 => exact absurd (by rw [isAt, hch, h45]; rfl) hsign
    · exact cons_ne_nil _ _

/-- `GetInteger` and `GetLong` are exact for a number token if and only if it has a fraction or an
exponent, or its integer is in the range. -/
theorem integers_exact_iff {p p' : Parser} {tok : Token} (h : p.next = (true, tok, p'))
    (hk : tok.kind = .jNumber) :
    (Exact 32 (getInteger p' tok) (tok.text p.src) ↔
      ∀ x, denoted (tok.text p.src) = some x → InRange 32 x) ∧
    (Exact 64 (getLong p' tok) (tok.text p.src) ↔
      ∀ x, denoted (tok.text p.src) = some x → InRange 64 x) := by
  obtain ⟨hsrc, hscan⟩ := number_of_next h hk
  have hne := splitSign_number hscan
  rw [Nat.add_sub_cancel_left] at hne
  rw [← hsrc] at hne ⊢
  constructor
  · rw [getInteger, getIn_eq hk hne]
    exact exact_iff (by decide) _
  · rw [getLong, getIn_eq hk hne]
    exact exact_iff (by decide) _

/-- The number `-7` in brackets. -/
theorem integers_exact_iff_seven :
    Exact 32 (getInteger ⟨text "[-7]", 3, none⟩ ⟨.jNumber, 1, 2⟩) (text "-7") ∧
    Exact 64 (getLong ⟨text "[-7]", 3, none⟩ ⟨.jNumber, 1, 2⟩) (text "-7") := by
  have hnext : (⟨text "[-7]", 1, none⟩ : Parser).next =
      (true, ⟨.jNumber, 1, 2⟩, ⟨text "[-7]", 3, none⟩) := by decide
  have h := integers_exact_iff hnext rfl
  have hx : ∀ x, denoted (text "-7") = some x → x = -7 := fun x hx => by
    rw [show denoted (text "-7") = some (-7) by decide] at hx
    exact (Option.some.inj hx).symm
  refine ⟨h.1.mpr fun x h7 => ?_, h.2.mpr fun x h7 => ?_⟩
  · obtain rfl := hx x h7
    exact ⟨by decide, by decide⟩
  · obtain rfl := hx x h7
    exact ⟨by decide, by decide⟩

/-- The number `2^32`, which is read as zero. -/
theorem integers_wrap : (init (text "4294967296")).next =
      (true, ⟨.jNumber, 0, 10⟩, ⟨text "4294967296", 10, none⟩) ∧
    ¬Exact 32 (getInteger ⟨text "4294967296", 10, none⟩ ⟨.jNumber, 0, 10⟩)
      (text "4294967296") := by
  refine ⟨by decide +kernel, fun h => ?_⟩
  have hzero := ((h 0).mp (by decide +kernel)).1
  exact absurd hzero (by decide +kernel)

end Mx.M2Json

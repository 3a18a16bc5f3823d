import Mx.Lexer.Rounds

/-!
# Number literals

All hexadecimal digits are read first, although `B` and `C` are also suffixes; which radix a literal
has is decided by its last character. A literal denotes the number it spells.
-/

namespace Mx.Lexer

open List

/-- A text spells a number as a literal of a kind: by decimal digits, by octal digits and `B`, by
hexadecimal digits, the first one decimal, and `H`, or by octal digits and `C`. -/
inductive Spells : Nat → List Char → TokenKind → Prop where
  | decimal {ds : List Char} (hne : ds ≠ []) (hds : ∀ c ∈ ds, c.isDigit = true)
      (hlt : numeral 10 ds < 2 ^ 63) : Spells (numeral 10 ds) ds (.intLit (numeral 10 ds))
  | octal {ds : List Char} (hne : ds ≠ []) (hds : ∀ c ∈ ds, isOctal c = true)
      (hlt : numeral 8 ds < 2 ^ 63) : Spells (numeral 8 ds) (ds ++ ['B']) (.intLit (numeral 8 ds))
  | hex {d : Char} {ds : List Char} (hd : d.isDigit = true) (hds : ∀ c ∈ ds, isHexDigit c = true)
      (hlt : numeral 16 (d :: ds) < 2 ^ 63) :
      Spells (numeral 16 (d :: ds)) (d :: ds ++ ['H']) (.intLit (numeral 16 (d :: ds)))
  | char {ds : List Char} {c : Char} (hne : ds ≠ []) (hds : ∀ c ∈ ds, isOctal c = true)
      (hc : numeral 8 ds = c.toNat) : Spells c.toNat (ds ++ ['C']) (.charLit c)

/-- A text that can follow a literal: it begins with no letter, no digit and no point with a digit
behind it. -/
structure Follows (rest : List Char) : Prop where
  head : ∀ c ∈ rest.head?, c.isAlphanum = false
  point : beginsFraction rest = false

section Digits

variable {c : Char}

theorem isDigit_iff : c.isDigit = true ↔ 48 ≤ c.toNat ∧ c.toNat ≤ 57 := by
  rw [Char.isDigit, Bool.and_eq_true, decide_eq_true_eq, decide_eq_true_eq, ge_iff_le,
    UInt32.le_iff_toNat_le, UInt32.le_iff_toNat_le]
  exact Iff.rfl

theorem isOctal_iff : isOctal c = true ↔ 48 ≤ c.toNat ∧ c.toNat ≤ 55 := by
  rw [isOctal, Bool.and_eq_true, decide_eq_true_eq, decide_eq_true_eq, Char.le_def, Char.le_def,
    UInt32.le_iff_toNat_le, UInt32.le_iff_toNat_le]
  exact Iff.rfl

theorem isDigit_of_isOctal (h : isOctal c = true) : c.isDigit = true := by
  rw [isOctal_iff] at h
  rw [isDigit_iff]
  omega

theorem isHexDigit_of_isOctal (h : isOctal c = true) : isHexDigit c = true :=
  isHexDigit_of_isDigit (isDigit_of_isOctal h)

theorem isHexDigit_iff : isHexDigit c = true ↔ (48 ≤ c.toNat ∧ c.toNat ≤ 57) ∨
    (97 ≤ c.toNat ∧ c.toNat ≤ 102) ∨ (65 ≤ c.toNat ∧ c.toNat ≤ 70) := by
  rw [isHexDigit, Bool.or_eq_true, Bool.or_eq_true, isDigit_iff, Bool.and_eq_true,
    Bool.and_eq_true, decide_eq_true_eq, decide_eq_true_eq, decide_eq_true_eq, decide_eq_true_eq,
    Char.le_def, Char.le_def, Char.le_def, Char.le_def, UInt32.le_iff_toNat_le,
    UInt32.le_iff_toNat_le, UInt32.le_iff_toNat_le, UInt32.le_iff_toNat_le, or_assoc]
  exact Iff.rfl

theorem digitValue_of_isDigit (h : c.isDigit = true) : digitValue c = c.toNat - 48 := by
  rw [digitValue, if_pos h]
  rfl

theorem digitValue_lt_ten (h : c.isDigit = true) : digitValue c < 10 := by
  rw [digitValue_of_isDigit h]
  have := isDigit_iff.mp h
  omega

theorem digitValue_lt_eight (h : isOctal c = true) : digitValue c < 8 := by
  rw [digitValue_of_isDigit (isDigit_of_isOctal h)]
  have := isOctal_iff.mp h
  omega

theorem digitValue_lt_sixteen (h : isHexDigit c = true) : digitValue c < 16 := by
  rw [digitValue]
  by_cases hdigit : c.isDigit = true
  · have := isDigit_iff.mp hdigit
    rw [if_pos hdigit]
    have hzero : '0'.toNat = 48 := rfl
    omega
  · rw [if_neg hdigit]
    rw [isDigit_iff] at hdigit
    have hhex := isHexDigit_iff.mp h
    have ha : 'a'.toNat = 97 := rfl
    have hA : 'A'.toNat = 65 := rfl
    split
    · omega
    · next hlow =>
      rw [Char.le_def, UInt32.le_iff_toNat_le] at hlow
      change ¬97 ≤ c.toNat at hlow
      omega

theorem isAlphanum_iff : c.isAlphanum = true ↔ (65 ≤ c.toNat ∧ c.toNat ≤ 90) ∨
    (97 ≤ c.toNat ∧ c.toNat ≤ 122) ∨ (48 ≤ c.toNat ∧ c.toNat ≤ 57) := by
  simp only [Char.isAlphanum, Char.isAlpha, Char.isUpper, Char.isLower, Bool.or_eq_true,
    isDigit_iff, Bool.and_eq_true, decide_eq_true_eq, ge_iff_le, UInt32.le_iff_toNat_le, or_assoc]
  exact Iff.rfl

theorem isHexDigit_of_not_alphanum (h : c.isAlphanum = false) : isHexDigit c = false := by
  by_contra hhex
  rw [Bool.not_eq_false, isHexDigit_iff] at hhex
  have halphanum : c.isAlphanum = true := by
    rw [isAlphanum_iff]
    omega
  rw [h] at halphanum
  cases halphanum

theorem not_suffix_of_not_alphanum (h : c.isAlphanum = false) :
    decide (c = 'H' ∨ c = 'h') = false := by
  by_contra hsuffix
  rw [Bool.not_eq_false, decide_eq_true_eq] at hsuffix
  obtain rfl | rfl := hsuffix <;> exact absurd h (by decide)

end Digits

section Literals

variable {ds rest start : List Char} {lx : Lexer}

theorem fromStrRadix_eq {radix limit : Nat} (hne : ds ≠ [])
    (hds : ∀ c ∈ ds, digitValue c < radix) (hlt : numeral radix ds < limit) :
    fromStrRadix radix limit ds = some (numeral radix ds) := if_pos ⟨hne, hds, hlt⟩

theorem fromU32_toNat (c : Char) : fromU32 c.toNat = some c := by
  have hvalid : c.toNat.isValidChar := c.valid
  rw [fromU32, dif_pos hvalid]
  exact congrArg some (Char.ext (UInt32.toNat_inj.mp rfl))

/-- What is read of digits in front of a text that begins with none. -/
theorem readNumber_digits {w : List Char} (hds : ∀ c ∈ ds, isHexDigit c = true)
    (hstop : ∀ c ∈ rest.head?, isHexDigit c = false)
    (hsuffix : ∀ c ∈ rest.head?, decide (c = 'H' ∨ c = 'h') = false) (hw : w = ds ++ rest) :
    readNumber lx w = lastDigit lx w ds rest := by
  have hdrop : (ds ++ rest).dropWhile isHexDigit = rest := dropWhile_of_stop hds hstop
  rw [readNumber_of_stop (by rwa [hw, hdrop]), hw, hdrop, takeWhile_of_stop hds hstop]

theorem lastDigit_of_decimal (hds : ∀ c ∈ ds, c.isDigit = true) :
    lastDigit lx start ds rest = singleDigit lx start ds rest := by
  have hlast : ∀ d, d.isDigit = false → ds.getLast? ≠ some d := by
    intro d hd h
    rw [hds d (mem_of_getLast? h)] at hd
    cases hd
  rw [lastDigit, if_neg (not_or.mpr ⟨hlast 'B' (by decide), hlast 'b' (by decide)⟩),
    if_neg (not_or.mpr ⟨hlast 'C' (by decide), hlast 'c' (by decide)⟩), ite_self]

/-- A suffix that is read as a digit is found behind octal digits. -/
theorem lastDigit_of_octal (hne : ds ≠ []) (hds : ∀ c ∈ ds, isOctal c = true) (d : Char) :
    lastDigit lx start (ds ++ [d]) rest =
      if d = 'B' ∨ d = 'b' then octalLit start ds rest
      else if d = 'C' ∨ d = 'c' then octalCharLit start ds rest
      else singleDigit lx start (ds ++ [d]) rest := by
  have hlen : (ds ++ [d]).length > 1 := by
    rw [length_append]
    exact Nat.lt_add_of_pos_left (length_pos_iff.mpr hne)
  have hoctal : ((ds ++ [d]).dropLast.all isOctal) = true := by
    rw [dropLast_concat, all_eq_true]
    exact hds
  rw [lastDigit, if_pos ⟨hlen, hoctal⟩, getLast?_concat, dropLast_concat]
  simp only [Option.some.injEq]

/-- A literal that is followed by no letter, digit or fraction is read whole, as the number it
spells. -/
theorem readNumber_spells (lx : Lexer) {n : Nat} {s rest : List Char} {kind : TokenKind}
    (h : Spells n s kind) (hrest : Follows rest) :
    readNumber lx (s ++ rest) = .ok (some kind, rest) := by
  have hstop : ∀ c ∈ rest.head?, isHexDigit c = false :=
    fun c hc => isHexDigit_of_not_alphanum (hrest.head c hc)
  have hsuffix : ∀ c ∈ rest.head?, decide (c = 'H' ∨ c = 'h') = false :=
    fun c hc => not_suffix_of_not_alphanum (hrest.head c hc)
  cases h with
  | decimal hne hds hlt =>
    have hvalue := fromStrRadix_eq hne (fun c hc => digitValue_lt_ten (hds c hc)) hlt
    rw [readNumber_digits (fun c hc => isHexDigit_of_isDigit (hds c hc)) hstop hsuffix rfl,
      lastDigit_of_decimal hds, singleDigit_of_stop hstop, unsuffixed_of_not_fraction hrest.point,
      decimalLit, if_pos (all_eq_true.mpr hds), hvalue]
  | @octal ds hne hds hlt =>
    have hvalue := fromStrRadix_eq hne (fun c hc => digitValue_lt_eight (hds c hc)) hlt
    have hhex : ∀ c ∈ ds ++ ['B'], isHexDigit c = true := by
      intro c hc
      obtain hc | hc := mem_append.mp hc
      · exact isHexDigit_of_isOctal (hds c hc)
      · obtain rfl := mem_singleton.mp hc
        rfl
    rw [readNumber_digits hhex hstop hsuffix rfl, lastDigit_of_octal hne hds, if_pos (.inl rfl),
      octalLit, hvalue]
  | @hex d ds hd hds hlt =>
    have hhex : ∀ c ∈ d :: ds, isHexDigit c = true := by
      intro c hc
      obtain rfl | hc := mem_cons.mp hc
      · exact isHexDigit_of_isDigit hd
      · exact hds c hc
    have hvalue := fromStrRadix_eq (cons_ne_nil d ds)
      (fun c hc => digitValue_lt_sixteen (hhex c hc)) hlt
    have hstopH : ∀ c ∈ ('H' :: rest).head?, isHexDigit c = false := by
      intro c hc
      obtain rfl := Option.some.inj hc
      rfl
    have hdrop := dropWhile_of_stop hhex hstopH
    have htake := takeWhile_of_stop hhex hstopH
    rw [append_assoc, singleton_append, readNumber_of_hex hdrop (.inl rfl), htake, hexLit, hvalue]
  | @char ds c hne hds hc =>
    have hlt : numeral 8 ds < 2 ^ 32 := by
      rw [hc]
      exact c.val.toNat_lt
    have hvalue := fromStrRadix_eq hne (fun c hc => digitValue_lt_eight (hds c hc)) hlt
    have hhex : ∀ c ∈ ds ++ ['C'], isHexDigit c = true := by
      intro c hc
      obtain hc | hc := mem_append.mp hc
      · exact isHexDigit_of_isOctal (hds c hc)
      · obtain rfl := mem_singleton.mp hc
        rfl
    rw [readNumber_digits hhex hstop hsuffix rfl, lastDigit_of_octal hne hds, if_neg (by decide),
      if_pos (.inl rfl), octalCharLit, hvalue]
    simp only [hc, fromU32_toNat]

/-- Two dots behind a literal are not part of it. -/
theorem readNumber_spells_range :
    readNumber ⟨"", [], true, false, fun _ => none⟩ ("0FFH..".toList) =
      .ok (some (.intLit 255), "..".toList) := by
  have hdigits : ∀ c ∈ ['F', 'F'], isHexDigit c = true := all_eq_true.1 rfl
  have hfollows : Follows ['.', '.'] := by
    refine ⟨fun c hc => ?_, rfl⟩
    obtain rfl := Option.some.inj hc
    rfl
  have hspells : Spells 255 ['0', 'F', 'F', 'H'] (.intLit 255) :=
    @Spells.hex '0' ['F', 'F'] rfl hdigits (by decide)
  have hread : readNumber ⟨"", [], true, false, fun _ => none⟩
      (['0', 'F', 'F', 'H'] ++ ['.', '.']) =
      .ok (some (.intLit 255), ['.', '.']) := readNumber_spells _ hspells hfollows
  exact hread

end Literals

end Mx.Lexer

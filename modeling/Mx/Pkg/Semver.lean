import Mx.Core.Strings

/-!
# Versions and ranges

`Semver` of mxpkg: versions of three numbers, the ranges that a version spec can name, and the best
of several versions in a range. A version that is read from a text is read again from what is
printed for it, and that is not longer than the text.
-/

namespace Mx.Pkg

open Strings List

/-! ## Versions -/

/-- The arithmetic of `INTEGER`. -/
def integer (x : Int) : Int := x.bmod (2 ^ 32)

/-- `Version`. -/
structure Version where
  major : Int
  minor : Int
  patch : Int
  deriving DecidableEq, Repr

/-- A digit. -/
def isDigit (c : UInt8) : Bool := 48 ≤ c && c ≤ 57

/-- The number that digits stand for. -/
def digitsValue (s : Text) : Int := s.foldl (fun n c => integer (n * 10 + (c.toNat - 48))) 0

/-- `ReadInt`: the number at the start of a text and the rest, or none without digits. -/
def readInt (s : Text) : Option (Int × Text) :=
  if s.takeWhile isDigit = [] then none
  else some (digitsValue (s.takeWhile isDigit), s.dropWhile isDigit)

/-- `ReadInt`, where a negative number is an error. -/
def readNumber (s : Text) : Option (Int × Text) := (readInt s).filter fun r => 0 ≤ r.1

/-- The rest after a dot. -/
def afterDot : Text → Option Text
  | [] => none
  | c :: s => if c = 46 then some s else none

/-- `Parse`. -/
def Version.parse (s : Text) : Option Version :=
  (readNumber s).bind fun major =>
    (afterDot major.2).bind fun s =>
      (readNumber s).bind fun minor =>
        (afterDot minor.2).bind fun s =>
          (readNumber s).bind fun patch =>
            if patch.2 = [] then some ⟨major.1, minor.1, patch.1⟩ else none

/-- `Compare`. -/
def Version.compare (a b : Version) : Int :=
  if a.major < b.major then -1
  else if a.major > b.major then 1
  else if a.minor < b.minor then -1
  else if a.minor > b.minor then 1
  else if a.patch < b.patch then -1
  else if a.patch > b.patch then 1
  else 0

/-- `MatchesRange`. -/
def Version.matchesRange (v : Version) (spec : Text) : Bool :=
  if spec.head? = some 94 then
    match parse (spec.drop 1) with
    | none => false
    | some rv =>
      if v.compare rv < 0 then false
      else if rv.major = 0 then v.major = 0 && decide (v.minor < integer (rv.minor + 1))
      else v.major < integer (rv.major + 1)
  else if spec.head? = some 126 then
    match parse (spec.drop 1) with
    | none => false
    | some rv =>
      if v.compare rv < 0 then false
      else v.major = rv.major && decide (v.minor < integer (rv.minor + 1))
  else if (text ">=").isPrefixOf spec then
    match parse (spec.drop 2) with
    | none => false
    | some rv => 0 ≤ v.compare rv
  else
    match parse spec with
    | none => false
    | some rv => v.compare rv = 0

/-- `IntToStr`. -/
def intToStr (n : Int) : Text :=
  if n = 0 then text "0" else (Nat.digits 10 n.toNat).reverse.map fun d => UInt8.ofNat (48 + d)

/-- `ToString`. -/
def Version.toString (v : Version) : Text :=
  intToStr v.major ++ text "." ++ intToStr v.minor ++ text "." ++ intToStr v.patch

/-! ## The best version -/

/-- The loop over the names of versions keeps the greatest one in the range. -/
def pickBest (spec : Text) (best : Option Version) (name : Text) : Option Version :=
  match Version.parse name with
  | none => best
  | some cur =>
    if cur.matchesRange spec && best.all fun b => 0 < cur.compare b then some cur else best

/-- The greatest version in a range. -/
def bestVersion (spec : Text) (names : List Text) : Option Version :=
  names.foldl (pickBest spec) none

/-- The best version is one of the versions, and in the range. -/
theorem bestVersion_spec {spec : Text} {names : List Text} {v : Version}
    (h : bestVersion spec names = some v) :
    v.matchesRange spec = true ∧ ∃ name ∈ names, Version.parse name = some v := by
  have hfold : ∀ (ns : List Text) (best : Option Version),
      ns.foldl (pickBest spec) best = some v →
        best = some v ∨ v.matchesRange spec = true ∧ ∃ name ∈ ns, Version.parse name = some v := by
    intro ns
    induction ns with
    | nil => exact fun best hbest => .inl hbest
    | cons name ns ih =>
      intro best hbest
      rcases ih _ hbest with hpick | ⟨hmatch, name', hmem, hparse⟩
      · rw [pickBest] at hpick
        split at hpick
        · exact .inl hpick
        · rename_i cur hcur
          split at hpick
          · rename_i hcond
            obtain rfl := Option.some.inj hpick
            rw [Bool.and_eq_true] at hcond
            exact .inr ⟨hcond.1, name, mem_cons_self, hcur⟩
          · exact .inl hpick
      · exact .inr ⟨hmatch, name', mem_cons_of_mem name hmem, hparse⟩
  rcases hfold names none h with hnone | hspec
  · cases hnone
  · exact hspec

/-! ## Printing and reading -/

section Printing

variable {n : Int} {s : Text}

theorem integer_of_lt (h : 0 ≤ n) (hn : n < 2 ^ 31) : integer n = n :=
  Int.bmod_eq_of_le (by omega) (by omega)

theorem integer_lt (x : Int) : integer x < 2 ^ 31 := by
  have h := @Int.bmod_lt x (2 ^ 32) (by decide)
  rw [integer]
  omega

/-- A number that digits stand for has no more digits, and is not negative if they are few. -/
theorem digitsValue_bound (ds : Text) (h : ∀ c ∈ ds, isDigit c = true) :
    digitsValue ds < 10 ^ ds.length ∧ digitsValue ds < 2 ^ 31 ∧
      (ds.length ≤ 9 → 0 ≤ digitsValue ds) := by
  induction ds using List.reverseRecOn with
  | nil => decide
  | append_singleton ds c ih =>
    obtain ⟨hlt, -, hnonneg⟩ := ih fun c' hc' => h c' (mem_append_left _ hc')
    have hc := h c (mem_append_right _ (mem_singleton_self c))
    rw [isDigit, Bool.and_eq_true, decide_eq_true_eq, decide_eq_true_eq,
      UInt8.le_iff_toNat_le, UInt8.le_iff_toNat_le] at hc
    have hlow : 48 ≤ c.toNat := hc.1
    have hhigh : c.toNat ≤ 57 := hc.2
    have hvalue : digitsValue (ds ++ [c]) = integer (digitsValue ds * 10 + (c.toNat - 48)) := by
      rw [digitsValue, foldl_append]
      rfl
    rw [hvalue, length_append, length_singleton, pow_succ]
    refine ⟨?_, integer_lt _, fun hlen => ?_⟩
    · by_cases hlen : ds.length + 1 ≤ 9
      · have hsmall : (10 : Int) ^ ds.length ≤ 10 ^ 8 :=
          pow_le_pow_right₀ (by decide) (by omega)
        rw [integer_of_lt (by have := hnonneg (by omega); omega) (by omega)]
        omega
      · have hlarge : (10 : Int) ^ 9 ≤ 10 ^ ds.length :=
          pow_le_pow_right₀ (by decide) (by omega)
        have := integer_lt (digitsValue ds * 10 + (c.toNat - 48))
        omega
    · have hsmall : (10 : Int) ^ ds.length ≤ 10 ^ 8 :=
        pow_le_pow_right₀ (by decide) (by omega)
      have hpos := hnonneg (by omega)
      rw [integer_of_lt (by omega) (by omega)]
      omega

/-- Digits that are printed for a number stand for it. -/
theorem digitsValue_digits (ds : List Nat) (hds : ∀ d ∈ ds, d < 10)
    (h : Nat.ofDigits 10 ds < 2 ^ 31) :
    digitsValue (ds.reverse.map fun d => UInt8.ofNat (48 + d)) = (Nat.ofDigits 10 ds : Nat) := by
  induction ds with
  | nil => rfl
  | cons d ds ih =>
    have hd := hds d mem_cons_self
    rw [Nat.ofDigits_cons] at h ⊢
    have hrest := ih (fun d' hd' => hds d' (mem_cons_of_mem d hd')) (by omega)
    have hchar : ((UInt8.ofNat (48 + d)).toNat : Int) - 48 = d := by
      rw [UInt8.toNat_ofNat_of_lt' (by simp [UInt8.size]; omega)]
      omega
    have hfold : digitsValue ((d :: ds).reverse.map fun d => UInt8.ofNat (48 + d)) =
        integer (digitsValue (ds.reverse.map fun d => UInt8.ofNat (48 + d)) * 10 +
          ((UInt8.ofNat (48 + d)).toNat - 48)) := by
      rw [reverse_cons, map_append, digitsValue, foldl_append]
      rfl
    rw [hfold, hrest, hchar, integer_of_lt (by omega) (by omega)]
    omega

/-- What is printed for a number are digits that stand for it. -/
theorem intToStr_spec (h : 0 ≤ n) (hn : n < 2 ^ 31) :
    intToStr n ≠ [] ∧ (∀ c ∈ intToStr n, isDigit c = true) ∧ digitsValue (intToStr n) = n := by
  rw [intToStr]
  by_cases hzero : n = 0
  · rw [if_pos hzero, hzero]
    refine ⟨cons_ne_nil _ _, fun c hc => ?_, rfl⟩
    obtain rfl := mem_singleton.1 hc
    rfl
  · rw [if_neg hzero]
    have hnat : n.toNat ≠ 0 := by omega
    refine ⟨?_, fun c hc => ?_, ?_⟩
    · rw [ne_eq, map_eq_nil_iff, reverse_eq_nil_iff, Nat.digits_eq_nil_iff_eq_zero]
      exact hnat
    · obtain ⟨d, hd, rfl⟩ := mem_map.mp hc
      have hlt := Nat.digits_lt_base (by decide : 1 < 10) (mem_reverse.mp hd)
      have hchar : (UInt8.ofNat (48 + d)).toNat = 48 + d :=
        UInt8.toNat_ofNat_of_lt' (by simp [UInt8.size]; omega)
      rw [isDigit, Bool.and_eq_true, decide_eq_true_eq, decide_eq_true_eq,
        UInt8.le_iff_toNat_le, UInt8.le_iff_toNat_le, hchar]
      exact ⟨Nat.le_add_right 48 d, by have : (57 : UInt8).toNat = 57 := rfl; omega⟩
    · rw [digitsValue_digits _ (fun d hd => Nat.digits_lt_base (by decide) hd)]
      · rw [Nat.ofDigits_digits]
        omega
      · rw [Nat.ofDigits_digits]
        omega

/-- The digits at the start of a text. -/
theorem takeWhile_digits {ds : Text} (h : ∀ c ∈ ds, isDigit c = true)
    (hs : ∀ c, s.head? = some c → isDigit c = false) :
    (ds ++ s).takeWhile isDigit = ds ∧ (ds ++ s).dropWhile isDigit = s := by
  rw [takeWhile_append_of_pos h, dropWhile_append_of_pos h]
  cases s with
  | nil => exact ⟨append_nil ds, rfl⟩
  | cons c s =>
    have hc := hs c rfl
    rw [takeWhile_cons_of_neg (by simpa using hc),
      dropWhile_cons_of_neg (by simpa using hc), append_nil]
    exact ⟨rfl, rfl⟩

/-- A number is read from what is printed for it. -/
theorem readNumber_intToStr (h : 0 ≤ n) (hn : n < 2 ^ 31)
    (hs : ∀ c, s.head? = some c → isDigit c = false) :
    readNumber (intToStr n ++ s) = some (n, s) := by
  obtain ⟨hne, hdigits, hvalue⟩ := intToStr_spec h hn
  obtain ⟨htake, hdrop⟩ := takeWhile_digits hdigits hs
  rw [readNumber, readInt, htake, hdrop, if_neg hne, hvalue, Option.filter_some,
    if_pos (decide_eq_true h)]

/-- A number that is read has digits, and what is printed for it is not longer. -/
theorem readNumber_spec {r : Int × Text} (h : readNumber s = some r) :
    0 ≤ r.1 ∧ r.1 < 2 ^ 31 ∧ (intToStr r.1).length + r.2.length ≤ s.length := by
  rw [readNumber, Option.filter_eq_some_iff] at h
  obtain ⟨hread, hnonneg⟩ := h
  rw [decide_eq_true_eq] at hnonneg
  rw [readInt] at hread
  split at hread
  · cases hread
  · rename_i hne
    obtain rfl := Option.some.inj hread
    obtain ⟨hpow, hlt, -⟩ := digitsValue_bound (s.takeWhile isDigit)
      fun c hc => mem_takeWhile_imp hc
    refine ⟨hnonneg, hlt, ?_⟩
    have hlen := congrArg List.length (takeWhile_append_dropWhile (p := isDigit) (l := s))
    rw [length_append] at hlen
    suffices (intToStr (digitsValue (s.takeWhile isDigit))).length ≤
        (s.takeWhile isDigit).length by
      simp only
      omega
    have hpos := length_pos_of_ne_nil hne
    simp only at hnonneg
    generalize digitsValue (s.takeWhile isDigit) = value at hnonneg hpow hlt ⊢
    generalize (s.takeWhile isDigit).length = k at hpow hpos ⊢
    rw [intToStr]
    split
    · exact hpos
    · rw [length_map, length_reverse, Nat.digits_length_le_iff (by decide)]
      zify
      omega

/-- A version is read from what is printed for it. -/
theorem Version.parse_toString {v : Version} (hmajor : 0 ≤ v.major ∧ v.major < 2 ^ 31)
    (hminor : 0 ≤ v.minor ∧ v.minor < 2 ^ 31) (hpatch : 0 ≤ v.patch ∧ v.patch < 2 ^ 31) :
    parse v.toString = some v := by
  have hdot : ∀ s : Text, ∀ c, (text "." ++ s).head? = some c → isDigit c = false := by
    intro s c hc
    obtain rfl : 46 = c := Option.some.inj hc
    decide
  have hend : ∀ c, ([] : Text).head? = some c → isDigit c = false := fun _ hc => nomatch hc
  rw [parse, toString, append_assoc, append_assoc, append_assoc,
    readNumber_intToStr hmajor.1 hmajor.2 (hdot _)]
  show (readNumber (intToStr v.minor ++ (text "." ++ intToStr v.patch))).bind _ = _
  rw [readNumber_intToStr hminor.1 hminor.2 (hdot _)]
  show (readNumber (intToStr v.patch)).bind _ = _
  rw [← append_nil (intToStr v.patch), readNumber_intToStr hpatch.1 hpatch.2 hend]
  rfl

theorem Version.toString_length_le {v : Version} (h : parse s = some v) :
    v.toString.length ≤ s.length ∧ parse v.toString = some v := by
  have hrest : ∀ {s t : Text}, afterDot s = some t → s.length = t.length + 1 := by
    intro s t hdot
    cases s with
    | nil => cases hdot
    | cons c s =>
      rw [afterDot] at hdot
      split at hdot
      · obtain rfl := Option.some.inj hdot
        rfl
      · cases hdot
  rw [parse] at h
  obtain ⟨major, hmajor, h⟩ := Option.bind_eq_some_iff.mp h
  obtain ⟨s₁, hdot₁, h⟩ := Option.bind_eq_some_iff.mp h
  obtain ⟨minor, hminor, h⟩ := Option.bind_eq_some_iff.mp h
  obtain ⟨s₂, hdot₂, h⟩ := Option.bind_eq_some_iff.mp h
  obtain ⟨patch, hpatch, h⟩ := Option.bind_eq_some_iff.mp h
  split at h
  · rename_i hend
    obtain rfl := Option.some.inj h
    obtain ⟨hmajor₀, hmajor₁, hlen₁⟩ := readNumber_spec hmajor
    obtain ⟨hminor₀, hminor₁, hlen₂⟩ := readNumber_spec hminor
    obtain ⟨hpatch₀, hpatch₁, hlen₃⟩ := readNumber_spec hpatch
    refine ⟨?_, parse_toString ⟨hmajor₀, hmajor₁⟩ ⟨hminor₀, hminor₁⟩ ⟨hpatch₀, hpatch₁⟩⟩
    have := hrest hdot₁
    have := hrest hdot₂
    have hlendot : (text ".").length = 1 := rfl
    simp only [toString, length_append, hlendot]
    omega
  · cases h

end Printing

end Mx.Pkg

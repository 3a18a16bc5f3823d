import Mx.Core.CLiteral
import Mx.Codegen.ExprText

/-!
# Literals in the emitted C

`escape_c_string` and `escape_c_char` choose an escape for each character without looking at the
next one. Only `\0` has a reading that depends on what follows. Characters above 127 are written
as they are, so that a character constant holds two bytes.
-/

namespace Mx

open CLiteral List

/-- What `escape_c_string` writes for one character. -/
def escapeInString (c : Char) : List Char :=
  if c = '\n' then ['\\', 'n'] else if c = '\t' then ['\\', 't']
  else if c = '\r' then ['\\', 'r'] else if c = '\\' then ['\\', '\\']
  else if c = '"' then ['\\', '"'] else if c = '\x00' then ['\\', '0'] else [c]

/-- The characters of an escaped string. -/
def escapeAll (cs : List Char) : List Char := cs.flatMap escapeInString

theorem escapeCString_toList (s : String) : (escapeCString s).toList = escapeAll s.toList := by
  rw [escapeCString, String.toList_join, flatMap_map]
  refine flatMap_congr fun c _ => ?_
  simp only [escapeInString]
  split_ifs <;> simp

@[simp] theorem escapeAll_nil : escapeAll [] = [] := rfl

@[simp] theorem utf8_nil : utf8 [] = [] := rfl

theorem escapeAll_cons (c : Char) (cs : List Char) :
    escapeAll (c :: cs) = escapeInString c ++ escapeAll cs := flatMap_cons

theorem utf8_cons (c : Char) (cs : List Char) :
    utf8 (c :: cs) = String.utf8EncodeChar c ++ utf8 cs := flatMap_cons

/-- An octal digit is written as it is. -/
theorem escapeInString_octal {d : Char} (h : isOctal d = true) : escapeInString d = [d] := by
  have hn : d ≠ '\n' := by rintro rfl; simp [isOctal] at h
  have ht : d ≠ '\t' := by rintro rfl; simp [isOctal] at h
  have hr : d ≠ '\r' := by rintro rfl; simp [isOctal] at h
  have hslash : d ≠ '\\' := by rintro rfl; simp [isOctal] at h
  have hquote : d ≠ '"' := by rintro rfl; simp [isOctal] at h
  have hnul : d ≠ '\x00' := by rintro rfl; simp [isOctal] at h
  simp [escapeInString, hn, ht, hr, hslash, hquote, hnul]

variable {c : Char}

/-- What is written for any other character does not start with an octal digit. -/
theorem escapeInString_other (h : isOctal c = false) :
    ∃ a rest, escapeInString c = a :: rest ∧ isOctal a = false := by
  have hslash : isOctal '\\' = false := by decide
  simp only [escapeInString]
  split_ifs
  · exact ⟨_, _, rfl, hslash⟩
  · exact ⟨_, _, rfl, hslash⟩
  · exact ⟨_, _, rfl, hslash⟩
  · exact ⟨_, _, rfl, hslash⟩
  · exact ⟨_, _, rfl, hslash⟩
  · exact ⟨_, _, rfl, hslash⟩
  · exact ⟨_, _, rfl, h⟩

/-- A character other than NUL is read back, whatever follows it. -/
theorem readBody_escapeInString (hnul : c ≠ '\x00') (cs : List Char) :
    readBody '"' (escapeInString c ++ cs) =
      (readBody '"' cs).map (String.utf8EncodeChar c ++ ·) := by
  simp only [escapeInString]
  split_ifs with hn ht hr hslash hquote
  · subst hn
    exact readBody_simple (by decide) (by decide) (by decide) (by decide) rfl
  · subst ht
    exact readBody_simple (by decide) (by decide) (by decide) (by decide) rfl
  · subst hr
    exact readBody_simple (by decide) (by decide) (by decide) (by decide) rfl
  · subst hslash
    exact readBody_simple (by decide) (by decide) (by decide) (by decide) rfl
  · subst hquote
    exact readBody_simple (by decide) (by decide) (by decide) (by decide) rfl
  · exact readBody_plain hslash hquote hn

/-- The digits that `\0` takes from an escaped text are characters of the text itself. -/
theorem octalTail_escapeAll (cs : List Char) :
    octalTail (escapeAll cs) = octalTail cs ∧
      (escapeAll cs).drop (octalTail cs).length = escapeAll (cs.drop (octalTail cs).length) := by
  have hstop : ∀ (c : Char) (rest : List Char), isOctal c = false →
      ∃ a tail, escapeAll (c :: rest) = a :: tail ∧ isOctal a = false := by
    intro c rest hc
    obtain ⟨a, tail, ha, hoct⟩ := escapeInString_other hc
    exact ⟨a, tail ++ escapeAll rest, by rw [escapeAll_cons, ha]; rfl, hoct⟩
  cases cs with
  | nil => simp [octalTail]
  | cons c cs =>
    cases hc : isOctal c with
    | false =>
      obtain ⟨a, tail, ha, hoct⟩ := hstop c cs hc
      rw [octalTail_of_not hc, ha, octalTail_of_not hoct]
      simp [ha]
    | true =>
      rw [escapeAll_cons, escapeInString_octal hc]
      cases cs with
      | nil => simp [octalTail, hc]
      | cons d cs =>
        cases hd : isOctal d with
        | false =>
          obtain ⟨a, tail, ha, hoct⟩ := hstop d cs hd
          rw [ha]
          simp [octalTail, hc, hd, hoct, ha]
        | true =>
          rw [escapeAll_cons, escapeInString_octal hd]
          simp [octalTail, hc, hd]

/-- NUL and the octal digits after it are read as one byte. -/
theorem readBody_escapeAll_nul (cs : List Char) :
    readBody '"' (escapeAll ('\x00' :: cs)) =
      (readBody '"' (escapeAll (cs.drop (octalTail cs).length))).map
        (UInt8.ofNat (valueOf 8 ('0' :: octalTail cs)) :: ·) := by
  obtain ⟨htail, hdrop⟩ := octalTail_escapeAll cs
  rw [escapeAll_cons, show escapeInString '\x00' = ['\\', '0'] by decide]
  change readBody '"' ('\\' :: '0' :: escapeAll cs) = _
  rw [readBody_nul, htail, hdrop]

theorem utf8_append (as bs : List Char) : utf8 (as ++ bs) = utf8 as ++ utf8 bs :=
  flatMap_append

/-- Every character has at least one byte. -/
theorem length_le_utf8 (cs : List Char) : cs.length ≤ (utf8 cs).length := by
  induction cs with
  | nil => simp
  | cons c cs ih =>
    rw [utf8_cons, length_append, length_cons, String.length_utf8EncodeChar]
    have := c.utf8Size_pos
    omega

theorem length_readBody_le (cs : List Char) {bs : List UInt8}
    (h : readBody '"' (escapeAll cs) = some bs) : bs.length ≤ (utf8 cs).length := by
  induction hn : cs.length using Nat.strong_induction_on generalizing cs bs with
  | _ n ih =>
  cases cs with
  | nil =>
    rw [escapeAll_nil, readBody_nil] at h
    cases h
    simp
  | cons c cs =>
    rw [length_cons] at hn
    by_cases hnul : c = '\x00'
    · subst hnul
      rw [readBody_escapeAll_nul] at h
      obtain ⟨rest, hrest, rfl⟩ := Option.map_eq_some_iff.mp h
      have hle := ih _ (by rw [length_drop]; omega) _ hrest rfl
      have hdrop : (utf8 (cs.drop (octalTail cs).length)).length ≤ (utf8 cs).length := by
        conv_rhs => rw [← take_append_drop (octalTail cs).length cs]
        rw [utf8_append, length_append]
        exact Nat.le_add_left _ _
      rw [utf8_cons, length_append, length_cons,
        show (String.utf8EncodeChar '\x00').length = 1 by decide]
      omega
    · rw [escapeAll_cons, readBody_escapeInString hnul] at h
      obtain ⟨rest, hrest, rfl⟩ := Option.map_eq_some_iff.mp h
      have hle := ih _ (by omega) _ hrest rfl
      rw [utf8_cons, length_append, length_append]
      omega

/-- NUL directly before an octal digit. -/
def NulBeforeDigit (cs : List Char) : Prop := ∃ d, isOctal d = true ∧ ['\x00', d] <:+: cs

theorem nulBeforeDigit_cons {cs : List Char} :
    NulBeforeDigit (c :: cs) ↔ (c = '\x00' ∧ octalTail cs ≠ []) ∨ NulBeforeDigit cs := by
  simp only [NulBeforeDigit, infix_cons_iff]
  constructor
  · rintro ⟨d, hd, hpre | hin⟩
    · obtain ⟨hnul, hdigit⟩ := cons_prefix_cons.mp hpre
      obtain ⟨tail, rfl⟩ := hdigit
      exact .inl ⟨hnul.symm, by simp [octalTail, hd]⟩
    · exact .inr ⟨d, hd, hin⟩
  · rintro (⟨rfl, htail⟩ | ⟨d, hd, hin⟩)
    · cases cs with
      | nil => simp at htail
      | cons d cs =>
        have hd : isOctal d = true := by
          by_contra hd
          exact htail (octalTail_of_not (by simpa using hd))
        exact ⟨d, hd, .inl ⟨cs, rfl⟩⟩
    · exact ⟨d, hd, .inr hin⟩

theorem readBody_escapeAll_iff (cs : List Char) :
    readBody '"' (escapeAll cs) = some (utf8 cs) ↔ ¬ NulBeforeDigit cs := by
  induction cs with
  | nil => simp [NulBeforeDigit]
  | cons c cs ih =>
    rw [nulBeforeDigit_cons, not_or, ← ih]
    by_cases hnul : c = '\x00'
    · subst hnul
      rw [readBody_escapeAll_nul, utf8_cons, show String.utf8EncodeChar '\x00' = [0] by decide]
      by_cases htail : octalTail cs = []
      · simp [htail, valueOf, digitValue]
      · -- the digits taken leave too few bytes
        have hlonger : ∀ bs, readBody '"' (escapeAll (cs.drop (octalTail cs).length)) = some bs →
            bs.length < (utf8 cs).length := by
          intro bs hbs
          have hle := length_readBody_le _ hbs
          have htaken := length_le_utf8 (cs.take (octalTail cs).length)
          have hpos := length_pos_iff.mpr htail
          have hmost : (octalTail cs).length ≤ cs.length :=
            (List.takeWhile_prefix _).length_le.trans (length_take_le' 2 cs)
          have hsplit : (utf8 cs).length = (utf8 (cs.take (octalTail cs).length)).length +
              (utf8 (cs.drop (octalTail cs).length)).length := by
            rw [← length_append, ← utf8_append, take_append_drop]
          rw [length_take, min_eq_left hmost] at htaken
          omega
        constructor
        · intro h
          obtain ⟨bs, hbs, heq⟩ := Option.map_eq_some_iff.mp h
          have hlt := hlonger bs hbs
          have := congrArg List.length heq
          simp only [length_cons, cons_append, nil_append] at this
          omega
        · rintro ⟨hno, -⟩
          exact absurd ⟨rfl, htail⟩ hno
    · rw [escapeAll_cons, readBody_escapeInString hnul, utf8_cons]
      simp [hnul]

/-! ## Character constants -/

/-- The `i8` operand of the LLVM backend: the code of the character in decimal. -/
def charLitByte (c : Char) : UInt8 := UInt8.ofNat c.toNat

/-- The constant for a character, converted to `char`, has the character's code, which is also
the operand of the other backend. -/
def CharSurvives (several : List UInt8 → Option Int) (c : Char) : Prop :=
  ∃ b, readChar several (escapeCChar c).toList = some b ∧ b.toNat = c.toNat ∧ b = charLitByte c

theorem charLitByte_toNat (h : c.toNat < 256) : (charLitByte c).toNat = c.toNat :=
  UInt8.toNat_ofNat_of_lt' h

/-- The characters of an escaped character constant. -/
theorem escapeCChar_toList (c : Char) :
    (escapeCChar c).toList =
      if c = '\n' then ['\\', 'n'] else if c = '\t' then ['\\', 't']
      else if c = '\r' then ['\\', 'r'] else if c = '\\' then ['\\', '\\']
      else if c = '\'' then ['\\', '\''] else if c = '\x00' then ['\\', '0'] else [c] := by
  rw [escapeCChar]
  split_ifs <;> simp

/-- The bytes of a constant are those of its character. -/
theorem readBody_escapeCChar (c : Char) :
    readBody '\'' (escapeCChar c).toList = some (String.utf8EncodeChar c) := by
  rw [escapeCChar_toList]
  split_ifs with hn ht hr hslash hquote hnul
  · subst hn
    rw [readBody_simple (by decide) (by decide) (by decide) (by decide) rfl, readBody_nil]
    decide
  · subst ht
    rw [readBody_simple (by decide) (by decide) (by decide) (by decide) rfl, readBody_nil]
    decide
  · subst hr
    rw [readBody_simple (by decide) (by decide) (by decide) (by decide) rfl, readBody_nil]
    decide
  · subst hslash
    rw [readBody_simple (by decide) (by decide) (by decide) (by decide) rfl, readBody_nil]
    decide
  · subst hquote
    rw [readBody_simple (by decide) (by decide) (by decide) (by decide) rfl, readBody_nil]
    decide
  · subst hnul
    rw [readBody_nul]
    simp only [octalTail_nil, length_nil, drop_zero, readBody_nil]
    decide
  · rw [readBody_plain hslash hquote hn, readBody_nil]
    simp

theorem utf8EncodeChar_ascii (h : c.toNat < 128) :
    String.utf8EncodeChar c = [charLitByte c] := by
  have hle : c.val.toNat ≤ 0x7f := Nat.le_of_lt_succ h
  simp only [String.utf8EncodeChar, if_pos hle]
  rfl

/-- From 128 to 255 a character has two bytes. -/
theorem utf8EncodeChar_latin (hlow : 128 ≤ c.toNat) (hhigh : c.toNat < 256) :
    String.utf8EncodeChar c =
      [UInt8.ofNat (c.toNat / 64 % 32 + 192), UInt8.ofNat (c.toNat % 64 + 128)] := by
  have hnot : ¬ c.val.toNat ≤ 0x7f := Nat.not_le_of_lt hlow
  have htwo : c.val.toNat ≤ 0x7ff := (Nat.le_of_lt hhigh).trans (by decide)
  simp only [String.utf8EncodeChar, if_neg hnot, if_pos htwo]
  rfl

/-- An ASCII character survives under every implementation. -/
theorem charSurvives_of_ascii (h : c.toNat < 128)
    (several : List UInt8 → Option Int) : CharSurvives several c := by
  refine ⟨charLitByte c, ?_, charLitByte_toNat (by omega), rfl⟩
  rw [readChar, readBody_escapeCChar, utf8EncodeChar_ascii h]

/-- The implementation that rejects constants of several characters. -/
theorem not_charSurvives_rejecting (hlow : 128 ≤ c.toNat) (hhigh : c.toNat < 256) :
    ¬ CharSurvives (fun _ => none) c := by
  rintro ⟨b, hb, -⟩
  rw [readChar, readBody_escapeCChar, utf8EncodeChar_latin hlow hhigh] at hb
  cases hb

/-- With the rule of GCC the constant has the second byte. -/
theorem readChar_gcc (hlow : 128 ≤ c.toNat) (hhigh : c.toNat < 256) :
    readChar gccChars (escapeCChar c).toList = some (UInt8.ofNat (c.toNat % 64 + 128)) := by
  rw [readChar, readBody_escapeCChar, utf8EncodeChar_latin hlow hhigh]
  have hbyte : ∀ b : UInt8, UInt8.ofInt (b.toNat : Int) = b := by
    intro b
    have hlt : b.toNat < 256 := b.toNat_lt
    apply UInt8.toNat_inj.mp
    rw [UInt8.ofInt, UInt8.toNat_ofNat']
    omega
  have hbase : UInt8.ofInt 256 = 0 := by decide
  simp only [gccChars, foldl_cons, foldl_nil, Option.map_some, UInt8.ofInt_add,
    UInt8.ofInt_mul, hbyte, hbase, UInt8.mul_zero, UInt8.zero_add]

theorem charSurvives_gcc_iff (h : c.toNat < 256) :
    CharSurvives gccChars c ↔ c.toNat < 192 := by
  rcases Nat.lt_or_ge c.toNat 128 with hlow | hlow
  · exact iff_of_true (charSurvives_of_ascii hlow _) (by omega)
  · have hcode : (UInt8.ofNat (c.toNat % 64 + 128)).toNat = c.toNat % 64 + 128 :=
      UInt8.toNat_ofNat_of_lt' (by change _ < 256; omega)
    constructor
    · rintro ⟨b, hb, hval, -⟩
      rw [readChar_gcc hlow h, Option.some.injEq] at hb
      rw [← hb, hcode] at hval
      omega
    · intro hsmall
      have hval : c.toNat % 64 + 128 = c.toNat := by omega
      rw [hval] at hcode
      refine ⟨charLitByte c, ?_, charLitByte_toNat h, rfl⟩
      rw [readChar_gcc hlow h, hval]
      rfl

/-- A string survives when it has no NUL before an octal digit. A character constant survives
under every implementation when the character is ASCII, and with GCC's rule below 192. -/
theorem literals_survive_iff (s : String) :
    (readBody '"' (escapeCString s).toList = some (utf8 s.toList) ↔ ¬ NulBeforeDigit s.toList) ∧
    ∀ c : Char, c.toNat < 256 →
      ((∀ several, CharSurvives several c) ↔ c.toNat < 128) ∧
      (CharSurvives gccChars c ↔ c.toNat < 192) := by
  constructor
  · rw [escapeCString_toList]
    exact readBody_escapeAll_iff s.toList
  · intro c hc
    constructor
    · constructor
      · intro hall
        by_contra hhigh
        exact not_charSurvives_rejecting (Nat.not_lt.mp hhigh) hc (hall _)
      · exact fun hlow several => charSurvives_of_ascii hlow several
    · exact charSurvives_gcc_iff hc

theorem literals_survive_tilde :
    (readBody '"' (escapeCString "a\x00b9").toList = some (utf8 "a\x00b9".toList) ↔
      ¬ NulBeforeDigit "a\x00b9".toList) ∧
    ((∀ several, CharSurvives several '~') ↔ '~'.toNat < 128) ∧
    (CharSurvives gccChars '~' ↔ '~'.toNat < 192) :=
  ⟨(literals_survive_iff _).1, (literals_survive_iff "").2 '~' (by decide)⟩

/-- NUL before `1` becomes the one byte 1, and with GCC's rule `é` becomes `©`. -/
theorem not_literals_survive :
    readBody '"' (escapeCString "\x001").toList ≠ some (utf8 "\x001".toList) ∧
      'é'.toNat < 256 ∧ ¬ CharSurvives gccChars 'é' := by
  refine ⟨?_, by decide, ?_⟩
  · rw [escapeCString_toList, ne_eq, readBody_escapeAll_iff, not_not]
    exact ⟨'1', by decide, infix_rfl⟩
  · rw [charSurvives_gcc_iff (by decide)]
    decide

end Mx

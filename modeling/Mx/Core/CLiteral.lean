import Mathlib

/-!
# Character and string literals in C

The bytes a literal stands for, read from the characters between its quotes. An octal escape
takes every octal digit that follows, up to three; a hexadecimal one takes all digits.
-/

namespace Mx.CLiteral

open List

/-- The UTF-8 bytes of a text. -/
def utf8 (cs : List Char) : List UInt8 := cs.flatMap String.utf8EncodeChar

/-- An octal digit. -/
def isOctal (c : Char) : Bool := '0' ≤ c && c ≤ '7'

/-- The value of one digit in any base up to sixteen. -/
def digitValue (c : Char) : Nat :=
  if c ≤ '9' then c.toNat - 48 else if c ≤ 'F' then c.toNat - 55 else c.toNat - 87

/-- A hexadecimal digit. -/
def isHex (c : Char) : Bool := c.isDigit || ('a' ≤ c && c ≤ 'f') || ('A' ≤ c && c ≤ 'F')

/-- The number that digits spell. -/
def valueOf (base : Nat) (ds : List Char) : Nat :=
  ds.foldl (fun v d => base * v + digitValue d) 0

/-- The escapes of one letter. -/
def simpleEscape : Char → Option UInt8
  | 'n' => some 10
  | 't' => some 9
  | 'r' => some 13
  | '\\' => some 92
  | '\'' => some 39
  | '"' => some 34
  | '?' => some 63
  | 'a' => some 7
  | 'b' => some 8
  | 'f' => some 12
  | 'v' => some 11
  | _ => none

/-- A universal character name with its number of digits. -/
def universalName (digits : Nat) (cs : List Char) : Option (List UInt8 × List Char) :=
  let ds := (cs.take digits).takeWhile isHex
  if ds.length = digits ∧ (valueOf 16 ds).isValidChar then
    some (String.utf8EncodeChar (Char.ofNat (valueOf 16 ds)), cs.drop digits)
  else none

/-- The bytes of an escape sequence, from what follows the backslash, and what follows it. -/
def escapeEnd : List Char → Option (List UInt8 × List Char)
  | [] => none
  | c :: cs =>
    if isOctal c then
      let ds := c :: (cs.take 2).takeWhile isOctal
      if valueOf 8 ds < 256 then
        some ([UInt8.ofNat (valueOf 8 ds)], cs.drop (ds.length - 1))
      else none
    else if c = 'x' then
      let ds := cs.takeWhile isHex
      if ds ≠ [] ∧ valueOf 16 ds < 256 then
        some ([UInt8.ofNat (valueOf 16 ds)], cs.drop ds.length)
      else none
    else if c = 'u' then universalName 4 cs
    else if c = 'U' then universalName 8 cs
    else (simpleEscape c).map fun b => ([b], cs)

theorem universalName_length {n : Nat} {cs : List Char} {bs : List UInt8} {rest : List Char}
    (h : universalName n cs = some (bs, rest)) : rest.length ≤ cs.length := by
  simp only [universalName] at h
  split at h
  · obtain ⟨-, rfl⟩ := Prod.mk.inj (Option.some.inj h)
    simp
  · cases h

theorem escapeEnd_length {cs : List Char} {bs : List UInt8} {rest : List Char}
    (h : escapeEnd cs = some (bs, rest)) : rest.length < cs.length := by
  cases cs with
  | nil => cases h
  | cons c cs =>
    simp only [escapeEnd] at h
    rw [length_cons, Nat.lt_succ_iff]
    split at h
    · split at h
      · obtain ⟨-, rfl⟩ := Prod.mk.inj (Option.some.inj h)
        simp
      · cases h
    split at h
    · split at h
      · obtain ⟨-, rfl⟩ := Prod.mk.inj (Option.some.inj h)
        simp
      · cases h
    split at h
    · exact universalName_length h
    split at h
    · exact universalName_length h
    · obtain ⟨b, -, hb⟩ := Option.map_eq_some_iff.mp h
      obtain ⟨-, rfl⟩ := Prod.mk.inj hb
      exact le_rfl

/-- The bytes between two quotes. A quote or a new line ends the literal early. -/
def readBody (quote : Char) (cs : List Char) : Option (List UInt8) :=
  match cs with
  | [] => some []
  | c :: cs =>
    if c = '\\' then
      match _h : escapeEnd cs with
      | none => none
      | some (bs, rest) => (readBody quote rest).map (bs ++ ·)
    else if c = quote ∨ c = '\n' then none
    else (readBody quote cs).map (String.utf8EncodeChar c ++ ·)
termination_by cs.length
decreasing_by
  · have := escapeEnd_length _h
    simp only [length_cons]
    omega
  · simp

/-- A character constant converted to `char`. What several bytes are worth is left to the
implementation, which may also reject them. -/
def readChar (several : List UInt8 → Option Int) (cs : List Char) : Option UInt8 :=
  match readBody '\'' cs with
  | some [b] => some b
  | some (b :: b' :: bs) => (several (b :: b' :: bs)).map UInt8.ofInt
  | _ => none

/-- The rule of GCC: the bytes are the digits of a number in base 256. -/
def gccChars (bs : List UInt8) : Option Int :=
  some (bs.foldl (fun v b => v * 256 + (b.toNat : Int)) 0)

section Reading

variable {quote c : Char} {cs : List Char}

@[simp] theorem readBody_nil : readBody quote [] = some [] := by rw [readBody]

theorem readBody_escape {bs : List UInt8} {rest : List Char} (h : escapeEnd cs = some (bs, rest)) :
    readBody quote ('\\' :: cs) = (readBody quote rest).map (bs ++ ·) := by
  rw [readBody]
  split
  · split
    · next h' => rw [h] at h'; cases h'
    · next h' =>
      rw [h] at h'
      obtain ⟨rfl, rfl⟩ := Prod.mk.inj (Option.some.inj h')
      rfl
  · contradiction

theorem readBody_plain (hslash : c ≠ '\\') (hquote : c ≠ quote) (hline : c ≠ '\n') :
    readBody quote (c :: cs) = (readBody quote cs).map (String.utf8EncodeChar c ++ ·) := by
  rw [readBody, if_neg hslash, if_neg (by simp [hquote, hline])]

/-- A letter escape stands for its one byte, whatever follows. -/
theorem readBody_simple {b : UInt8} (hoct : isOctal c = false)
    (hx : c ≠ 'x') (hu : c ≠ 'u') (hU : c ≠ 'U') (h : simpleEscape c = some b) :
    readBody quote ('\\' :: c :: cs) = (readBody quote cs).map (b :: ·) := by
  have hend : escapeEnd (c :: cs) = some ([b], cs) := by
    simp [escapeEnd, hoct, hx, hu, hU, h]
  exact readBody_escape hend

end Reading

/-! ## Octal escapes -/

/-- The octal digits an escape takes after its first. -/
def octalTail (cs : List Char) : List Char := (cs.take 2).takeWhile isOctal

@[simp] theorem octalTail_nil : octalTail [] = [] := rfl

theorem octalTail_of_not {c : Char} {cs : List Char} (h : isOctal c = false) :
    octalTail (c :: cs) = [] := by
  simp [octalTail, h]

theorem octalTail_length (cs : List Char) : (octalTail cs).length ≤ 2 :=
  (List.takeWhile_prefix _).length_le.trans (List.length_take_le 2 cs)

theorem isOctal_of_mem_octalTail {d : Char} {cs : List Char} (h : d ∈ octalTail cs) :
    isOctal d = true :=
  all_eq_true.mp all_takeWhile d h

theorem digitValue_octal {d : Char} (h : isOctal d = true) : digitValue d < 8 := by
  simp only [isOctal, Bool.and_eq_true, decide_eq_true_eq] at h
  obtain ⟨hlow, hhigh⟩ := h
  have hhigh : d.toNat ≤ 55 := hhigh
  have hnine : d ≤ '9' := (hhigh.trans (by decide) : d.toNat ≤ 57)
  rw [digitValue, if_pos hnine]
  omega

/-- `\0` with the digits it takes is below 64, and is 0 when it takes none. -/
theorem valueOf_zero_octal (cs : List Char) : valueOf 8 ('0' :: octalTail cs) < 64 := by
  have hdigits : ∀ d ∈ octalTail cs, digitValue d < 8 := fun d hd =>
    digitValue_octal (isOctal_of_mem_octalTail hd)
  have hlen := octalTail_length cs
  have hzero : digitValue '0' = 0 := by decide
  match octalTail cs, hdigits, hlen with
  | [], _, _ => simp [valueOf, hzero]
  | [a], hdigits, _ =>
    have ha := hdigits a (by simp)
    simp only [valueOf, foldl_cons, foldl_nil, hzero]
    omega
  | [a, b], hdigits, _ =>
    have ha := hdigits a (by simp)
    have hb := hdigits b (by simp)
    simp only [valueOf, foldl_cons, foldl_nil, hzero]
    omega

/-- `\0` swallows the octal digits after it. -/
theorem readBody_nul (quote : Char) (cs : List Char) :
    readBody quote ('\\' :: '0' :: cs) =
      (readBody quote (cs.drop (octalTail cs).length)).map
        (UInt8.ofNat (valueOf 8 ('0' :: octalTail cs)) :: ·) := by
  have hsmall := valueOf_zero_octal cs
  have hoct : isOctal '0' = true := by decide
  have hend : escapeEnd ('0' :: cs) =
      some ([UInt8.ofNat (valueOf 8 ('0' :: octalTail cs))], cs.drop (octalTail cs).length) := by
    rw [escapeEnd, if_pos hoct]
    change (if valueOf 8 ('0' :: octalTail cs) < 256 then _ else none) = _
    rw [if_pos (by omega)]
    rfl
  exact readBody_escape hend

end Mx.CLiteral

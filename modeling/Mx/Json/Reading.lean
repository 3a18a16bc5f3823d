import Mx.Json.Grammar
import Mx.Json.Parser

/-!
# What the parser reads

The parser reads the values of a tolerant grammar: any white space of Unicode, whatever the number
scanner takes and `parse::<f64>` understands, and strings with any characters in which a backslash
is an escape only in front of some.
-/

namespace Mx.Json

open Mx.Core List

/-! ## Strings -/

/-- The characters of a string up to its closing quote, where some characters stand for themselves
and a backslash starts an escape. -/
inductive Chars (plain : Char → Prop) (escape : List Char → List Char → List Char → Prop) :
    List Char → List Char → List Char → Prop where
  | done (t : List Char) : Chars plain escape ('"' :: t) [] t
  | plain {c : Char} {l s t : List Char} (hquote : c ≠ '"') (hslash : c ≠ '\\') (hc : plain c)
    (h : Chars plain escape l s t) : Chars plain escape (c :: l) (c :: s) t
  | escape {l r l' s t : List Char} (he : escape l r l') (h : Chars plain escape l' s t) :
    Chars plain escape ('\\' :: l) (r ++ s) t

section Chars

variable {plain : Char → Prop} {escape : List Char → List Char → List Char → Prop}

/-- A string in quotes. -/
def Quoted (plain : Char → Prop) (escape : List Char → List Char → List Char → Prop)
    (l s t : List Char) : Prop := ∃ l', l = '"' :: l' ∧ Chars plain escape l' s t

end Chars

/-! ## The tolerant grammar -/

/-- A backslash in front of any character. -/
def AnyEscape (l r t : List Char) : Prop := ∃ c, l = c :: t ∧ r = unescape c

/-- The characters that the scanner takes are a number. -/
def ScannedNumber (l : List Char) (x : F64) (t : List Char) : Prop :=
  (∃ c l', l = c :: l' ∧ (c = '-' ∨ c.isDigit = true)) ∧
    F64.parse (scanNumber l).1 = some x ∧ (scanNumber l).2 = t

/-- The tolerant grammar. -/
def tolerant : Lexis where
  ws := isWhitespace
  number := ScannedNumber
  string := Quoted (fun _ => True) AnyEscape

theorem isWhitespace_token {c : Char} (h : isWhitespace c = true) : isToken c = false := by
  by_contra htoken
  rw [Bool.not_eq_false, isToken, Bool.or_eq_true, contains_iff_mem] at htoken
  obtain hmem | hdigit := htoken
  · simp only [mem_cons, not_mem_nil, or_false] at hmem
    obtain rfl | rfl | rfl | rfl | rfl | rfl | rfl | rfl | rfl | rfl | rfl := hmem
    all_goals cases h
  · have hbounds : 48 ≤ c.toNat ∧ c.toNat ≤ 57 := by
      rw [Char.isDigit, Bool.and_eq_true, decide_eq_true_eq, decide_eq_true_eq] at hdigit
      exact hdigit
    simp only [isWhitespace, Bool.or_eq_true, Bool.and_eq_true, decide_eq_true_eq, beq_iff_eq] at h
    omega

theorem tolerant_proper : tolerant.Proper where
  ws_token _ := isWhitespace_token
  number_head _ _ _ h := h.1
  string_head _ _ _ h := h.imp fun _ h => h.1

/-! ## White space, strings and numbers -/

section Leaves

variable {l s t : List Char}

theorem skipWs_ws (l : List Char) : Ws isWhitespace l (skipWs l) := by
  induction l with
  | nil => exact .done []
  | cons c l ih =>
    rw [skipWs, dropWhile_cons]
    split
    · next hc => exact .skip hc ih
    · exact .done _

variable {c : Char}

theorem skipWs_token (hc : isToken c = true) (l : List Char) : skipWs (c :: l) = c :: l := by
  have hws : isWhitespace c = false := by
    by_contra h
    rw [Bool.not_eq_false] at h
    rw [isWhitespace_token h] at hc
    cases hc
  rw [skipWs, dropWhile_cons_of_neg (by rw [hws]; exact Bool.false_ne_true)]

theorem skipWs_eq (h : Ws isWhitespace l t) (ht : StartsToken t) : skipWs l = t := by
  induction h with
  | done l =>
    obtain ⟨c, l', rfl, hc⟩ := ht
    exact skipWs_token hc l'
  | skip hc _ ih =>
    rw [skipWs, dropWhile_cons_of_pos hc]
    exact ih ht

theorem Ws.length_le {ws : Char → Bool} (h : Ws ws l t) : t.length ≤ l.length := by
  induction h with
  | done => exact le_rfl
  | skip _ _ ih => exact Nat.le_succ_of_le ih

theorem stringLoop_plain (hquote : c ≠ '"') (hslash : c ≠ '\\') (l : List Char) :
    stringLoop (c :: l) =
      match stringLoop l with
      | .error e => .error e
      | .ok (s, l) => .ok (c :: s, l) := by
  refine (stringLoop.eq_5 c l (fun h _ => hslash h) hquote fun _ _ h _ => hslash h).trans ?_
  cases stringLoop l with
  | error e => rfl
  | ok r => rfl

theorem stringLoop_escape (c : Char) (l : List Char) :
    stringLoop ('\\' :: c :: l) =
      match stringLoop l with
      | .error e => .error e
      | .ok (s, l) => .ok (unescape c ++ s, l) := by
  refine (stringLoop.eq_4 c l).trans ?_
  cases stringLoop l with
  | error e => rfl
  | ok r => rfl

theorem chars_of_stringLoop (h : stringLoop l = .ok (s, t)) :
    Chars (fun _ => True) AnyEscape l s t := by
  fun_induction stringLoop l generalizing s with
  | case1 | case2 | case4 c l e _ _ | case6 => cases h
  | case3 l =>
    cases h
    exact .done _
  | case5 c l s' t' heq ih =>
    cases h
    exact .escape ⟨c, rfl, rfl⟩ (ih heq)
  | case7 c l hend hquote hslash s' t' heq ih =>
    have hplain : c ≠ '\\' := by
      rintro rfl
      cases l with
      | nil => exact hend rfl rfl
      | cons c' l => exact hslash c' l rfl rfl
    cases h
    exact .plain hquote hplain trivial (ih heq)

/-- The loop reads strings with any characters and escapes. -/
theorem stringLoop_iff :
    stringLoop l = .ok (s, t) ↔ Chars (fun _ => True) AnyEscape l s t := by
  refine ⟨chars_of_stringLoop, fun h => ?_⟩
  induction h with
  | done => rfl
  | plain hquote hslash _ _ ih => rw [stringLoop_plain hquote hslash, ih]
  | escape he _ ih =>
    obtain ⟨c, rfl, rfl⟩ := he
    rw [stringLoop_escape, ih]

theorem expect_token {ch : Char} (hch : isToken ch = true) (h : Ws isWhitespace l (ch :: t)) :
    expect ch l = .ok t := by
  rw [expect, skipWs_eq h ⟨ch, t, rfl, hch⟩]
  exact if_pos rfl

theorem ws_of_expect {ch : Char} (h : expect ch l = .ok t) : Ws isWhitespace l (ch :: t) := by
  have hws := skipWs_ws l
  rw [expect] at h
  cases hskip : skipWs l with
  | nil =>
    rw [hskip] at h
    cases h
  | cons c l' =>
    rw [hskip] at h hws
    by_cases hc : c = ch
    · simp only [if_pos hc] at h
      cases h
      rwa [hc] at hws
    · simp only [if_neg hc] at h
      cases h

theorem parseString_eq (h : tolerant.string l s t) {l₀ : List Char}
    (hw : Ws isWhitespace l₀ l) : parseString l₀ = .ok (s, t) := by
  obtain ⟨l', rfl, hchars⟩ := h
  rw [parseString, expect_token rfl hw]
  exact stringLoop_iff.mpr hchars

theorem string_of_parseString (h : parseString l = .ok (s, t)) :
    ∃ l₁, Ws isWhitespace l l₁ ∧ tolerant.string l₁ s t := by
  rw [parseString] at h
  cases hexpect : expect '"' l with
  | error e =>
    rw [hexpect] at h
    cases h
  | ok l' =>
    rw [hexpect] at h
    exact ⟨_, ws_of_expect hexpect, l', rfl, stringLoop_iff.mp h⟩

theorem string_of_quote (h : parseString ('"' :: l) = .ok (s, t)) :
    tolerant.string ('"' :: l) s t := by
  rw [parseString, expect_token rfl (.done _)] at h
  exact ⟨l, rfl, stringLoop_iff.mp h⟩

theorem Ws.trans {ws : Char → Bool} {u : List Char} (h : Ws ws l t) (h' : Ws ws t u) :
    Ws ws l u := by
  induction h with
  | done => exact h'
  | skip hc _ ih => exact .skip hc (ih h')

theorem Chars.length_lt {plain : Char → Prop} {escape : List Char → List Char → List Char → Prop}
    (hescape : ∀ l r t, escape l r t → t.length ≤ l.length) (h : Chars plain escape l s t) :
    t.length < l.length := by
  induction h with
  | done => exact Nat.lt_succ_self _
  | plain _ _ _ _ ih => exact Nat.lt_succ_of_lt ih
  | escape he _ ih => exact Nat.lt_succ_of_lt (Nat.lt_of_lt_of_le ih (hescape _ _ _ he))

theorem string_length_lt (h : tolerant.string l s t) : t.length < l.length := by
  obtain ⟨l', rfl, hchars⟩ := h
  refine Nat.lt_succ_of_lt (hchars.length_lt ?_)
  rintro l r t ⟨c, rfl, -⟩
  exact Nat.le_succ _

theorem numberLoop_length (n : Nat) (prev : Char) (l : List Char) :
    (numberLoop n prev l).2.length ≤ l.length := by
  induction l generalizing n prev with
  | nil => exact le_rfl
  | cons c l ih =>
    rw [numberLoop]
    split
    · split
      · exact le_rfl
      · exact Nat.le_succ_of_le (ih (n + 1) c)
    · exact le_rfl

theorem isNumberChar_of_isDigit (h : c.isDigit = true) : isNumberChar c = true := by
  simp [isNumberChar, h]

theorem scanNumber_minus (l : List Char) :
    scanNumber ('-' :: l) = ('-' :: (numberLoop 1 '-' l).1, (numberLoop 1 '-' l).2) := rfl

theorem scanNumber_digit (hc : c.isDigit = true) (l : List Char) :
    scanNumber (c :: l) = numberLoop 0 ' ' (c :: l) := by
  unfold scanNumber
  split
  · next heq =>
    rw [(List.cons.inj heq).1] at hc
    cases hc
  · rfl

theorem number_length_lt {x : F64} (h : tolerant.number l x t) : t.length < l.length := by
  obtain ⟨⟨c, l', rfl, hc⟩, -, rfl⟩ := h
  by_cases hminus : c = '-'
  · rw [hminus]
    exact Nat.lt_succ_of_le (numberLoop_length 1 '-' l')
  · have hdigit := hc.resolve_left hminus
    rw [scanNumber_digit hdigit, numberLoop, if_pos (isNumberChar_of_isDigit hdigit),
      if_neg (by omega)]
    exact Nat.lt_succ_of_le (numberLoop_length 1 c l')

end Leaves

/-! ## Values -/

section Values

mutual

theorem Value.length_lt {l t : List Char} {j : Json} :
    Value tolerant l j t → t.length < l.length
  | .nullLit _ | .trueLit _ | .falseLit _ => by
    simp only [length_cons]
    omega
  | .number h => number_length_lt h
  | .string h => string_length_lt h
  | .emptyArray h | .emptyObject h => by
    have hw := h.length_le
    rw [length_cons] at hw ⊢
    omega
  | .array h | .object h => Nat.lt_succ_of_lt h.length_lt

theorem Elements.length_lt {l t : List Char} {vs : List Json} :
    Elements tolerant l vs t → t.length < l.length
  | .last hw hv hend => by
    have hw := hw.length_le
    have hv := hv.length_lt
    have hend := hend.length_le
    rw [length_cons] at hend
    omega
  | .more hw hv hcomma hrest => by
    have hw := hw.length_le
    have hv := hv.length_lt
    have hcomma := hcomma.length_le
    have hrest := hrest.length_lt
    rw [length_cons] at hcomma
    omega

theorem Members.length_lt {l t : List Char} {entries : List (List Char × Json)} :
    Members tolerant l entries t → t.length < l.length
  | .last hw hk hcolon hval hv hend => by
    have hw := hw.length_le
    have hk := string_length_lt hk
    have hcolon := hcolon.length_le
    have hval := hval.length_le
    have hv := hv.length_lt
    have hend := hend.length_le
    rw [length_cons] at hcolon hend
    omega
  | .more hw hk hcolon hval hv hcomma hrest => by
    have hw := hw.length_le
    have hk := string_length_lt hk
    have hcolon := hcolon.length_le
    have hval := hval.length_le
    have hv := hv.length_lt
    have hcomma := hcomma.length_le
    have hrest := hrest.length_lt
    rw [length_cons] at hcolon hcomma
    omega

end

variable {l t : List Char} {j : Json}

theorem value_of_parseBool (h : parseBool l = .ok (j, t)) : Value tolerant l j t := by
  unfold parseBool at h
  split at h
  · cases h
    exact .trueLit _
  · cases h
    exact .falseLit _
  · cases h

theorem value_of_parseNull (h : parseNull l = .ok (j, t)) : Value tolerant l j t := by
  unfold parseNull at h
  split at h
  · cases h
    exact .nullLit _
  · cases h

theorem value_of_parseNumber {c : Char}
    (hc : c = '-' ∨ c.isDigit = true) (h : parseNumber (c :: l) = .ok (j, t)) :
    Value tolerant (c :: l) j t := by
  rw [parseNumber] at h
  cases hparse : F64.parse (scanNumber (c :: l)).1 with
  | none =>
    simp only [hparse] at h
    cases h
  | some x =>
    simp only [hparse] at h
    cases h
    exact .number ⟨⟨c, l, rfl, hc⟩, hparse, rfl⟩

/-- What the functions of the parser read to a depth. -/
structure ReadsAt (depth : Nat) : Prop where
  value : ∀ l j t, parseValue depth l = .ok (j, t) →
    ∃ l₁, Ws isWhitespace l l₁ ∧ Value tolerant l₁ j t
  array : ∀ l j t, parseArray depth l = .ok (j, t) → Value tolerant ('[' :: l) j t
  items : ∀ arr l j t, arrayLoop depth arr l = .ok (j, t) →
    ∃ vs, j = .array (arr ++ vs) ∧ Elements tolerant l vs t
  object : ∀ l j t, parseObject depth l = .ok (j, t) → Value tolerant ('\x7b' :: l) j t
  members : ∀ entries l j t, objectLoop depth entries l = .ok (j, t) →
    ∃ ms, j = .object (entries ++ ms) ∧ Members tolerant l ms t

theorem Elements.ws {l₁ : List Char} {vs : List Json} (hw : Ws isWhitespace l l₁)
    (h : Elements tolerant l₁ vs t) : Elements tolerant l vs t := by
  cases h with
  | last hw' hv hend => exact .last (hw.trans hw') hv hend
  | more hw' hv hcomma hrest => exact .more (hw.trans hw') hv hcomma hrest

theorem Members.ws {l₁ : List Char} {entries : List (List Char × Json)}
    (hw : Ws isWhitespace l l₁) (h : Members tolerant l₁ entries t) :
    Members tolerant l entries t := by
  cases h with
  | last hw' hk hcolon hval hv hend => exact .last (hw.trans hw') hk hcolon hval hv hend
  | more hw' hk hcolon hval hv hcomma hrest =>
    exact .more (hw.trans hw') hk hcolon hval hv hcomma hrest

variable {depth : Nat}

theorem ReadsAt.parseValue (h : ReadsAt depth) (hp : Json.parseValue (depth + 1) l = .ok (j, t)) :
    ∃ l₁, Ws isWhitespace l l₁ ∧ Value tolerant l₁ j t := by
  have hws := skipWs_ws l
  rw [Json.parseValue] at hp
  cases hskip : skipWs l with
  | nil =>
    rw [hskip] at hp
    cases hp
  | cons c l₁ =>
    rw [hskip] at hp hws
    refine ⟨c :: l₁, hws, ?_⟩
    dsimp only at hp
    split at hp
    · next hquote =>
      subst hquote
      cases hstr : parseString ('"' :: l₁) with
      | error e =>
        rw [hstr] at hp
        cases hp
      | ok r =>
        rw [hstr] at hp
        cases hp
        exact .string (string_of_quote hstr)
    split at hp
    · next hbrace =>
      subst hbrace
      exact h.object _ _ _ hp
    split at hp
    · next hbracket =>
      subst hbracket
      exact h.array _ _ _ hp
    split at hp
    · exact value_of_parseBool hp
    split at hp
    · exact value_of_parseNull hp
    split at hp
    · next hnumber => exact value_of_parseNumber hnumber hp
    · cases hp

theorem ReadsAt.arrayLoop (h : ReadsAt depth) {arr : List Json}
    (hp : Json.arrayLoop (depth + 1) arr l = .ok (j, t)) :
    ∃ vs, j = .array (arr ++ vs) ∧ Elements tolerant l vs t := by
  rw [Json.arrayLoop] at hp
  cases hv : Json.parseValue depth l with
  | error e =>
    rw [hv] at hp
    cases hp
  | ok r =>
    obtain ⟨v, l₂⟩ := r
    rw [hv] at hp
    obtain ⟨l₁, hw, hvalue⟩ := h.value _ _ _ hv
    have hws := skipWs_ws l₂
    dsimp only at hp
    split at hp
    · next heq =>
      rw [heq] at hws
      obtain ⟨vs, rfl, hrest⟩ := h.items _ _ _ _ hp
      exact ⟨v :: vs, by rw [append_assoc]; rfl, .more hw hvalue hws hrest⟩
    · next heq =>
      rw [heq] at hws
      cases hp
      exact ⟨[v], rfl, .last hw hvalue hws⟩
    · cases hp

theorem ReadsAt.objectLoop (h : ReadsAt depth) {entries : List (List Char × Json)}
    (hp : Json.objectLoop (depth + 1) entries l = .ok (j, t)) :
    ∃ ms, j = .object (entries ++ ms) ∧ Members tolerant l ms t := by
  rw [Json.objectLoop] at hp
  cases hkey : parseString (skipWs l) with
  | error e =>
    rw [hkey] at hp
    cases hp
  | ok r =>
    obtain ⟨key, l₂⟩ := r
    rw [hkey] at hp
    obtain ⟨l₁, hw, hstring⟩ := string_of_parseString hkey
    dsimp only at hp
    cases hcolon : expect ':' (skipWs l₂) with
    | error e =>
      rw [hcolon] at hp
      cases hp
    | ok l₃ =>
      rw [hcolon] at hp
      have hws := (skipWs_ws l₂).trans (ws_of_expect hcolon)
      dsimp only at hp
      cases hv : Json.parseValue depth l₃ with
      | error e =>
        rw [hv] at hp
        cases hp
      | ok r =>
        obtain ⟨v, l₅⟩ := r
        rw [hv] at hp
        obtain ⟨l₄, hw', hvalue⟩ := h.value _ _ _ hv
        have hws' := skipWs_ws l₅
        dsimp only at hp
        split at hp
        · next heq =>
          rw [heq] at hws'
          obtain ⟨ms, rfl, hrest⟩ := h.members _ _ _ _ hp
          exact ⟨(key, v) :: ms, by rw [append_assoc]; rfl,
            .more ((skipWs_ws l).trans hw) hstring hws hw' hvalue hws' hrest⟩
        · next heq =>
          rw [heq] at hws'
          cases hp
          exact ⟨[(key, v)], rfl,
            .last ((skipWs_ws l).trans hw) hstring hws hw' hvalue hws'⟩
        · cases hp

theorem ReadsAt.step (h : ReadsAt depth) : ReadsAt (depth + 1) where
  value _ _ _ hp := h.parseValue hp
  array l j t hp := by
    have hws := skipWs_ws l
    rw [Json.parseArray] at hp
    split at hp
    · next heq =>
      rw [heq] at hws
      cases hp
      exact .emptyArray hws
    · next heq =>
      obtain ⟨vs, rfl, helements⟩ := h.items _ _ _ _ hp
      exact .array (helements.ws hws)
  items _ _ _ _ hp := h.arrayLoop hp
  object l j t hp := by
    have hws := skipWs_ws l
    rw [Json.parseObject] at hp
    split at hp
    · next heq =>
      rw [heq] at hws
      cases hp
      exact .emptyObject hws
    · next heq =>
      obtain ⟨ms, rfl, hmembers⟩ := h.members _ _ _ _ hp
      exact .object (hmembers.ws hws)
  members _ _ _ _ hp := h.objectLoop hp

/-- What the parser reads is a value of the tolerant grammar. -/
theorem readsAt (depth : Nat) : ReadsAt depth := by
  induction depth with
  | zero => exact ⟨by nofun, by nofun, by nofun, by nofun, by nofun⟩
  | succ depth ih => exact ih.step

/-! ## All values are read -/

theorem skipWs_length (l : List Char) : (skipWs l).length ≤ l.length := (skipWs_ws l).length_le

theorem parseNumber_eq {x : F64} (h : tolerant.number l x t) :
    parseNumber l = .ok (.number x, t) := by
  obtain ⟨-, hparse, rfl⟩ := h
  rw [parseNumber, hparse]

theorem skipWs_value {l₁ : List Char} (hw : Ws isWhitespace l l₁)
    (h : Value tolerant l₁ j t) : skipWs l = l₁ := skipWs_eq hw (h.startsToken tolerant_proper)

/-- A number is read behind its first character. -/
theorem parseValue_number {l₁ : List Char} {x : F64}
    (hskip : skipWs l = l₁) (h : tolerant.number l₁ x t) :
    parseValue (depth + 1) l = .ok (.number x, t) := by
  obtain ⟨c, l', rfl, hc⟩ := h.1
  have hne : ∀ ch : Char, ¬(ch = '-' ∨ ch.isDigit = true) → c ≠ ch := by
    rintro ch hch rfl
    exact hch hc
  rw [parseValue, hskip]
  dsimp only
  rw [if_neg (hne '"' (by decide)), if_neg (hne '\x7b' (by decide)), if_neg (hne '[' (by decide)),
    if_neg fun h => h.elim (hne 't' (by decide)) (hne 'f' (by decide)),
    if_neg (hne 'n' (by decide)), if_pos hc]
  exact parseNumber_eq h

theorem parseValue_string {l₁ s : List Char} (hskip : skipWs l = l₁)
    (h : tolerant.string l₁ s t) : parseValue (depth + 1) l = .ok (.str s, t) := by
  have hstr := parseString_eq h (.done _)
  obtain ⟨l', rfl, -⟩ := h
  rw [parseValue, hskip]
  dsimp only
  rw [if_pos rfl, hstr]

theorem skipWs_skipWs (l : List Char) : skipWs (skipWs l) = skipWs l :=
  dropWhile_idempotent _ l

theorem parseArray_loop {vs : List Json} (h : Elements tolerant l vs t)
    (hloop : arrayLoop depth [] (skipWs l) = .ok (.array vs, t)) :
    parseArray (depth + 1) l = .ok (.array vs, t) := by
  rw [parseArray]
  split
  · next heq => exact absurd (heq ▸ skipWs_ws l) (h.not_end tolerant_proper)
  · exact hloop

theorem parseObject_loop {ms : List (List Char × Json)} (h : Members tolerant l ms t)
    (hloop : objectLoop depth [] (skipWs l) = .ok (.object ms, t)) :
    parseObject (depth + 1) l = .ok (.object ms, t) := by
  rw [parseObject]
  split
  · next heq => exact absurd (heq ▸ skipWs_ws l) (h.not_end tolerant_proper)
  · exact hloop

theorem arrayLoop_step {l₂ : List Char} {v : Json} (arr : List Json)
    (hv : parseValue depth l = .ok (v, l₂)) :
    arrayLoop (depth + 1) arr l =
      match skipWs l₂ with
      | ',' :: l => arrayLoop depth (arr ++ [v]) l
      | ']' :: l => .ok (.array (arr ++ [v]), l)
      | l => .error (.expectedEither ']' l) := by
  rw [arrayLoop, hv] <;> rfl

theorem objectLoop_step {l₁ l₂ l₃ l₅ k : List Char} {v : Json}
    (entries : List (List Char × Json)) (hskip : skipWs l = l₁) (hk : tolerant.string l₁ k l₂)
    (hcolon : Ws isWhitespace l₂ (':' :: l₃)) (hv : parseValue depth l₃ = .ok (v, l₅)) :
    objectLoop (depth + 1) entries l =
      match skipWs l₅ with
      | ',' :: l => objectLoop depth (entries ++ [(k, v)]) l
      | '\x7d' :: l => .ok (.object (entries ++ [(k, v)]), l)
      | l => .error (.expectedEither '\x7d' l) := by
  have hkey := parseString_eq hk (.done _)
  have hexpect : expect ':' (skipWs l₂) = .ok l₃ := by
    rw [skipWs_eq hcolon ⟨':', l₃, rfl, rfl⟩]
    exact expect_token rfl (.done _)
  rw [objectLoop, hskip, hkey]
  dsimp only
  rw [hexpect]
  dsimp only
  rw [hv] <;> rfl

mutual

/-- A value of the tolerant grammar is read. -/
theorem Value.parsed {l₁ t : List Char} {j : Json} :
    Value tolerant l₁ j t → ∀ (l : List Char) (depth : Nat), skipWs l = l₁ →
      3 * l₁.length + 1 ≤ depth → parseValue depth l = .ok (j, t)
  | .nullLit _, l, depth, hskip, hdepth | .trueLit _, l, depth, hskip, hdepth
  | .falseLit _, l, depth, hskip, hdepth => by
    obtain ⟨depth, rfl⟩ := Nat.exists_eq_succ_of_ne_zero (by omega : depth ≠ 0)
    rw [parseValue, hskip]
    rfl
  | .number h, l, depth, hskip, hdepth => by
    obtain ⟨depth, rfl⟩ := Nat.exists_eq_succ_of_ne_zero (by omega : depth ≠ 0)
    exact parseValue_number hskip h
  | .string h, l, depth, hskip, hdepth => by
    obtain ⟨depth, rfl⟩ := Nat.exists_eq_succ_of_ne_zero (by omega : depth ≠ 0)
    exact parseValue_string hskip h
  | .emptyArray h, l, depth, hskip, hdepth => by
    rw [length_cons] at hdepth
    obtain ⟨depth, rfl⟩ : ∃ n, depth = n + 2 := ⟨depth - 2, by omega⟩
    rw [parseValue, hskip]
    change parseArray (depth + 1) _ = _
    rw [parseArray, skipWs_eq h ⟨']', _, rfl, rfl⟩]
    rfl
  | .array h, l, depth, hskip, hdepth => by
    have hle := skipWs_length l
    rw [hskip] at hle
    rw [length_cons] at hdepth hle
    obtain ⟨depth, rfl⟩ : ∃ n, depth = n + 2 := ⟨depth - 2, by omega⟩
    rw [parseValue, hskip]
    change parseArray (depth + 1) _ = _
    have hloop := h.parsed _ [] depth (skipWs_skipWs _) (by omega)
    exact parseArray_loop h hloop
  | .emptyObject h, l, depth, hskip, hdepth => by
    rw [length_cons] at hdepth
    obtain ⟨depth, rfl⟩ : ∃ n, depth = n + 2 := ⟨depth - 2, by omega⟩
    rw [parseValue, hskip]
    change parseObject (depth + 1) _ = _
    rw [parseObject, skipWs_eq h ⟨'\x7d', _, rfl, rfl⟩]
    rfl
  | .object h, l, depth, hskip, hdepth => by
    rw [length_cons] at hdepth
    obtain ⟨depth, rfl⟩ : ∃ n, depth = n + 2 := ⟨depth - 2, by omega⟩
    rw [parseValue, hskip]
    change parseObject (depth + 1) _ = _
    have hloop := h.parsed _ [] depth (skipWs_skipWs _) (by omega)
    exact parseObject_loop h hloop

theorem Elements.parsed {l t : List Char} {vs : List Json} :
    Elements tolerant l vs t → ∀ (l' : List Char) (arr : List Json) (depth : Nat),
      skipWs l' = skipWs l → 3 * l.length + 2 ≤ depth →
        arrayLoop depth arr l' = .ok (.array (arr ++ vs), t)
  | .last hw hv hend, l', arr, depth, hskip, hdepth => by
    obtain ⟨depth, rfl⟩ := Nat.exists_eq_succ_of_ne_zero (by omega : depth ≠ 0)
    have hle := hw.length_le
    have hfirst := hv.parsed _ depth (hskip.trans (skipWs_value hw hv)) (by omega)
    rw [arrayLoop_step arr hfirst, skipWs_eq hend ⟨']', _, rfl, rfl⟩]
    rfl
  | .more hw hv hcomma hrest, l', arr, depth, hskip, hdepth => by
    obtain ⟨depth, rfl⟩ := Nat.exists_eq_succ_of_ne_zero (by omega : depth ≠ 0)
    have hle := hw.length_le
    have hlt := hv.length_lt
    have hle₃ := hcomma.length_le
    rw [length_cons] at hle₃
    have hfirst := hv.parsed _ depth (hskip.trans (skipWs_value hw hv)) (by omega)
    rw [arrayLoop_step arr hfirst, skipWs_eq hcomma ⟨',', _, rfl, rfl⟩]
    refine (hrest.parsed _ _ depth rfl (by omega)).trans ?_
    rw [append_assoc]
    rfl

theorem Members.parsed {l t : List Char} {ms : List (List Char × Json)} :
    Members tolerant l ms t → ∀ (l' : List Char) (entries : List (List Char × Json)) (depth : Nat),
      skipWs l' = skipWs l → 3 * l.length + 2 ≤ depth →
        objectLoop depth entries l' = .ok (.object (entries ++ ms), t)
  | .last hw hk hcolon hval hv hend, l', entries, depth, hskip, hdepth => by
    obtain ⟨depth, rfl⟩ := Nat.exists_eq_succ_of_ne_zero (by omega : depth ≠ 0)
    have hle := hw.length_le
    have hlt := string_length_lt hk
    have hle₃ := hcolon.length_le
    have hle₄ := hval.length_le
    rw [length_cons] at hle₃
    have hkey := hskip.trans (skipWs_eq hw (string_startsToken tolerant_proper hk))
    have hvalue := hv.parsed _ depth (skipWs_value hval hv) (by omega)
    rw [objectLoop_step entries hkey hk hcolon hvalue, skipWs_eq hend ⟨'\x7d', _, rfl, rfl⟩]
    rfl
  | .more hw hk hcolon hval hv hcomma hrest, l', entries, depth, hskip, hdepth => by
    obtain ⟨depth, rfl⟩ := Nat.exists_eq_succ_of_ne_zero (by omega : depth ≠ 0)
    have hle := hw.length_le
    have hlt := string_length_lt hk
    have hle₃ := hcolon.length_le
    have hle₄ := hval.length_le
    have hlt₅ := hv.length_lt
    have hle₆ := hcomma.length_le
    rw [length_cons] at hle₃ hle₆
    have hkey := hskip.trans (skipWs_eq hw (string_startsToken tolerant_proper hk))
    have hvalue := hv.parsed _ depth (skipWs_value hval hv) (by omega)
    rw [objectLoop_step entries hkey hk hcolon hvalue, skipWs_eq hcomma ⟨',', _, rfl, rfl⟩]
    refine (hrest.parsed _ _ depth rfl (by omega)).trans ?_
    rw [append_assoc]
    rfl

end

end Values

/-! ## Texts -/

/-- The parser reads what begins, behind white space, with a value of the tolerant grammar. -/
theorem parse_ok_iff {input : List Char} {j : Json} :
    parse input = .ok j ↔ ∃ l₁ t, Ws isWhitespace input l₁ ∧ Value tolerant l₁ j t := by
  have hws := skipWs_ws input
  have hle := skipWs_length input
  rw [parse]
  constructor
  · intro h
    cases hv : parseValue (4 * input.length + 4) (skipWs input) with
    | error e =>
      rw [hv] at h
      cases h
    | ok r =>
      obtain ⟨v, t⟩ := r
      rw [hv] at h
      cases h
      obtain ⟨l₁, hw, hvalue⟩ := (readsAt _).value _ _ _ hv
      exact ⟨l₁, t, hws.trans hw, hvalue⟩
  · rintro ⟨l₁, t, hw, hvalue⟩
    obtain rfl := skipWs_value hw hvalue
    rw [hvalue.parsed _ (4 * input.length + 4) (skipWs_skipWs _) (by omega)]

/-! ## The number scanner -/

section Scanner

variable {t : List Char} {c : Char}

/-- No number goes on here. -/
def NumEnd (t : List Char) : Prop := ∀ c t', t = c :: t' → isNumberChar c = false

theorem numberLoop_end (ht : NumEnd t) (n : Nat) (prev : Char) :
    numberLoop n prev t = ([], t) := by
  cases t with
  | nil => rfl
  | cons c t =>
    have hc := ht c t rfl
    rw [numberLoop, if_neg (by rw [hc]; exact Bool.false_ne_true)]

theorem numberLoop_cons (hc : isNumberChar c = true) {n : Nat} {prev : Char}
    (hsign : ¬((c = '+' ∨ c = '-') ∧ n > 1 ∧ prev ≠ 'e' ∧ prev ≠ 'E')) (t : List Char) :
    numberLoop n prev (c :: t) =
      (c :: (numberLoop (n + 1) c t).1, (numberLoop (n + 1) c t).2) := by
  rw [numberLoop, if_pos hc, if_neg hsign]

theorem isDigit_ne_sign (h : c.isDigit = true) : ¬(c = '+' ∨ c = '-') := by
  rintro (rfl | rfl)
  · cases h
  · cases h

/-- Digits are all taken; the last of them is no exponent. -/
theorem numberLoop_digits {ds : List Char} (hds : ∀ c ∈ ds, c.isDigit = true) (n : Nat)
    (prev : Char) (t : List Char) :
    ∃ n' prev', numberLoop n prev (ds ++ t) =
      (ds ++ (numberLoop n' prev' t).1, (numberLoop n' prev' t).2) := by
  induction ds generalizing n prev with
  | nil => exact ⟨n, prev, rfl⟩
  | cons d ds ih =>
    have hd := hds d mem_cons_self
    obtain ⟨n', prev', hrest⟩ := ih (fun c hc => hds c (mem_cons_of_mem d hc)) (n + 1) d
    refine ⟨n', prev', ?_⟩
    rw [cons_append, numberLoop_cons (isNumberChar_of_isDigit hd)
      (fun h => isDigit_ne_sign hd h.1), hrest]
    rfl

end Scanner

end Mx.Json

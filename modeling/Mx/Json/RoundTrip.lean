import Mx.Json.Reading

/-!
# Reading back what was written

The parser reads what the serializer wrote, with the same arrays, objects, integers and words. The
serializer writes more escapes than the parser knows: of a carriage return and of the control
characters other than line feeds and tabs, the backslash and what follows it stay in the string.
-/

namespace Mx.Json

open Mx.Core List

/-! ## Leaves of a value -/

mutual

/-- The numbers of a value. -/
def numbers : Json → List F64
  | .number x => [x]
  | .array items => itemNumbers items
  | .object entries => entryNumbers entries
  | _ => []

def itemNumbers : List Json → List F64
  | [] => []
  | item :: items => numbers item ++ itemNumbers items

def entryNumbers : List (List Char × Json) → List F64
  | [] => []
  | (_, val) :: entries => numbers val ++ entryNumbers entries

end

mutual

/-- The strings of a value, with its keys. -/
def strings : Json → List (List Char)
  | .str s => [s]
  | .array items => itemStrings items
  | .object entries => entryStrings entries
  | _ => []

def itemStrings : List Json → List (List Char)
  | [] => []
  | item :: items => strings item ++ itemStrings items

def entryStrings : List (List Char × Json) → List (List Char)
  | [] => []
  | (key, val) :: entries => key :: (strings val ++ entryStrings entries)

end

/-- An integer of at most 53 bits. -/
def SmallInt (x : F64) : Prop := ∃ n : Int, n.natAbs < 2 ^ 53 ∧ x = .ofInt n

/-! ## What comes back -/

/-- The characters whose escapes the parser does not know. -/
def isLost (c : Char) : Bool := c == '\r' || (c.toNat < 32 && c != '\n' && c != '\t')

/-- What comes back of a character. -/
def kept (c : Char) : List Char := if isLost c then writeChar c else [c]

mutual

/-- What comes back of a value. -/
def readBack : Json → Json
  | .str s => .str (s.flatMap kept)
  | .array items => .array (readBackItems items)
  | .object entries => .object (readBackEntries entries)
  | j => j

def readBackItems : List Json → List Json
  | [] => []
  | item :: items => readBack item :: readBackItems items

def readBackEntries : List (List Char × Json) → List (List Char × Json)
  | [] => []
  | (key, val) :: entries => (key.flatMap kept, readBack val) :: readBackEntries entries

end

/-! ## Strings -/

section Strings

variable {c : Char} {l s t ds : List Char}

theorem Chars.plains {plain : Char → Prop} {escape : List Char → List Char → List Char → Prop}
    (hds : ∀ c ∈ ds, c ≠ '"' ∧ c ≠ '\\' ∧ plain c) (h : Chars plain escape l s t) :
    Chars plain escape (ds ++ l) (ds ++ s) t := by
  induction ds with
  | nil => exact h
  | cons d ds ih =>
    obtain ⟨hquote, hslash, hplain⟩ := hds d mem_cons_self
    exact .plain hquote hslash hplain (ih fun c hc => hds c (mem_cons_of_mem d hc))

theorem hex4_plain {n : Nat} (h : n < 32) : ∀ c ∈ hex4 n, c ≠ '"' ∧ c ≠ '\\' := by
  have hall : ∀ n < 32, (hex4 n).all (fun c => c ≠ '"' ∧ c ≠ '\\') = true := by decide
  exact fun c hc => of_decide_eq_true (all_eq_true.mp (hall n h) c hc)

theorem isLost_iff : isLost c = true ↔ c = '\r' ∨ c.toNat < 32 ∧ c ≠ '\n' ∧ c ≠ '\t' := by
  simp [isLost, and_assoc]

theorem writeChar_control (hc : c.toNat < 32) (hnewline : c ≠ '\n') (htab : c ≠ '\t')
    (hreturn : c ≠ '\r') : writeChar c = '\\' :: 'u' :: hex4 c.toNat := by
  have hquote : c ≠ '"' := by
    rintro rfl
    exact absurd hc (by decide)
  have hslash : c ≠ '\\' := by
    rintro rfl
    exact absurd hc (by decide)
  rw [writeChar, if_neg hquote, if_neg hslash, if_neg hnewline, if_neg htab, if_neg hreturn,
    if_pos hc]

/-- A written character is read as what is kept of it. -/
theorem chars_writeChar (c : Char) (h : Chars (fun _ => True) AnyEscape l s t) :
    Chars (fun _ => True) AnyEscape (writeChar c ++ l) (kept c ++ s) t := by
  by_cases hlost : isLost c = true
  · rw [kept, if_pos hlost]
    by_cases hreturn : c = '\r'
    · rw [hreturn]
      exact .escape ⟨'r', rfl, rfl⟩ h
    · obtain ⟨hc, hnewline, htab⟩ := (isLost_iff.mp hlost).resolve_left hreturn
      have hhex : ∀ d ∈ hex4 c.toNat, d ≠ '"' ∧ d ≠ '\\' ∧ True := by
        intro d hd
        obtain ⟨hquote, hslash⟩ := hex4_plain hc d hd
        exact ⟨hquote, hslash, trivial⟩
      rw [writeChar_control hc hnewline htab hreturn]
      have hrest := h.plains hhex
      exact .escape (r := ['\\', 'u']) ⟨'u', rfl, rfl⟩ hrest
  · rw [kept, if_neg hlost]
    rw [isLost_iff] at hlost
    push Not at hlost
    rw [writeChar]
    split
    · next hquote =>
      rw [hquote]
      exact .escape ⟨'"', rfl, rfl⟩ h
    split
    · next hslash =>
      rw [hslash]
      exact .escape ⟨'\\', rfl, rfl⟩ h
    split
    · next hnewline =>
      rw [hnewline]
      exact .escape ⟨'n', rfl, rfl⟩ h
    split
    · next htab =>
      rw [htab]
      exact .escape ⟨'t', rfl, rfl⟩ h
    rw [if_neg hlost.1]
    split
    · next hnewline htab hc => exact absurd (hlost.2 hc hnewline) htab
    · next hquote hslash _ _ _ => exact .plain hquote hslash trivial h

theorem chars_writeChars (s t : List Char) :
    Chars (fun _ => True) AnyEscape (s.flatMap writeChar ++ '"' :: t) (s.flatMap kept) t := by
  induction s with
  | nil => exact .done t
  | cons c s ih =>
    rw [flatMap_cons, flatMap_cons, append_assoc]
    exact chars_writeChar c ih

theorem string_writeStr (s t : List Char) :
    tolerant.string (writeStr s ++ t) (s.flatMap kept) t := by
  refine ⟨s.flatMap writeChar ++ '"' :: t, ?_, chars_writeChars s t⟩
  rw [writeStr, cons_append, append_assoc]
  rfl

theorem length_kept (c : Char) : 1 + (if isLost c then 1 else 0) ≤ (kept c).length := by
  rw [kept]
  split
  · next hlost =>
    by_cases hreturn : c = '\r'
    · rw [hreturn]
      exact Nat.le_refl 2
    · obtain ⟨hc, hnewline, htab⟩ := (isLost_iff.mp hlost).resolve_left hreturn
      rw [writeChar_control hc hnewline htab hreturn, length_cons, length_cons]
      omega
  · exact Nat.le_refl 1

/-- Every character that is lost makes the string longer. -/
theorem length_flatMap_kept (s : List Char) :
    s.length + s.countP isLost ≤ (s.flatMap kept).length := by
  induction s with
  | nil => exact Nat.le_refl 0
  | cons c s ih =>
    have hc := length_kept c
    rw [flatMap_cons, length_append, length_cons, countP_cons]
    omega

theorem flatMap_kept_iff {s : List Char} : s.flatMap kept = s ↔ ∀ c ∈ s, isLost c = false := by
  constructor
  · intro h c hc
    have hlength := length_flatMap_kept s
    rw [h] at hlength
    have hnone : s.countP isLost = 0 := by omega
    rw [← Bool.not_eq_true]
    exact countP_eq_zero.mp hnone c hc
  · intro h
    have hkept : s.flatMap kept = s.flatMap fun c => [c] := by
      refine flatMap_congr fun c hc => ?_
      rw [kept, h c hc]
      rfl
    rw [hkept, flatMap_singleton']

end Strings

/-! ## Numbers -/

section Numbers

variable {n : Int} {t : List Char}

theorem digits_isDigit (n : Nat) : ∀ c ∈ Nat.toDigits 10 n, c.isDigit = true := by
  intro c hc
  exact Nat.isDigit_of_mem_toDigits (by omega) (Nat.le_refl 10) hc

theorem digits_cons (n : Nat) :
    ∃ c ds, Nat.toDigits 10 n = c :: ds ∧ c.isDigit = true := by
  cases hdigits : Nat.toDigits 10 n with
  | nil => exact absurd hdigits Nat.toDigits_ne_nil
  | cons c ds =>
    refine ⟨c, ds, rfl, digits_isDigit n c ?_⟩
    rw [hdigits]
    exact mem_cons_self

theorem showInt_head (n : Int) (t : List Char) :
    ∃ c l, showInt n ++ t = c :: l ∧ (c = '-' ∨ c.isDigit = true) := by
  obtain ⟨c, ds, hdigits, hc⟩ := digits_cons n.natAbs
  rw [showInt, hdigits]
  split
  · exact ⟨'-', c :: ds ++ t, rfl, .inl rfl⟩
  · exact ⟨c, ds ++ t, rfl, .inr hc⟩

/-- The scanner takes a written integer. -/
theorem scanNumber_showInt (n : Int) (ht : NumEnd t) :
    scanNumber (showInt n ++ t) = (showInt n, t) := by
  have hloop : ∀ k prev, numberLoop k prev (Nat.toDigits 10 n.natAbs ++ t) =
      (Nat.toDigits 10 n.natAbs, t) := by
    intro k prev
    obtain ⟨k', prev', h⟩ := numberLoop_digits (digits_isDigit n.natAbs) k prev t
    rw [h, numberLoop_end ht, append_nil]
  obtain ⟨c, ds, hdigits, hc⟩ := digits_cons n.natAbs
  rw [showInt]
  split
  · rw [cons_append, scanNumber_minus, hloop]
  · rw [← hloop 0 ' ', hdigits, cons_append, scanNumber_digit hc]

/-- A written integer is its own value. -/
theorem parse_showInt (n : Int) : F64.parse (showInt n) = some (.ofInt n) := by
  have hunsigned : ∀ neg, F64.parseUnsigned neg (Nat.toDigits 10 n.natAbs) =
      some (.ofRatio neg n.natAbs 1) := by
    intro neg
    rw [F64.parseUnsigned_digits Nat.toDigits_ne_nil (digits_isDigit _), F64.ofDigits,
      Nat.ofDigitChars_ten_toDigits]
  obtain ⟨c, ds, hdigits, hc⟩ := digits_cons n.natAbs
  rw [showInt, F64.ofInt]
  split
  · next hneg => rw [decide_eq_true hneg, ← hunsigned, hdigits, F64.parse_neg hc]
  · next hneg => rw [decide_eq_false hneg, ← hunsigned, hdigits, F64.parse_digit hc]

theorem writeNumber_smallInt (display : F64 → List Char) (h : n.natAbs < 2 ^ 53) :
    writeNumber display (.ofInt n) = showInt n := by
  have hfinite := F64.isFinite_ofInt h
  rw [writeNumber, F64.toI64_ofInt h, F64.eq_self hfinite, hfinite]
  rfl

theorem number_writeNumber (display : F64 → List Char) {x : F64} (hx : SmallInt x)
    (ht : NumEnd t) : tolerant.number (writeNumber display x ++ t) x t := by
  obtain ⟨n, hn, rfl⟩ := hx
  rw [writeNumber_smallInt display hn]
  refine ⟨showInt_head n t, ?_, ?_⟩
  · rw [scanNumber_showInt n ht]
    exact parse_showInt n
  · rw [scanNumber_showInt n ht]

end Numbers

/-! ## Values -/

theorem numEnd_cons (c : Char) (hc : isNumberChar c = false) (t : List Char) :
    NumEnd (c :: t) := by
  rintro c' t' heq
  rwa [← (List.cons.inj heq).1]

section Values

variable (display : F64 → List Char)

mutual

/-- A written value is read as what comes back of it. -/
theorem value_writeTo {t : List Char} (ht : NumEnd t) :
    ∀ j : Json, (∀ x ∈ numbers j, SmallInt x) →
      Value tolerant (writeTo display j ++ t) (readBack j) t
  | .null, _ => .nullLit t
  | .bool true, _ => .trueLit t
  | .bool false, _ => .falseLit t
  | .number x, hx => .number (number_writeNumber display (hx x (mem_singleton.mpr rfl)) ht)
  | .str s, _ => .string (string_writeStr s t)
  | .array [], _ => .emptyArray (.done _)
  | .array (item :: items), hx => by
    have hitems := elements_writeItems t (item :: items) (cons_ne_nil _ _) hx
    rw [writeTo, cons_append, append_assoc]
    exact .array hitems
  | .object [], _ => .emptyObject (.done _)
  | .object (entry :: entries), hx => by
    have hentries := members_writeEntries t (entry :: entries) (cons_ne_nil _ _) hx
    rw [writeTo, cons_append, append_assoc]
    exact .object hentries

theorem elements_writeItems (t : List Char) :
    ∀ items : List Json, items ≠ [] → (∀ x ∈ itemNumbers items, SmallInt x) →
      Elements tolerant (writeItems display items ++ ']' :: t) (readBackItems items) t
  | [], hne, _ => absurd rfl hne
  | [item], _, hx => by
    have hitem := value_writeTo (numEnd_cons ']' rfl t) item fun x h =>
      hx x (mem_append_left _ h)
    exact .last (.done _) hitem (.done _)
  | item :: next :: items, _, hx => by
    have hrest := elements_writeItems t (next :: items) (cons_ne_nil _ _) fun x h =>
      hx x (mem_append_right _ h)
    have hitem := value_writeTo
      (numEnd_cons ',' rfl (writeItems display (next :: items) ++ ']' :: t)) item fun x h =>
        hx x (mem_append_left _ h)
    rw [writeItems, append_assoc]
    exact .more (.done _) hitem (.done _) hrest

theorem members_writeEntries (t : List Char) :
    ∀ entries : List (List Char × Json), entries ≠ [] →
      (∀ x ∈ entryNumbers entries, SmallInt x) →
      Members tolerant (writeEntries display entries ++ '\x7d' :: t) (readBackEntries entries) t
  | [], hne, _ => absurd rfl hne
  | [(key, val)], _, hx => by
    have hval := value_writeTo (numEnd_cons '\x7d' rfl t) val fun x h =>
      hx x (mem_append_left _ h)
    rw [writeEntries, append_assoc]
    exact .last (.done _) (string_writeStr key _) (.done _) (.done _) hval (.done _)
  | (key, val) :: next :: entries, _, hx => by
    have hrest := members_writeEntries t (next :: entries) (cons_ne_nil _ _) fun x h =>
      hx x (mem_append_right _ h)
    have hval := value_writeTo
      (numEnd_cons ',' rfl (writeEntries display (next :: entries) ++ '\x7d' :: t)) val fun x h =>
        hx x (mem_append_left _ h)
    rw [writeEntries, append_assoc, cons_append, append_assoc]
    exact .more (.done _) (string_writeStr key _) (.done _) (.done _) hval (.done _) hrest

end

/-- The parser reads what comes back of a value. -/
theorem parse_serialize {j : Json} (h : ∀ x ∈ numbers j, SmallInt x) :
    parse (serialize display j) = .ok (readBack j) := by
  have hend : NumEnd [] := fun _ _ h => nomatch h
  have hvalue := value_writeTo display hend j h
  rw [append_nil] at hvalue
  exact parse_ok_iff.mpr ⟨_, [], .done _, hvalue⟩

mutual

/-- A value comes back when no character of its strings is lost. -/
theorem readBack_eq_iff : ∀ j : Json, readBack j = j ↔ ∀ s ∈ strings j, ∀ c ∈ s, isLost c = false
  | .null | .bool b | .number x => by simp [readBack, strings]
  | .str s => by simp [readBack, strings, flatMap_kept_iff]
  | .array items => by
    rw [readBack, strings, Json.array.injEq]
    exact readBackItems_eq_iff items
  | .object entries => by
    rw [readBack, strings, Json.object.injEq]
    exact readBackEntries_eq_iff entries

theorem readBackItems_eq_iff : ∀ items : List Json,
    readBackItems items = items ↔ ∀ s ∈ itemStrings items, ∀ c ∈ s, isLost c = false
  | [] => by simp [readBackItems, itemStrings]
  | item :: items => by
    rw [readBackItems, itemStrings, List.cons.injEq, readBack_eq_iff item,
      readBackItems_eq_iff items, forall_mem_append]

theorem readBackEntries_eq_iff : ∀ entries : List (List Char × Json),
    readBackEntries entries = entries ↔ ∀ s ∈ entryStrings entries, ∀ c ∈ s, isLost c = false
  | [] => by simp [readBackEntries, entryStrings]
  | (key, val) :: entries => by
    rw [readBackEntries, entryStrings, List.cons.injEq, Prod.mk.injEq, flatMap_kept_iff,
      readBack_eq_iff val, readBackEntries_eq_iff entries, forall_mem_cons,
      forall_mem_append, and_assoc]

end

/-- A value of integers comes back exactly when no string or key in it has a carriage return or
another control character than line feeds and tabs. -/
theorem parse_serialize_iff (j : Json) (h : ∀ x ∈ numbers j, SmallInt x) :
    parse (serialize display j) = .ok j ↔ ∀ s ∈ strings j, ∀ c ∈ s,
      ¬(c = '\r' ∨ c.toNat < 32 ∧ c ≠ '\n' ∧ c ≠ '\t') := by
  rw [parse_serialize display h, Except.ok.injEq, readBack_eq_iff]
  refine forall₂_congr fun s _ => forall₂_congr fun c _ => ?_
  rw [← isLost_iff, Bool.not_eq_true]

end Values

/-- A command with its argument. -/
theorem parse_serialize_iff_command :
    parse (serialize (fun _ => [])
      (.object [(['k', '\n'], .array [.number (.ofInt (-7)), .null])])) =
      .ok (.object [(['k', '\n'], .array [.number (.ofInt (-7)), .null])]) := by
  refine (parse_serialize_iff (fun _ => []) _ ?_).mpr ?_
  · intro x hx
    obtain rfl := mem_singleton.mp hx
    exact ⟨-7, by decide, rfl⟩
  · intro s hs c hc
    obtain rfl := mem_singleton.mp hs
    simp only [mem_cons, not_mem_nil, or_false] at hc
    obtain rfl | rfl := hc
    · decide
    · decide

/-- A carriage return comes back as a backslash and a letter. -/
theorem parse_serialize_return : ¬∀ (display : F64 → List Char) (j : Json),
    (∀ x ∈ numbers j, SmallInt x) → parse (serialize display j) = .ok j := by
  intro h
  have hback := h (fun _ => []) (.str ['\r']) (fun _ hx => nomatch hx)
  have hlost : parse (serialize (fun _ => []) (.str ['\r'])) = .ok (.str ['\\', 'r']) := rfl
  rw [hlost] at hback
  simp at hback

end Mx.Json

import Mx.Json.Value

/-!
# Grammars of JSON

The grammar of values over white space, numbers and strings of any kind, as a relation between the
characters to be read, the value, and the characters that are left.
-/

namespace Mx.Json

open Mx.Core

/-- The white space, the numbers and the strings of a grammar. -/
structure Lexis where
  ws : Char → Bool
  number : List Char → F64 → List Char → Prop
  string : List Char → List Char → List Char → Prop

/-- Some white space is passed. -/
inductive Ws (ws : Char → Bool) : List Char → List Char → Prop where
  | done (l : List Char) : Ws ws l l
  | skip {c : Char} {l t : List Char} (hc : ws c = true) (h : Ws ws l t) : Ws ws (c :: l) t

mutual

/-- A value is read. -/
inductive Value (L : Lexis) : List Char → Json → List Char → Prop where
  | nullLit (t : List Char) : Value L ('n' :: 'u' :: 'l' :: 'l' :: t) .null t
  | trueLit (t : List Char) : Value L ('t' :: 'r' :: 'u' :: 'e' :: t) (.bool true) t
  | falseLit (t : List Char) : Value L ('f' :: 'a' :: 'l' :: 's' :: 'e' :: t) (.bool false) t
  | number {l t : List Char} {x : F64} (h : L.number l x t) : Value L l (.number x) t
  | string {l s t : List Char} (h : L.string l s t) : Value L l (.str s) t
  | emptyArray {l t : List Char} (h : Ws L.ws l (']' :: t)) : Value L ('[' :: l) (.array []) t
  | array {l t : List Char} {items : List Json} (h : Elements L l items t) :
    Value L ('[' :: l) (.array items) t
  | emptyObject {l t : List Char} (h : Ws L.ws l ('\x7d' :: t)) :
    Value L ('\x7b' :: l) (.object []) t
  | object {l t : List Char} {entries : List (List Char × Json)} (h : Members L l entries t) :
    Value L ('\x7b' :: l) (.object entries) t

/-- The elements of an array are read, with its end. -/
inductive Elements (L : Lexis) : List Char → List Json → List Char → Prop where
  | last {l l₁ l₂ t : List Char} {v : Json} (hw : Ws L.ws l l₁) (hv : Value L l₁ v l₂)
    (hend : Ws L.ws l₂ (']' :: t)) : Elements L l [v] t
  | more {l l₁ l₂ l₃ t : List Char} {v : Json} {vs : List Json} (hw : Ws L.ws l l₁)
    (hv : Value L l₁ v l₂) (hcomma : Ws L.ws l₂ (',' :: l₃)) (hrest : Elements L l₃ vs t) :
    Elements L l (v :: vs) t

/-- The members of an object are read, with its end. -/
inductive Members (L : Lexis) : List Char → List (List Char × Json) → List Char → Prop where
  | last {l l₁ l₂ l₃ l₄ l₅ t k : List Char} {v : Json} (hw : Ws L.ws l l₁)
    (hk : L.string l₁ k l₂) (hcolon : Ws L.ws l₂ (':' :: l₃)) (hw' : Ws L.ws l₃ l₄)
    (hv : Value L l₄ v l₅) (hend : Ws L.ws l₅ ('\x7d' :: t)) : Members L l [(k, v)] t
  | more {l l₁ l₂ l₃ l₄ l₅ l₆ t k : List Char} {v : Json} {entries : List (List Char × Json)}
    (hw : Ws L.ws l l₁) (hk : L.string l₁ k l₂) (hcolon : Ws L.ws l₂ (':' :: l₃))
    (hw' : Ws L.ws l₃ l₄) (hv : Value L l₄ v l₅) (hcomma : Ws L.ws l₅ (',' :: l₆))
    (hrest : Members L l₆ entries t) : Members L l ((k, v) :: entries) t

end

/-! ## What values start with -/

/-- The characters that values, commas and ends start with. -/
def isToken (c : Char) : Bool :=
  ['"', '[', ']', '\x7b', '\x7d', ',', ':', '-', 't', 'f', 'n'].contains c || c.isDigit

/-- Numbers and strings start as usual, and white space is none of the characters of the grammar. -/
structure Lexis.Proper (L : Lexis) : Prop where
  ws_token : ∀ c, L.ws c = true → isToken c = false
  number_head : ∀ l x t, L.number l x t → ∃ c l', l = c :: l' ∧ (c = '-' ∨ c.isDigit = true)
  string_head : ∀ l s t, L.string l s t → ∃ l', l = '"' :: l'

section Heads

variable {L : Lexis}

/-- A character of the grammar comes first. -/
def StartsToken (l : List Char) : Prop := ∃ c l', l = c :: l' ∧ isToken c = true

theorem Ws.unique (hL : L.Proper) {l t t' : List Char} (h : Ws L.ws l t) (h' : Ws L.ws l t')
    (ht : StartsToken t) (ht' : StartsToken t') : t = t' := by
  induction h with
  | done l =>
    cases h' with
    | done => rfl
    | skip hc _ =>
      obtain ⟨c, l, heq, htoken⟩ := ht
      rw [← (List.cons.inj heq).1, hL.ws_token _ hc] at htoken
      cases htoken
  | skip hc _ ih =>
    cases h' with
    | done =>
      obtain ⟨c, l, heq, htoken⟩ := ht'
      rw [← (List.cons.inj heq).1, hL.ws_token _ hc] at htoken
      cases htoken
    | skip _ h' => exact ih h' ht

theorem Lexis.Proper.string_first (hL : L.Proper) {c : Char} {l s t : List Char}
    (h : L.string (c :: l) s t) : c = '"' := by
  obtain ⟨l', heq⟩ := hL.string_head _ _ _ h
  exact (List.cons.inj heq).1

/-- The characters that values start with. -/
def isValueHead (c : Char) : Bool :=
  ['"', '[', '\x7b', '-', 't', 'f', 'n'].contains c || c.isDigit

theorem isToken_of_isValueHead {c : Char} (h : isValueHead c = true) : isToken c = true := by
  rw [isValueHead, Bool.or_eq_true] at h
  rw [isToken, Bool.or_eq_true]
  refine h.imp_left fun hmem => ?_
  simp only [List.contains_cons, List.contains_nil, Bool.or_false, Bool.or_eq_true] at hmem ⊢
  tauto

theorem isValueHead_of_number {c : Char} (h : c = '-' ∨ c.isDigit = true) :
    isValueHead c = true := by
  obtain rfl | hdigit := h
  · rfl
  · rw [isValueHead, hdigit, Bool.or_true]

theorem Value.head (hL : L.Proper) {l t : List Char} {j : Json} (h : Value L l j t) :
    ∃ c l', l = c :: l' ∧ isValueHead c = true := by
  cases h with
  | number h =>
    obtain ⟨c, l', rfl, hc⟩ := hL.number_head _ _ _ h
    exact ⟨c, l', rfl, isValueHead_of_number hc⟩
  | string h =>
    obtain ⟨l', rfl⟩ := hL.string_head _ _ _ h
    exact ⟨'"', l', rfl, rfl⟩
  | _ => exact ⟨_, _, rfl, rfl⟩

theorem Value.startsToken (hL : L.Proper) {l t : List Char} {j : Json} (h : Value L l j t) :
    StartsToken l := by
  obtain ⟨c, l', hl, hc⟩ := h.head hL
  exact ⟨c, l', hl, isToken_of_isValueHead hc⟩

theorem string_startsToken (hL : L.Proper) {l s t : List Char} (h : L.string l s t) :
    StartsToken l := by
  obtain ⟨l', hl⟩ := hL.string_head _ _ _ h
  exact ⟨'"', l', hl, rfl⟩

/-- In front of the end of an array there is no element. -/
theorem Elements.not_end (hL : L.Proper) {l t t' : List Char} {items : List Json}
    (h : Elements L l items t) : ¬Ws L.ws l (']' :: t') := by
  intro hend
  have hfirst : ∀ {l₁ l₂ : List Char} {v : Json}, Ws L.ws l l₁ → Value L l₁ v l₂ → False := by
    intro l₁ l₂ v hw hv
    obtain rfl := hw.unique hL hend (hv.startsToken hL) ⟨']', t', rfl, rfl⟩
    obtain ⟨c, l', heq, hc⟩ := hv.head hL
    rw [← (List.cons.inj heq).1] at hc
    cases hc
  cases h with
  | last hw hv _ => exact hfirst hw hv
  | more hw hv _ _ => exact hfirst hw hv

/-- In front of the end of an object there is no member. -/
theorem Members.not_end (hL : L.Proper) {l t t' : List Char} {entries : List (List Char × Json)}
    (h : Members L l entries t) : ¬Ws L.ws l ('\x7d' :: t') := by
  intro hend
  have hfirst : ∀ {l₁ l₂ k : List Char}, Ws L.ws l l₁ → L.string l₁ k l₂ → False := by
    intro l₁ l₂ k hw hk
    obtain rfl := hw.unique hL hend (string_startsToken hL hk) ⟨'\x7d', t', rfl, rfl⟩
    exact absurd (hL.string_first hk) (by decide)
  cases h with
  | last hw hk _ _ _ _ => exact hfirst hw hk
  | more hw hk _ _ _ _ _ => exact hfirst hw hk

end Heads

end Mx.Json

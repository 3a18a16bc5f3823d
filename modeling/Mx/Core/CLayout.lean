import Mx.Core.CGrammar

/-!
# Layouts of C expressions

A layout is a syntax tree together with the parentheses its text has. Its text parses back to
the tree if and only if every operand binds at least as strongly as its position requires and
no two operator characters run together to another token.
-/

namespace CGrammar

/-- A tree with explicit parentheses. -/
inductive Layout where
  | atom (a : Atom)
  | paren (a : Layout)
  | call₀ (f : Layout)
  | call (f arg : Layout)
  | args (arg rest : Layout)
  | index (a i : Layout)
  | field (a : Layout) (name : String)
  | arrow (a : Layout) (name : String)
  | pair (ty fst snd : String) (a b : Layout)
  | unary (o : Unary) (a : Layout)
  | cast (ty : String) (a : Layout)
  | sizeOfType (ty : String)
  | binary (o : Binary) (a b : Layout)
  | other (s : String)
  deriving DecidableEq, Repr

namespace Layout

/-- The tree without parentheses. -/
def tree : Layout → Tree
  | atom a => .atom a
  | paren a => a.tree
  | call₀ f => .call₀ f.tree
  | call f a => .call f.tree a.tree
  | args a b => .args a.tree b.tree
  | index a i => .index a.tree i.tree
  | field a name => .field a.tree name
  | arrow a name => .arrow a.tree name
  | pair ty fst snd a b => .pair ty fst snd a.tree b.tree
  | unary o a => .unary o a.tree
  | cast ty a => .cast ty a.tree
  | sizeOfType ty => .sizeOfType ty
  | binary o a b => .binary o a.tree b.tree
  | other s => .other s

open Token in
/-- The tokens of the parts, one after the other. -/
def tokens : Layout → List Token
  | atom a => [.atom a]
  | paren a => lparen :: (a.tokens ++ [rparen])
  | call₀ f => f.tokens ++ [lparen, rparen]
  | call f a => f.tokens ++ lparen :: (a.tokens ++ [rparen])
  | args a b => a.tokens ++ comma :: b.tokens
  | index a i => a.tokens ++ lbracket :: (i.tokens ++ [rbracket])
  | field a name => a.tokens ++ [dot, .atom (.ident name)]
  | arrow a name => a.tokens ++ [Token.arrow, .atom (.ident name)]
  | pair ty fst snd a b =>
    [lparen, typeName ty, rparen, lbrace, dot, .atom (.ident fst), assign] ++
      (a.tokens ++ comma :: ([dot, .atom (.ident snd), assign] ++ (b.tokens ++ [rbrace])))
  | unary o a => op o.text :: a.tokens
  | cast ty a => lparen :: typeName ty :: rparen :: a.tokens
  | sizeOfType ty => [op Unary.sizeOf.text, lparen, typeName ty, rparen]
  | binary o a b => a.tokens ++ op o.text :: b.tokens
  | other s => [.other s]

/-- How strongly the outermost part binds. -/
def strength : Layout → Nat
  | unary _ _ | cast _ _ | sizeOfType _ => 14
  | binary o _ _ => o.strength.getD 0
  | args _ _ => 1
  | _ => 15

/-- Every operand binds at least as strongly as its position requires. -/
def Grouped : Layout → Prop
  | atom _ | sizeOfType _ => True
  | paren a => a.Grouped ∧ 2 ≤ a.strength
  | call₀ f => f.Grouped ∧ 15 ≤ f.strength
  | call f a => (f.Grouped ∧ 15 ≤ f.strength) ∧ a.Grouped ∧ 1 ≤ a.strength
  | args a b => (a.Grouped ∧ 2 ≤ a.strength) ∧ b.Grouped ∧ 1 ≤ b.strength
  | index a i => (a.Grouped ∧ 15 ≤ a.strength) ∧ i.Grouped ∧ 2 ≤ i.strength
  | field a _ | arrow a _ => a.Grouped ∧ 15 ≤ a.strength
  | pair _ _ _ a b => (a.Grouped ∧ 2 ≤ a.strength) ∧ b.Grouped ∧ 2 ≤ b.strength
  | unary _ a | cast _ a => a.Grouped ∧ 14 ≤ a.strength
  | binary o a b => ∃ p, o.strength = some p ∧ (a.Grouped ∧ p ≤ a.strength) ∧
      b.Grouped ∧ p + 1 ≤ b.strength
  | other _ => False

theorem strip_tokens (l : Layout) : strip l.tokens = l.tree.tokens := by
  induction l <;> simp_all [tokens, tree, Tree.tokens, strip_cons, Token.isPlain]

theorem tokens_ne_nil (l : Layout) : l.tokens ≠ [] := by
  intro h
  have := l.strip_tokens
  rw [h] at this
  exact l.tree.tokens_ne_nil this.symm

theorem balanced_tokens (l : Layout) : Balanced l.tokens := by
  have htype : ∀ ty, Balanced [.lparen, .typeName ty, .rparen] := fun ty =>
    Balanced.paren (.singleton (x := .typeName ty) rfl)
  induction l with
  | atom a | other s => exact .singleton rfl
  | paren _ ih => exact ih.paren
  | call₀ _ ih => exact ih.append (Balanced.paren .nil)
  | call _ _ ihf iha => exact ihf.append iha.paren
  | args _ _ iha ihb | binary _ _ _ iha ihb => exact iha.append (.cons rfl ihb)
  | index _ _ iha ihi => exact iha.append (.cons rfl (ihi.append (.singleton rfl)))
  | field _ _ ih | arrow _ _ ih => exact ih.append (.cons rfl (.singleton rfl))
  | pair ty _ _ _ _ iha ihb =>
    refine (htype ty).append (.cons rfl (.cons rfl (.cons rfl (.cons rfl (iha.append ?_)))))
    exact .cons rfl (.cons rfl (.cons rfl (.cons rfl (ihb.append (.singleton rfl)))))
  | unary _ _ ih => exact .cons rfl ih
  | cast ty _ ih => exact (htype ty).append ih
  | sizeOfType ty => exact .cons rfl (htype ty)

/-! ## Grouped layouts parse -/

theorem Grouped.derives {l : Layout} (h : l.Grouped) : Derives l.strength l.tokens l.tree := by
  induction l with
  | atom a => exact .atom a
  | paren a ih => exact .paren (.weaken h.2 (ih h.1))
  | call₀ f ih => exact .call₀ (.weaken h.2 (ih h.1))
  | call f a ihf iha => exact .call (.weaken h.1.2 (ihf h.1.1)) (.weaken h.2.2 (iha h.2.1))
  | args a b iha ihb => exact .args (.weaken h.1.2 (iha h.1.1)) (.weaken h.2.2 (ihb h.2.1))
  | index a i iha ihi => exact .index (.weaken h.1.2 (iha h.1.1)) (.weaken h.2.2 (ihi h.2.1))
  | field a name ih => exact .field name (.weaken h.2 (ih h.1))
  | arrow a name ih => exact .arrow name (.weaken h.2 (ih h.1))
  | pair ty fst snd a b iha ihb =>
    exact .pair ty fst snd (.weaken h.1.2 (iha h.1.1)) (.weaken h.2.2 (ihb h.2.1))
  | unary o a ih => exact .unary o (.weaken h.2 (ih h.1))
  | cast ty a ih => exact .cast ty (.weaken h.2 (ih h.1))
  | sizeOfType ty => exact .sizeOfType ty
  | binary o a b iha ihb =>
    obtain ⟨p, ho, ⟨ha, hpa⟩, hb, hpb⟩ := h
    have hstrength : (binary o a b).strength = p := by simp [strength, ho]
    rw [hstrength]
    exact .binary ho (.weaken hpa (iha ha)) (.weaken hpb (ihb hb))
  | other s => exact h.elim

/-! ## Layouts that parse are grouped -/

/-- An operand in front of other tokens is not the inside of a pair of parentheses around all
of them. -/
theorem root_of_front {n : Nat} {l : Layout} {rest : List Token} {t : Tree} (hrest : rest ≠ [])
    (h : Derives n (l.tokens ++ rest) t) : n ≤ 15 ∧ Root n (l.tokens ++ rest) t := by
  obtain ⟨hn, ⟨xs, hxs, hx⟩ | hroot⟩ := h.root
  · exact (not_balanced_front l.balanced_tokens l.tokens_ne_nil hrest hx.balanced hxs).elim
  · exact ⟨hn, hroot⟩

theorem grouped_of_derives {n : Nat} {l : Layout} (h : Derives n l.tokens l.tree) :
    l.Grouped ∧ n ≤ l.strength := by
  induction l generalizing n with
  | atom a => exact ⟨trivial, h.root.1⟩
  | paren a ih =>
    have hin := ih (Derives.of_paren a.balanced_tokens h)
    exact ⟨hin, h.root.1⟩
  | call₀ f ih =>
    obtain ⟨hn, fs, heq, hf⟩ := root_of_front (by simp) h
    obtain rfl : f.tokens = fs := by simpa using heq
    exact ⟨ih hf, hn⟩
  | call f a ihf iha =>
    obtain ⟨hn, fs, as, heq, hf, ha⟩ := root_of_front (by simp) h
    obtain ⟨rfl, rfl⟩ := call_split_unique f.balanced_tokens hf.balanced a.balanced_tokens
      ha.balanced heq
    exact ⟨⟨ihf hf, iha ha⟩, hn⟩
  | args a b iha ihb =>
    obtain ⟨hn, h1, as, bs, heq, ha, hb⟩ := root_of_front (by simp) h
    obtain ⟨rfl, rfl⟩ := split_unique rfl heq (a.strip_tokens.trans ha.strip_eq.symm)
    exact ⟨⟨iha ha, ihb hb⟩, h1⟩
  | index a i iha ihi =>
    obtain ⟨hn, as, is, heq, ha, hi⟩ := root_of_front (by simp) h
    obtain ⟨rfl, hidx⟩ := split_unique rfl heq (a.strip_tokens.trans ha.strip_eq.symm)
    obtain rfl : i.tokens = is := by simpa using hidx
    exact ⟨⟨iha ha, ihi hi⟩, hn⟩
  | field a name ih | arrow a name ih =>
    obtain ⟨hn, as, heq, ha⟩ := root_of_front (by simp) h
    obtain rfl : a.tokens = as := by simpa using heq
    exact ⟨ih ha, hn⟩
  | pair ty fst snd a b iha ihb =>
    obtain ⟨hn, ⟨xs, hxs, hx⟩ | hroot⟩ := h.root
    · exact (not_balanced_front (Balanced.paren (.singleton (x := .typeName ty) rfl)) (by simp)
        (by simp) hx.balanced hxs).elim
    · obtain ⟨as, bs, heq, ha, hb⟩ := hroot
      simp only [tokens, List.append_cancel_left_eq] at heq
      obtain ⟨rfl, hrest⟩ := split_unique rfl heq (a.strip_tokens.trans ha.strip_eq.symm)
      obtain rfl : b.tokens = bs := by simpa using hrest
      exact ⟨⟨iha ha, ihb hb⟩, hn⟩
  | unary o a ih =>
    obtain ⟨-, ⟨xs, hxs, -⟩ | ⟨hn, as, heq, ha⟩⟩ := h.root
    · simp [tokens] at hxs
    · obtain rfl : a.tokens = as := by simpa [tokens] using heq
      exact ⟨ih ha, hn⟩
  | cast ty a ih =>
    obtain ⟨-, ⟨xs, hxs, hx⟩ | ⟨hn, as, heq, ha⟩⟩ := h.root
    · exact (not_balanced_front (Balanced.paren (.singleton (x := .typeName ty) rfl)) (by simp)
        a.tokens_ne_nil hx.balanced hxs).elim
    · obtain rfl : a.tokens = as := by simpa [tokens] using heq
      exact ⟨ih ha, hn⟩
  | sizeOfType ty =>
    obtain ⟨-, ⟨xs, hxs, -⟩ | ⟨hn, -⟩⟩ := h.root
    · simp [tokens] at hxs
    · exact ⟨trivial, hn⟩
  | binary o a b iha ihb =>
    obtain ⟨-, p, as, bs, ho, hn, heq, ha, hb⟩ := root_of_front (by simp) h
    obtain ⟨rfl, rfl⟩ := split_unique rfl heq (a.strip_tokens.trans ha.strip_eq.symm)
    refine ⟨⟨p, ho, iha ha, ihb hb⟩, ?_⟩
    simpa [strength, ho] using hn
  | other s =>
    obtain ⟨-, ⟨xs, hxs, -⟩ | hroot⟩ := h.root
    · simp [tokens] at hxs
    · exact hroot.elim

end Layout

/-! ## Text -/

/-- A piece of text: the characters of a token, or a space. -/
inductive Piece where
  | tok (t : Token)
  | space
  deriving DecidableEq, Repr

/-- The tokens of a text whose tokens are kept apart. -/
def written : List Piece → List Token
  | [] => []
  | .tok t :: ps => t :: written ps
  | .space :: ps => written ps

/-- The operators of more than one character. -/
def longOperators : List String :=
  ["->", "++", "--", "<<", ">>", "<=", ">=", "==", "!=", "&&", "||"]

/-- The token that two adjacent operators are read as, if they run together. -/
def joined : Token → Token → Option Token
  | .op s, .op t => if s ++ t ∈ longOperators then some (.op (s ++ t)) else none
  | _, _ => none

/-- Tokenization by the longest match. Identifiers, constants and brackets are never adjacent
to a character that could extend them; operators may be. -/
def tokenize : List Piece → List Token
  | [] => []
  | .space :: ps => tokenize ps
  | [.tok t] => [t]
  | .tok t :: .space :: ps => t :: tokenize ps
  | .tok t :: .tok u :: ps =>
    match joined t u with
    | some v => v :: tokenize ps
    | none => t :: tokenize (.tok u :: ps)

/-- The last piece is no operator. -/
def EndsPlain (ps : List Piece) : Prop := ∀ s, ps.getLast? ≠ some (.tok (.op s))

@[simp] theorem written_append (as bs : List Piece) :
    written (as ++ bs) = written as ++ written bs := by
  induction as with
  | nil => rfl
  | cons p as ih => cases p <;> simp [written, ih]

theorem joined_eq_none {t : Token} (h : ∀ s, t ≠ .op s) (u : Token) : joined t u = none := by
  cases t <;> simp_all [joined]

theorem tokenize_cons {t : Token} {ps : List Piece}
    (h : ∀ u qs, ps = .tok u :: qs → joined t u = none) :
    tokenize (.tok t :: ps) = t :: tokenize ps := by
  match ps with
  | [] => simp [tokenize]
  | .space :: qs => simp [tokenize]
  | .tok u :: qs => simp [tokenize, h u qs rfl]

theorem tokenize_append {as : List Piece} (h : EndsPlain as) (bs : List Piece) :
    tokenize (as ++ bs) = tokenize as ++ tokenize bs := by
  induction as using tokenize.induct with
  | case1 => rfl
  | case2 ps ih | case4 t ps ih =>
    have hps : EndsPlain ps := by
      intro s hs
      cases ps <;> simp_all [EndsPlain, List.getLast?_cons_cons]
    simpa [tokenize] using ih hps
  | case3 t =>
    have ht : ∀ s, t ≠ .op s := by
      rintro s rfl
      exact h s rfl
    simpa [tokenize] using tokenize_cons fun u qs _ => joined_eq_none ht u
  | case5 t u ps v hv ih =>
    have hps : EndsPlain ps := by
      intro s hs
      cases ps <;> simp_all [EndsPlain, List.getLast?_cons_cons]
    simpa [tokenize, hv] using ih hps
  | case6 t u ps hv ih =>
    have hps : EndsPlain (.tok u :: ps) := by
      intro s hs
      exact h s (by simpa [List.getLast?_cons_cons] using hs)
    simpa [tokenize, hv] using ih hps

/-- Joining operators makes fewer tokens and leaves the parentheses alone. -/
theorem tokenize_spec (ps : List Piece) :
    (tokenize ps).length ≤ (written ps).length ∧
      (tokenize ps).filter (! ·.isPlain) = (written ps).filter (! ·.isPlain) ∧
      ((tokenize ps).length = (written ps).length → tokenize ps = written ps) := by
  induction ps using tokenize.induct with
  | case1 | case3 t => simp [tokenize, written]
  | case2 ps ih => simpa [tokenize, written] using ih
  | case4 t ps ih =>
    obtain ⟨hle, hparen, heq⟩ := ih
    refine ⟨by simpa [tokenize, written] using hle, ?_, fun h => ?_⟩
    · simp only [tokenize, written, List.filter_cons, hparen]
    · simp only [tokenize, written, List.length_cons, Nat.add_right_cancel_iff] at h ⊢
      rw [heq h]
  | case5 t u ps v hv ih =>
    obtain ⟨hle, hparen, -⟩ := ih
    have hplain : ∃ s s' s'', t = .op s ∧ u = .op s' ∧ v = .op s'' := by
      cases t <;> cases u <;> simp_all [joined]
      exact hv.2.symm ▸ ⟨_, rfl⟩
    obtain ⟨s, s', s'', rfl, rfl, rfl⟩ := hplain
    simp only [tokenize, written, hv, List.length_cons]
    refine ⟨by omega, ?_, fun h => by omega⟩
    simpa [List.filter_cons, Token.isPlain] using hparen
  | case6 t u ps hv ih =>
    obtain ⟨hle, hparen, heq⟩ := ih
    simp only [written] at hle hparen heq
    refine ⟨by simpa [tokenize, written, hv] using hle, ?_, fun h => ?_⟩
    · simp only [tokenize, written, hv, List.filter_cons (x := t), hparen]
    · simp only [tokenize, written, hv, List.length_cons, Nat.add_right_cancel_iff] at h ⊢
      rw [heq (by simpa using h)]

namespace Layout

open Token Piece in
/-- The text of a layout: spaces stand around binary operators and after commas. -/
def text : Layout → List Piece
  | atom a => [tok (.atom a)]
  | paren a => tok lparen :: (a.text ++ [tok rparen])
  | call₀ f => f.text ++ [tok lparen, tok rparen]
  | call f a => f.text ++ tok lparen :: (a.text ++ [tok rparen])
  | args a b => a.text ++ tok comma :: space :: b.text
  | index a i => a.text ++ tok lbracket :: (i.text ++ [tok rbracket])
  | field a name => a.text ++ [tok dot, tok (.atom (.ident name))]
  | arrow a name => a.text ++ [tok Token.arrow, tok (.atom (.ident name))]
  | pair ty fst snd a b =>
    [tok lparen, tok (typeName ty), tok rparen, tok lbrace, space, tok dot,
      tok (.atom (.ident fst)), space, tok assign, space] ++ (a.text ++ tok comma ::
      ([space, tok dot, tok (.atom (.ident snd)), space, tok assign, space] ++
        (b.text ++ [space, tok rbrace])))
  | unary o a => tok (op o.text) :: a.text
  | cast ty a => tok lparen :: tok (typeName ty) :: tok rparen :: a.text
  | sizeOfType ty => [tok (op Unary.sizeOf.text), tok lparen, tok (typeName ty), tok rparen]
  | binary o a b => a.text ++ space :: tok (op o.text) :: space :: b.text
  | other s => [tok (.other s)]

/-- The operator at the front of the text. -/
def lead : Layout → Option Unary
  | unary o _ => some o
  | sizeOfType _ => some .sizeOf
  | call₀ f | call f _ => f.lead
  | args a _ | index a _ | field a _ | arrow a _ | binary _ a _ => a.lead
  | atom _ | paren _ | pair _ _ _ _ _ | cast _ _ | other _ => none

/-- No operator stands directly before one with which it runs together. -/
def Separated : Layout → Prop
  | unary o a => a.Separated ∧ ∀ o' ∈ a.lead, joined (.op o.text) (.op o'.text) = none
  | atom _ | sizeOfType _ | other _ => True
  | paren a | call₀ a | field a _ | arrow a _ | cast _ a => a.Separated
  | call a b | args a b | index a b | pair _ _ _ a b | binary _ a b => a.Separated ∧ b.Separated

@[simp] theorem written_text (l : Layout) : written l.text = l.tokens := by
  induction l <;> simp_all [text, written, tokens]

theorem endsPlain_text (l : Layout) : EndsPlain l.text := by
  have happend : ∀ (as : List Piece) {b : Piece} {bs : List Piece}, EndsPlain (b :: bs) →
      EndsPlain (as ++ b :: bs) := by
    intro as b bs h s hs
    exact h s (by simpa using hs)
  induction l with
  | unary o a ih | cast ty a ih =>
    intro s hs
    have hne : a.text ≠ [] := fun h =>
      a.tokens_ne_nil (by simpa [h, written] using a.written_text.symm)
    obtain ⟨p, ps, hps⟩ := List.exists_cons_of_ne_nil hne
    apply ih s
    simpa [text, hps, List.getLast?_cons_cons] using hs
  | args a b _ ih | binary o a b _ ih =>
    intro s hs
    have hne : b.text ≠ [] := fun h =>
      b.tokens_ne_nil (by simpa [h, written] using b.written_text.symm)
    obtain ⟨p, ps, hps⟩ := List.exists_cons_of_ne_nil hne
    apply ih s
    simpa [text, hps, List.getLast?_cons_cons] using hs
  | _ => simp [EndsPlain, text, List.getLast?_cons]

/-- Tokenization keeps the tokens of a text apart. -/
def Exact (ps : List Piece) : Prop := (tokenize ps).length = (written ps).length

theorem exact_append {as : List Piece} (h : EndsPlain as) (bs : List Piece) :
    Exact (as ++ bs) ↔ Exact as ∧ Exact bs := by
  have ha := (tokenize_spec as).1
  have hb := (tokenize_spec bs).1
  simp only [Exact, tokenize_append h, written_append, List.length_append]
  omega

theorem exact_space (ps : List Piece) : Exact (.space :: ps) ↔ Exact ps := by
  simp [Exact, tokenize, written]

theorem exact_cons {t : Token} {ps : List Piece}
    (h : ∀ u qs, ps = .tok u :: qs → joined t u = none) : Exact (.tok t :: ps) ↔ Exact ps := by
  simp [Exact, tokenize_cons h, written]

theorem exact_plain {t : Token} (ht : ∀ s, t ≠ .op s) (ps : List Piece) :
    Exact (.tok t :: ps) ↔ Exact ps :=
  exact_cons fun u _ _ => joined_eq_none ht u

theorem exact_op_space (s : String) (ps : List Piece) :
    Exact (.tok (.op s) :: .space :: ps) ↔ Exact ps := by
  rw [exact_cons (by simp), exact_space]

@[simp] theorem exact_nil : Exact [] := rfl

/-- A piece that is the given operator, or no operator. -/
def IsLead (p : Piece) : Option Unary → Prop
  | some o => p = .tok (.op o.text)
  | none => ∀ s, p ≠ .tok (.op s)

/-- The text starts with its leading operator, or with no operator. -/
theorem text_front (l : Layout) : ∃ p ps, l.text = p :: ps ∧ IsLead p l.lead := by
  have happend : ∀ {l : Layout} {bs : List Piece},
      (∃ p ps, l.text = p :: ps ∧ IsLead p l.lead) →
      ∃ p ps, l.text ++ bs = p :: ps ∧ IsLead p l.lead := by
    rintro l bs ⟨p, ps, hps, hp⟩
    exact ⟨p, ps ++ bs, by rw [hps, List.cons_append], hp⟩
  induction l with
  | call₀ _ ih | field _ _ ih | arrow _ _ ih => exact happend ih
  | call _ _ ih _ | args _ _ ih _ | index _ _ ih _ | binary _ _ _ ih _ => exact happend ih
  | unary o a | sizeOfType ty => exact ⟨_, _, rfl, rfl⟩
  | atom | paren | pair | cast | other => exact ⟨_, _, rfl, by simp [lead, IsLead]⟩

theorem exact_unary (o : Unary) (a : Layout) :
    Exact (.tok (.op o.text) :: a.text) ↔
      Exact a.text ∧ ∀ o' ∈ a.lead, joined (.op o.text) (.op o'.text) = none := by
  obtain ⟨p, ps, hps, hp⟩ := a.text_front
  cases hlead : a.lead with
  | none =>
    rw [hlead] at hp
    have hnone : ∀ u qs, a.text = .tok u :: qs → joined (.op o.text) u = none := by
      intro u qs hu
      rw [hps] at hu
      obtain ⟨rfl, -⟩ := List.cons.inj hu
      cases u <;> simp_all [joined, IsLead]
    simpa using exact_cons hnone
  | some o' =>
    rw [hlead] at hp
    subst hp
    cases hjoin : joined (.op o.text) (.op o'.text) with
    | none =>
      have hnone : ∀ u qs, a.text = .tok u :: qs → joined (.op o.text) u = none := by
        intro u qs hu
        rw [hps] at hu
        obtain ⟨hpu, -⟩ := List.cons.inj hu
        cases hpu
        exact hjoin
      simpa [hjoin] using exact_cons hnone
    | some v =>
      have hle := (tokenize_spec ps).1
      simp only [hps, Exact, tokenize, written, hjoin, List.length_cons, Option.mem_def,
        Option.some.injEq, forall_eq', reduceCtorEq, and_false, iff_false]
      omega

theorem exact_text_iff (l : Layout) : Exact l.text ↔ l.Separated := by
  induction l with
  | atom a | other s => simp [text, Separated, exact_plain]
  | paren a ih =>
    simp [text, Separated, exact_plain, exact_append a.endsPlain_text, ih]
  | call₀ f ih => simp [text, Separated, exact_plain, exact_append f.endsPlain_text, ih]
  | call f a ihf iha =>
    simp [text, Separated, exact_plain, exact_append f.endsPlain_text,
      exact_append a.endsPlain_text, ihf, iha]
  | args a b iha ihb =>
    simp [text, Separated, exact_plain, exact_space, exact_append a.endsPlain_text, iha, ihb]
  | index a i iha ihi =>
    simp [text, Separated, exact_plain, exact_append a.endsPlain_text,
      exact_append i.endsPlain_text, iha, ihi]
  | field a name ih | arrow a name ih =>
    simp [text, Separated, exact_plain, exact_append a.endsPlain_text, ih]
  | pair ty fst snd a b iha ihb =>
    simp [text, Separated, exact_plain, exact_space, exact_append a.endsPlain_text,
      exact_append b.endsPlain_text, iha, ihb]
  | unary o a ih => rw [text, exact_unary, ih, Separated]
  | cast ty a ih => simp [text, Separated, exact_plain, ih]
  | sizeOfType ty =>
    have hopen : ∀ u qs, [Piece.tok .lparen, .tok (.typeName ty), .tok .rparen] = .tok u :: qs →
        joined (.op Unary.sizeOf.text) u = none := by
      intro u qs h
      cases h
      rfl
    simp [text, Separated, exact_cons hopen, exact_plain]
  | binary o a b iha ihb =>
    simp [text, Separated, exact_space, exact_op_space, exact_append a.endsPlain_text, iha, ihb]

/-- The text of a layout parses to its tree if and only if its operators stay apart and every
operand binds strongly enough. -/
theorem derives_text_iff (l : Layout) (n : Nat) :
    Derives n (tokenize l.text) l.tree ↔ l.Separated ∧ l.Grouped ∧ n ≤ l.strength := by
  obtain ⟨-, hparen, hexact⟩ := tokenize_spec l.text
  rw [written_text] at hparen hexact
  constructor
  · intro h
    have hlength : ∀ ts : List Token,
        ts.length = (strip ts).length + (ts.filter (! ·.isPlain)).length := fun ts =>
      List.length_eq_length_filter_add Token.isPlain
    have hstrip : strip (tokenize l.text) = strip l.tokens := by
      rw [h.strip_eq, l.strip_tokens]
    have hlen : (tokenize l.text).length = l.tokens.length := by
      rw [hlength, hstrip, hparen, ← hlength]
    have hsep : l.Separated := by
      rw [← exact_text_iff, Exact, written_text]
      exact hlen
    rw [hexact hlen] at h
    exact ⟨hsep, grouped_of_derives h⟩
  · rintro ⟨hsep, hgrouped, hn⟩
    have hlen := (exact_text_iff l).mpr hsep
    rw [Exact, written_text] at hlen
    rw [hexact hlen]
    exact .weaken hn hgrouped.derives

/-! ## Layouts whose text parses -/

/-- The text of a layout parses to its tree. -/
def Parses (l : Layout) : Prop := l.Separated ∧ l.Grouped

/-- A layout that stands where the given strength is required. -/
def Fits (n : Nat) (l : Layout) : Prop := l.Parses ∧ n ≤ l.strength

theorem derives_text_iff_fits (l : Layout) (n : Nat) :
    Derives n (tokenize l.text) l.tree ↔ l.Fits n := by
  rw [derives_text_iff, Fits, Parses, and_assoc]

theorem fits_iff_parses {n : Nat} {l : Layout} (h : n ≤ l.strength) : l.Fits n ↔ l.Parses :=
  and_iff_left h

section Parses

variable {a b f i : Layout}

/-- Two operands fit when both parse and bind strongly enough. -/
theorem fits_both {m n : Nat} :
    (a.Separated ∧ b.Separated) ∧ (a.Grouped ∧ m ≤ a.strength) ∧ b.Grouped ∧ n ≤ b.strength ↔
      a.Fits m ∧ b.Fits n := by
  constructor
  · rintro ⟨⟨ha, hb⟩, ⟨hga, hma⟩, hgb, hnb⟩
    exact ⟨⟨⟨ha, hga⟩, hma⟩, ⟨hb, hgb⟩, hnb⟩
  · rintro ⟨⟨⟨ha, hga⟩, hma⟩, ⟨hb, hgb⟩, hnb⟩
    exact ⟨⟨ha, hb⟩, ⟨hga, hma⟩, hgb, hnb⟩

@[simp] theorem strength_atom {x : Atom} : (atom x).strength = 15 := rfl

@[simp] theorem strength_paren : (paren a).strength = 15 := rfl

@[simp] theorem strength_index : (index a i).strength = 15 := rfl

@[simp] theorem strength_field {name : String} : (field a name).strength = 15 := rfl

@[simp] theorem strength_arrow {name : String} : (arrow a name).strength = 15 := rfl

@[simp] theorem strength_pair {ty fst snd : String} : (pair ty fst snd a b).strength = 15 := rfl

@[simp] theorem strength_unary {o : Unary} : (unary o a).strength = 14 := rfl

@[simp] theorem strength_cast {ty : String} : (cast ty a).strength = 14 := rfl

@[simp] theorem strength_sizeOfType {ty : String} : (sizeOfType ty).strength = 14 := rfl

@[simp] theorem strength_binary {o : Binary} : (binary o a b).strength = o.strength.getD 0 := rfl

@[simp] theorem lead_paren : (paren a).lead = none := rfl

@[simp] theorem parses_atom {x : Atom} : (atom x).Parses := ⟨trivial, trivial⟩

@[simp] theorem parses_sizeOfType {ty : String} : (sizeOfType ty).Parses := ⟨trivial, trivial⟩

@[simp] theorem not_parses_other {s : String} : ¬ (other s).Parses := fun h => h.2

@[simp] theorem parses_paren : (paren a).Parses ↔ a.Fits 2 := and_assoc.symm

@[simp] theorem parses_call₀ : (call₀ f).Parses ↔ f.Fits 15 := and_assoc.symm

@[simp] theorem parses_call : (call f a).Parses ↔ f.Fits 15 ∧ a.Fits 1 := fits_both

@[simp] theorem parses_args : (args a b).Parses ↔ a.Fits 2 ∧ b.Fits 1 := fits_both

@[simp] theorem parses_index : (index a i).Parses ↔ a.Fits 15 ∧ i.Fits 2 := fits_both

@[simp] theorem parses_field {name : String} : (field a name).Parses ↔ a.Fits 15 := and_assoc.symm

@[simp] theorem parses_arrow {name : String} : (arrow a name).Parses ↔ a.Fits 15 := and_assoc.symm

@[simp] theorem parses_pair {ty fst snd : String} :
    (pair ty fst snd a b).Parses ↔ a.Fits 2 ∧ b.Fits 2 := fits_both

@[simp] theorem parses_cast {ty : String} : (cast ty a).Parses ↔ a.Fits 14 := and_assoc.symm

@[simp] theorem parses_unary {o : Unary} :
    (unary o a).Parses ↔
      a.Fits 14 ∧ ∀ o' ∈ a.lead, joined (.op o.text) (.op o'.text) = none := by
  constructor
  · rintro ⟨⟨hsep, hlead⟩, hgrouped, hstrength⟩
    exact ⟨⟨⟨hsep, hgrouped⟩, hstrength⟩, hlead⟩
  · rintro ⟨⟨⟨hsep, hgrouped⟩, hstrength⟩, hlead⟩
    exact ⟨⟨hsep, hlead⟩, hgrouped, hstrength⟩

@[simp] theorem parses_binary {o : Binary} :
    (binary o a b).Parses ↔ ∃ p, o.strength = some p ∧ a.Fits p ∧ b.Fits (p + 1) := by
  constructor
  · rintro ⟨⟨ha, hb⟩, p, ho, ⟨hga, hpa⟩, hgb, hpb⟩
    exact ⟨p, ho, ⟨⟨ha, hga⟩, hpa⟩, ⟨hb, hgb⟩, hpb⟩
  · rintro ⟨p, ho, ⟨⟨ha, hga⟩, hpa⟩, ⟨hb, hgb⟩, hpb⟩
    exact ⟨⟨ha, hb⟩, p, ho, ⟨hga, hpa⟩, hgb, hpb⟩

end Parses

end Layout

end CGrammar

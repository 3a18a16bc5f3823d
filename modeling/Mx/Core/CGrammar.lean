import Mathlib

/-!
# The grammar of C expressions

The productions of the C standard for the expressions without assignment, conditional and
comma operator, by binding strength: 15 for postfix and primary expressions, 14 for unary ones
and casts, 13 down to 4 for the binary operators, 2 for an argument and 1 for an argument list.
A token list derives a tree at a strength. The tokens of a derivation, without its parentheses,
are those of the tree, and its parentheses are balanced.
-/

namespace CGrammar

/-- The operators in front of an operand. -/
inductive Unary where
  | neg | not | deref | addr | compl | sizeOf
  deriving DecidableEq, Repr

/-- The spelling of a unary operator. -/
def Unary.text : Unary → String
  | .neg => "-"
  | .not => "!"
  | .deref => "*"
  | .addr => "&"
  | .compl => "~"
  | .sizeOf => "sizeof"

/-- The binary operators, and the question mark, which is no binary operator. -/
inductive Binary where
  | mul | div | rem | add | sub | shl | shr | lt | gt | le | ge | eq | ne | and | xor | or
  | logAnd | logOr | question
  deriving DecidableEq, Repr

/-- The spelling of a binary operator. -/
def Binary.text : Binary → String
  | .mul => "*"
  | .div => "/"
  | .rem => "%"
  | .add => "+"
  | .sub => "-"
  | .shl => "<<"
  | .shr => ">>"
  | .lt => "<"
  | .gt => ">"
  | .le => "<="
  | .ge => ">="
  | .eq => "=="
  | .ne => "!="
  | .and => "&"
  | .xor => "^"
  | .or => "|"
  | .logAnd => "&&"
  | .logOr => "||"
  | .question => "?"

/-- How strongly a binary operator binds; all of them associate to the left. -/
def Binary.strength : Binary → Option Nat
  | .mul | .div | .rem => some 13
  | .add | .sub => some 12
  | .shl | .shr => some 11
  | .lt | .gt | .le | .ge => some 10
  | .eq | .ne => some 9
  | .and => some 8
  | .xor => some 7
  | .or => some 6
  | .logAnd => some 5
  | .logOr => some 4
  | .question => none

/-- Identifiers and constants. -/
inductive Atom where
  | ident (s : String)
  | number (s : String)
  | char (s : String)
  | string (s : String)
  deriving DecidableEq, Repr

/-- Tokens. A type name is one token, since a C parser knows the declared types. -/
inductive Token where
  | lparen | rparen | lbracket | rbracket | lbrace | rbrace | comma | dot | arrow | assign
  | op (s : String)
  | atom (a : Atom)
  | typeName (s : String)
  | other (s : String)
  deriving DecidableEq, Repr

/-- Syntax trees. The arguments of a call are a chain of `args`. A compound literal with two
designated members is the only initializer. -/
inductive Tree where
  | atom (a : Atom)
  | call₀ (f : Tree)
  | call (f arg : Tree)
  | args (arg rest : Tree)
  | index (a i : Tree)
  | field (a : Tree) (name : String)
  | arrow (a : Tree) (name : String)
  | pair (ty fst snd : String) (a b : Tree)
  | unary (o : Unary) (a : Tree)
  | decrement (a : Tree)
  | cast (ty : String) (a : Tree)
  | sizeOfType (ty : String)
  | binary (o : Binary) (a b : Tree)
  | other (s : String)
  deriving DecidableEq, Repr

/-! ## Derivations -/

open Token in
/-- The token lists of a tree at a strength. -/
inductive Derives : Nat → List Token → Tree → Prop where
  | weaken {m n : Nat} {ts : List Token} {t : Tree} (h : n ≤ m) (ht : Derives m ts t) :
      Derives n ts t
  | atom (a : Atom) : Derives 15 [.atom a] (.atom a)
  | paren {ts : List Token} {t : Tree} (ht : Derives 2 ts t) :
      Derives 15 (lparen :: ts ++ [rparen]) t
  | call₀ {fs : List Token} {f : Tree} (hf : Derives 15 fs f) :
      Derives 15 (fs ++ [lparen, rparen]) (.call₀ f)
  | call {fs as : List Token} {f a : Tree} (hf : Derives 15 fs f) (ha : Derives 1 as a) :
      Derives 15 (fs ++ lparen :: (as ++ [rparen])) (.call f a)
  | args {as bs : List Token} {a b : Tree} (ha : Derives 2 as a) (hb : Derives 1 bs b) :
      Derives 1 (as ++ comma :: bs) (.args a b)
  | index {as is : List Token} {a i : Tree} (ha : Derives 15 as a) (hi : Derives 2 is i) :
      Derives 15 (as ++ lbracket :: (is ++ [rbracket])) (.index a i)
  | field {as : List Token} {a : Tree} (name : String) (ha : Derives 15 as a) :
      Derives 15 (as ++ [dot, .atom (.ident name)]) (.field a name)
  | arrow {as : List Token} {a : Tree} (name : String) (ha : Derives 15 as a) :
      Derives 15 (as ++ [Token.arrow, .atom (.ident name)]) (.arrow a name)
  | pair {as bs : List Token} {a b : Tree} (ty fst snd : String) (ha : Derives 2 as a)
      (hb : Derives 2 bs b) :
      Derives 15 ([lparen, typeName ty, rparen, lbrace, dot, .atom (.ident fst), assign] ++
        (as ++ comma :: ([dot, .atom (.ident snd), assign] ++ (bs ++ [rbrace]))))
        (.pair ty fst snd a b)
  | unary {as : List Token} {a : Tree} (o : Unary) (ha : Derives 14 as a) :
      Derives 14 (op o.text :: as) (.unary o a)
  | decrement {as : List Token} {a : Tree} (ha : Derives 14 as a) :
      Derives 14 (op "--" :: as) (.decrement a)
  | cast {as : List Token} {a : Tree} (ty : String) (ha : Derives 14 as a) :
      Derives 14 (lparen :: typeName ty :: rparen :: as) (.cast ty a)
  | sizeOfType (ty : String) :
      Derives 14 [op Unary.sizeOf.text, lparen, typeName ty, rparen] (.sizeOfType ty)
  | binary {p : Nat} {as bs : List Token} {a b : Tree} {o : Binary} (ho : o.strength = some p)
      (ha : Derives p as a) (hb : Derives (p + 1) bs b) :
      Derives p (as ++ op o.text :: bs) (.binary o a b)

/-! ## Tokens of a tree -/

/-- A token other than a parenthesis. -/
def Token.isPlain (x : Token) : Bool := decide (x ≠ .lparen ∧ x ≠ .rparen)

/-- The tokens that are not parentheses. -/
def strip (ts : List Token) : List Token := ts.filter Token.isPlain

@[simp] theorem strip_nil : strip [] = [] := rfl

@[simp] theorem strip_append (as bs : List Token) : strip (as ++ bs) = strip as ++ strip bs :=
  List.filter_append ..

@[simp] theorem strip_lparen (ts : List Token) : strip (.lparen :: ts) = strip ts := rfl

@[simp] theorem strip_rparen (ts : List Token) : strip (.rparen :: ts) = strip ts := rfl

variable {x : Token}

theorem strip_cons (hx : x.isPlain = true) (ts : List Token) : strip (x :: ts) = x :: strip ts := by
  simp [strip, hx]

/-- The tokens of a tree, without parentheses. -/
def Tree.tokens : Tree → List Token
  | .atom a => [.atom a]
  | .call₀ f => f.tokens
  | .call f a => f.tokens ++ a.tokens
  | .args a b => a.tokens ++ .comma :: b.tokens
  | .index a i => a.tokens ++ .lbracket :: (i.tokens ++ [.rbracket])
  | .field a name => a.tokens ++ [.dot, .atom (.ident name)]
  | .arrow a name => a.tokens ++ [.arrow, .atom (.ident name)]
  | .pair ty fst snd a b =>
    [.typeName ty, .lbrace, .dot, .atom (.ident fst), .assign] ++
      (a.tokens ++ .comma :: ([.dot, .atom (.ident snd), .assign] ++ (b.tokens ++ [.rbrace])))
  | .unary o a => .op o.text :: a.tokens
  | .decrement a => .op "--" :: a.tokens
  | .cast ty a => .typeName ty :: a.tokens
  | .sizeOfType ty => [.op Unary.sizeOf.text, .typeName ty]
  | .binary o a b => a.tokens ++ .op o.text :: b.tokens
  | .other s => [.other s]

variable {n : Nat} {ts : List Token} {t : Tree}

theorem Derives.strip_eq (h : Derives n ts t) : strip ts = t.tokens := by
  induction h with
  | weaken _ _ ih => exact ih
  | paren _ ih => simpa using ih
  | _ => simp_all [Tree.tokens, strip_cons, Token.isPlain]

theorem Tree.tokens_ne_nil (t : Tree) : t.tokens ≠ [] := by
  induction t <;> simp_all [tokens]

theorem Derives.ne_nil (h : Derives n ts t) : ts ≠ [] := by
  rintro rfl
  exact t.tokens_ne_nil h.strip_eq.symm

/-- Two splits of a list at the same plain token, with the same plain tokens before it, are
the same split. -/
theorem split_unique (hx : x.isPlain = true) {as as' bs bs' : List Token}
    (h : as ++ x :: bs = as' ++ x :: bs') (hstrip : strip as = strip as') :
    as = as' ∧ bs = bs' := by
  rcases List.append_eq_append_iff.mp h with ⟨cs, rfl, hcs⟩ | ⟨cs, rfl, hcs⟩
  · cases cs with
    | nil => simpa using hcs
    | cons c cs =>
      obtain ⟨rfl, -⟩ := List.cons.inj hcs
      simp [strip_cons hx] at hstrip
  · cases cs with
    | nil => simpa [eq_comm] using hcs
    | cons c cs =>
      obtain ⟨rfl, -⟩ := List.cons.inj hcs
      simp [strip_cons hx] at hstrip

/-! ## Balanced parentheses -/

/-- The number of parentheses left open. -/
def depth : List Token → Int
  | [] => 0
  | .lparen :: ts => depth ts + 1
  | .rparen :: ts => depth ts - 1
  | _ :: ts => depth ts

@[simp] theorem depth_nil : depth [] = 0 := rfl

@[simp] theorem depth_lparen (ts : List Token) : depth (.lparen :: ts) = depth ts + 1 := rfl

@[simp] theorem depth_rparen (ts : List Token) : depth (.rparen :: ts) = depth ts - 1 := rfl

theorem depth_cons (hx : x.isPlain = true) (ts : List Token) : depth (x :: ts) = depth ts := by
  cases x <;> simp_all [depth, Token.isPlain]

@[simp] theorem depth_append (as bs : List Token) : depth (as ++ bs) = depth as + depth bs := by
  induction as with
  | nil => simp
  | cons x as ih => cases x <;> simp_all [depth] <;> omega

/-- Every parenthesis is closed, and none before it was opened. -/
structure Balanced (ts : List Token) : Prop where
  depth_eq : depth ts = 0
  nonneg : ∀ as bs, as ++ bs = ts → 0 ≤ depth as

theorem Balanced.nil : Balanced [] := ⟨rfl, by simp⟩

theorem Balanced.append {as bs : List Token} (ha : Balanced as) (hb : Balanced bs) :
    Balanced (as ++ bs) := by
  refine ⟨by rw [depth_append, ha.depth_eq, hb.depth_eq, Int.add_zero], fun cs ds h => ?_⟩
  rcases List.append_eq_append_iff.mp h with ⟨es, rfl, -⟩ | ⟨es, rfl, hes⟩
  · exact ha.nonneg cs es rfl
  · rw [depth_append, ha.depth_eq, Int.zero_add]
    exact hb.nonneg es ds hes.symm

theorem Balanced.cons {x : Token} (hx : x.isPlain = true) {ts : List Token} (h : Balanced ts) :
    Balanced (x :: ts) := by
  refine ⟨by rw [depth_cons hx, h.depth_eq], fun as bs hsplit => ?_⟩
  cases as with
  | nil => simp
  | cons a as =>
    obtain ⟨rfl, hrest⟩ := List.cons.inj hsplit
    rw [depth_cons hx]
    exact h.nonneg as bs hrest

theorem Balanced.paren (h : Balanced ts) : Balanced (.lparen :: (ts ++ [.rparen])) := by
  refine ⟨by simp [h.depth_eq], fun as bs hsplit => ?_⟩
  cases as with
  | nil => simp
  | cons a as =>
    obtain ⟨rfl, hrest⟩ := List.cons.inj hsplit
    rcases List.append_eq_append_iff.mp hrest with ⟨cs, rfl, -⟩ | ⟨cs, rfl, hcs⟩
    · have := h.nonneg as cs rfl
      simp only [depth_lparen]
      omega
    · cases cs with
      | nil => simp [h.depth_eq]
      | cons c cs =>
        obtain ⟨rfl, hnil⟩ := List.cons.inj hcs
        obtain ⟨rfl, -⟩ := List.append_eq_nil_iff.mp hnil.symm
        simp [h.depth_eq]

theorem Balanced.singleton (hx : x.isPlain = true) : Balanced [x] := .cons hx .nil

theorem Derives.balanced (h : Derives n ts t) : Balanced ts := by
  have htype : ∀ ty, Balanced [.lparen, .typeName ty, .rparen] := fun ty =>
    Balanced.paren (.singleton (x := .typeName ty) rfl)
  induction h with
  | weaken _ _ ih => exact ih
  | atom a => exact .singleton rfl
  | paren _ ih => exact ih.paren
  | call₀ _ ih => exact ih.append (Balanced.paren .nil)
  | call _ _ ihf iha => exact ihf.append iha.paren
  | args _ _ iha ihb | binary _ _ _ iha ihb => exact iha.append (.cons rfl ihb)
  | index _ _ iha ihi => exact iha.append (.cons rfl (ihi.append (.singleton rfl)))
  | field _ _ ih | arrow _ _ ih => exact ih.append (.cons rfl (.singleton rfl))
  | pair ty _ _ _ _ iha ihb =>
    refine (htype ty).append (.cons rfl (.cons rfl (.cons rfl (.cons rfl (iha.append ?_)))))
    exact .cons rfl (.cons rfl (.cons rfl (.cons rfl (ihb.append (.singleton rfl)))))
  | unary _ _ ih => exact .cons rfl ih
  | decrement _ ih => exact .cons rfl ih
  | cast ty _ ih => exact (htype ty).append ih
  | sizeOfType ty => exact .cons rfl (htype ty)

/-- A parenthesized list has no balanced proper part at its front. -/
theorem not_balanced_front {as bs : List Token} (ha : Balanced as) (hne : as ≠ [])
    (hb : bs ≠ []) (ht : Balanced ts) (h : as ++ bs = .lparen :: (ts ++ [.rparen])) : False := by
  cases as with
  | nil => exact hne rfl
  | cons a as =>
    obtain ⟨rfl, hrest⟩ := List.cons.inj h
    have hdepth := ha.depth_eq
    rw [depth_lparen] at hdepth
    rcases List.append_eq_append_iff.mp hrest with ⟨cs, rfl, -⟩ | ⟨cs, rfl, hcs⟩
    · have := ht.nonneg as cs rfl
      omega
    · cases cs with
      | nil =>
        rw [List.append_nil, ht.depth_eq] at hdepth
        omega
      | cons c cs =>
        have hnil := (List.cons.inj hcs).2.symm
        exact hb (List.append_eq_nil_iff.mp hnil).2

/-- The last argument list of a token list is unique. -/
theorem call_split_unique {fs fs' as as' : List Token} (hf : Balanced fs) (hf' : Balanced fs')
    (ha : Balanced as) (ha' : Balanced as')
    (h : fs ++ .lparen :: (as ++ [.rparen]) = fs' ++ .lparen :: (as' ++ [.rparen])) :
    fs = fs' ∧ as = as' := by
  -- a longer front would close more parentheses than its arguments open
  have hlonger : ∀ {fs fs' as as' cs : List Token}, Balanced fs → Balanced fs' → Balanced as →
      fs' = fs ++ cs → .lparen :: (as ++ [.rparen]) = cs ++ .lparen :: (as' ++ [.rparen]) →
      cs = [] := by
    intro fs fs' as as' cs hf hf' ha hfs hcs
    cases cs with
    | nil => rfl
    | cons c cs =>
      obtain ⟨rfl, hrest⟩ := List.cons.inj hcs
      have hdepth := hf'.depth_eq
      rw [hfs, depth_append, hf.depth_eq, depth_lparen] at hdepth
      rcases List.append_eq_append_iff.mp hrest with ⟨es, rfl, hes⟩ | ⟨es, rfl, hes⟩
      · cases es with
        | nil => simp at hes
        | cons e es => simp at hes
      · have := ha.nonneg cs es rfl
        omega
  rcases List.append_eq_append_iff.mp h with ⟨cs, hfs, hcs⟩ | ⟨cs, hfs, hcs⟩
  · obtain rfl := hlonger hf hf' ha hfs hcs
    refine ⟨by simpa using hfs.symm, ?_⟩
    simpa using hcs
  · obtain rfl := hlonger hf' hf ha' hfs hcs
    refine ⟨by simpa using hfs, ?_⟩
    simpa [eq_comm] using hcs

/-! ## Inversion -/

open Token in
/-- The token lists of a tree by the production of its root. -/
def Root (n : Nat) (ts : List Token) : Tree → Prop
  | .atom a => ts = [.atom a]
  | .call₀ f => ∃ fs, ts = fs ++ [lparen, rparen] ∧ Derives 15 fs f
  | .call f a => ∃ fs as, ts = fs ++ lparen :: (as ++ [rparen]) ∧ Derives 15 fs f ∧ Derives 1 as a
  | .args a b => n ≤ 1 ∧ ∃ as bs, ts = as ++ comma :: bs ∧ Derives 2 as a ∧ Derives 1 bs b
  | .index a i =>
    ∃ as is, ts = as ++ lbracket :: (is ++ [rbracket]) ∧ Derives 15 as a ∧ Derives 2 is i
  | .field a name => ∃ as, ts = as ++ [dot, .atom (.ident name)] ∧ Derives 15 as a
  | .arrow a name => ∃ as, ts = as ++ [Token.arrow, .atom (.ident name)] ∧ Derives 15 as a
  | .pair ty fst snd a b => ∃ as bs,
      ts = [lparen, typeName ty, rparen, lbrace, dot, .atom (.ident fst), assign] ++
        (as ++ comma :: ([dot, .atom (.ident snd), assign] ++ (bs ++ [rbrace]))) ∧
      Derives 2 as a ∧ Derives 2 bs b
  | .unary o a => n ≤ 14 ∧ ∃ as, ts = op o.text :: as ∧ Derives 14 as a
  | .decrement a => n ≤ 14 ∧ ∃ as, ts = op "--" :: as ∧ Derives 14 as a
  | .cast ty a => n ≤ 14 ∧ ∃ as, ts = lparen :: typeName ty :: rparen :: as ∧ Derives 14 as a
  | .sizeOfType ty => n ≤ 14 ∧ ts = [op Unary.sizeOf.text, lparen, typeName ty, rparen]
  | .binary o a b => ∃ p as bs, o.strength = some p ∧ n ≤ p ∧ ts = as ++ op o.text :: bs ∧
      Derives p as a ∧ Derives (p + 1) bs b
  | .other _ => False

theorem Root.weaken {m : Nat} (hn : n ≤ m) (h : Root m ts t) : Root n ts t := by
  cases t with
  | args | unary | decrement | cast | sizeOfType => exact ⟨Nat.le_trans hn h.1, h.2⟩
  | binary =>
    obtain ⟨p, as, bs, ho, hp, hrest⟩ := h
    exact ⟨p, as, bs, ho, Nat.le_trans hn hp, hrest⟩
  | _ => exact h

/-- A derivation puts the whole list in parentheses or ends with the production of the root. -/
theorem Derives.root (h : Derives n ts t) :
    n ≤ 15 ∧ ((∃ xs, ts = .lparen :: (xs ++ [.rparen]) ∧ Derives 2 xs t) ∨ Root n ts t) := by
  induction h with
  | weaken hn _ ih => exact ⟨Nat.le_trans hn ih.1, ih.2.imp_right (Root.weaken hn)⟩
  | atom a => exact ⟨le_rfl, .inr rfl⟩
  | paren ht _ => exact ⟨le_rfl, .inl ⟨_, rfl, ht⟩⟩
  | call₀ hf _ => exact ⟨le_rfl, .inr ⟨_, rfl, hf⟩⟩
  | call hf ha _ _ => exact ⟨le_rfl, .inr ⟨_, _, rfl, hf, ha⟩⟩
  | args ha hb _ _ => exact ⟨by decide, .inr ⟨le_rfl, _, _, rfl, ha, hb⟩⟩
  | index ha hi _ _ => exact ⟨le_rfl, .inr ⟨_, _, rfl, ha, hi⟩⟩
  | field _ ha _ | arrow _ ha _ => exact ⟨le_rfl, .inr ⟨_, rfl, ha⟩⟩
  | pair _ _ _ ha hb _ _ => exact ⟨le_rfl, .inr ⟨_, _, rfl, ha, hb⟩⟩
  | unary _ ha _ | decrement ha _ | cast _ ha _ =>
    exact ⟨by decide, .inr ⟨le_rfl, _, rfl, ha⟩⟩
  | sizeOfType _ => exact ⟨by decide, .inr ⟨le_rfl, rfl⟩⟩
  | binary ho ha hb _ ihb =>
    exact ⟨Nat.le_trans (Nat.le_succ _) ihb.1, .inr ⟨_, _, _, ho, le_rfl, rfl, ha, hb⟩⟩

/-- A derivation of a parenthesized list derives what is between the parentheses. -/
theorem Derives.of_paren (hts : Balanced ts)
    (h : Derives n (.lparen :: (ts ++ [.rparen])) t) : Derives 2 ts t := by
  obtain ⟨-, ⟨xs, hxs, hx⟩ | hroot⟩ := h.root
  · obtain rfl : ts = xs := by simpa using hxs
    exact hx
  · exfalso
    -- every other production starts with a balanced list or with an operator
    have hfront : ∀ {m a as bs}, Derives m as a → bs ≠ [] →
        .lparen :: (ts ++ [.rparen]) = as ++ bs → False := fun ha hbs heq =>
      not_balanced_front ha.balanced ha.ne_nil hbs hts heq.symm
    have htype : ∀ {ty bs}, bs ≠ [] →
        .lparen :: (ts ++ [.rparen]) = [.lparen, .typeName ty, .rparen] ++ bs → False :=
      fun {ty _} hbs heq => not_balanced_front
        (Balanced.paren (.singleton (x := .typeName ty) rfl)) (by simp) hbs hts heq.symm
    cases t with
    | atom a => simp [Root] at hroot
    | call₀ f =>
      obtain ⟨fs, heq, hf⟩ := hroot
      exact hfront hf (by simp) heq
    | call f a =>
      obtain ⟨fs, as, heq, hf, -⟩ := hroot
      exact hfront hf (by simp) heq
    | args a b =>
      obtain ⟨-, as, bs, heq, ha, -⟩ := hroot
      exact hfront ha (by simp) heq
    | index a i =>
      obtain ⟨as, is, heq, ha, -⟩ := hroot
      exact hfront ha (by simp) heq
    | field a name | arrow a name =>
      obtain ⟨as, heq, ha⟩ := hroot
      exact hfront ha (by simp) heq
    | pair ty fst snd a b =>
      obtain ⟨as, bs, heq, -, -⟩ := hroot
      exact htype (by simp) heq
    | unary o a | decrement a =>
      obtain ⟨-, as, heq, -⟩ := hroot
      simp at heq
    | cast ty a =>
      obtain ⟨-, as, heq, ha⟩ := hroot
      exact htype ha.ne_nil heq
    | sizeOfType ty =>
      obtain ⟨-, heq⟩ := hroot
      simp at heq
    | binary o a b =>
      obtain ⟨p, as, bs, -, -, heq, ha, -⟩ := hroot
      exact hfront ha (by simp) heq
    | other s => exact hroot

end CGrammar

/-!
# Access paths of C designators

Where a designator leads: from an object through members, elements and the objects that pointers
point to. `p->m` is the member of the object that `p` points to, and a subscript of an address that
was converted to `char*` counts the characters of what it points to.
-/

namespace CGrammar

/-- A way from an object to a part of it. -/
inductive AccessPath where
  | root (t : Tree)
  | member (a : AccessPath) (name : String)
  | element (a : AccessPath) (i : Tree)
  | pointee (a : AccessPath)
  | converted (ty : String) (a : AccessPath)

namespace AccessPath

/-- A subscript. -/
def subscript : AccessPath → Tree → AccessPath
  | converted "char*" a, i => element (pointee a) i
  | a, i => element a i

/-- The names of the members on a path. -/
def names : AccessPath → List String
  | root _ => []
  | member a name => a.names ++ [name]
  | element a _ | pointee a | converted _ a => a.names

/-- A path of elements only. -/
def IsSubscripted : AccessPath → Prop
  | root _ => True
  | element a _ => a.IsSubscripted
  | _ => False

@[simp] theorem names_subscript (a : AccessPath) (i : Tree) : (a.subscript i).names = a.names := by
  unfold subscript
  split <;> rfl

theorem isSubscripted_subscript (a : AccessPath) (i : Tree) :
    (a.subscript i).IsSubscripted ↔ a.IsSubscripted := by
  unfold subscript
  split <;> exact Iff.rfl

theorem subscript_ne_root (a : AccessPath) (i t : Tree) : a.subscript i ≠ root t := by
  unfold subscript
  split <;> simp

end AccessPath

/-- The path of a designator. -/
def Tree.path : Tree → AccessPath
  | .index a i => a.path.subscript i
  | .field a name => .member a.path name
  | .arrow a name => .member (.pointee a.path) name
  | .unary .deref a => .pointee a.path
  | .cast ty a => .converted ty a.path
  | t => .root t

end CGrammar

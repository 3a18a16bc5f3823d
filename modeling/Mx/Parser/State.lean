import Mx.Core.Descent
import Mx.Lexer.Token
import Mx.Hir.Syntax

/-!
# The state of the parser

The token list with a position, the recorded errors and the panic mode, and the helpers that every
parsing function is written with. The state also counts the calls of `record_error` and the tokens
that `synchronize` skips; no function reads these counts.
-/

namespace Mx

namespace TokenKind

/-- A token kind up to what it carries, as `std::mem::discriminant` compares it. -/
def discriminant : TokenKind → TokenKind
  | .intLit _ => .intLit 0
  | .realLit _ => .realLit 0
  | .stringLit _ => .stringLit ""
  | .charLit _ => .charLit ' '
  | .ident _ => .ident ""
  | .pragma _ _ => .pragma "" none
  | .docComment _ => .docComment ""
  | kind => kind

/-- `describe`. -/
def describe : TokenKind → String
  | .intLit _ => "integer literal"
  | .realLit _ => "real literal"
  | .stringLit _ => "string literal"
  | .charLit _ => "character literal"
  | .ident _ => "identifier"
  | .AND => "'AND'"
  | .ARRAY => "'ARRAY'"
  | .AS => "'AS'"
  | .BEGIN => "'BEGIN'"
  | .BY => "'BY'"
  | .CASE => "'CASE'"
  | .CONST => "'CONST'"
  | .DEFINITION => "'DEFINITION'"
  | .DIV => "'DIV'"
  | .DO => "'DO'"
  | .ELSE => "'ELSE'"
  | .ELSIF => "'ELSIF'"
  | .END => "'END'"
  | .EXCEPT => "'EXCEPT'"
  | .EXIT => "'EXIT'"
  | .EXPORT => "'EXPORT'"
  | .FINALLY => "'FINALLY'"
  | .FOR => "'FOR'"
  | .FROM => "'FROM'"
  | .IF => "'IF'"
  | .IMPLEMENTATION => "'IMPLEMENTATION'"
  | .IMPORT => "'IMPORT'"
  | .IN => "'IN'"
  | .LOOP => "'LOOP'"
  | .MOD => "'MOD'"
  | .MODULE => "'MODULE'"
  | .NOT => "'NOT'"
  | .OF => "'OF'"
  | .OR => "'OR'"
  | .POINTER => "'POINTER'"
  | .PROCEDURE => "'PROCEDURE'"
  | .QUALIFIED => "'QUALIFIED'"
  | .RAISE => "'RAISE'"
  | .RECORD => "'RECORD'"
  | .REPEAT => "'REPEAT'"
  | .RETRY => "'RETRY'"
  | .RETURN => "'RETURN'"
  | .SET => "'SET'"
  | .THEN => "'THEN'"
  | .TO => "'TO'"
  | .TYPE => "'TYPE'"
  | .UNTIL => "'UNTIL'"
  | .VAR => "'VAR'"
  | .WHILE => "'WHILE'"
  | .WITH => "'WITH'"
  | .BRANDED => "'BRANDED'"
  | .EXCEPTION => "'EXCEPTION'"
  | .LOCK => "'LOCK'"
  | .METHODS => "'METHODS'"
  | .OBJECT => "'OBJECT'"
  | .OVERRIDE => "'OVERRIDE'"
  | .REF => "'REF'"
  | .REFANY => "'REFANY'"
  | .REVEAL => "'REVEAL'"
  | .SAFE => "'SAFE'"
  | .TRY => "'TRY'"
  | .TYPECASE => "'TYPECASE'"
  | .UNSAFE => "'UNSAFE'"
  | .plus => "'+'"
  | .minus => "'-'"
  | .star => "'*'"
  | .slash => "'/'"
  | .assign => "':='"
  | .eq => "'='"
  | .hash => "'#'"
  | .notEq => "'<>'"
  | .lt => "'<'"
  | .gt => "'>'"
  | .le => "'<='"
  | .ge => "'>='"
  | .dotDot => "'..'"
  | .dot => "'.'"
  | .comma => "','"
  | .semi => "';'"
  | .colon => "':'"
  | .lParen => "'('"
  | .rParen => "')'"
  | .lBrack => "'['"
  | .rBrack => "']'"
  | .lBrace => "'\x7b'"
  | .rBrace => "'\x7d'"
  | .caret => "'^'"
  | .pipe => "'|'"
  | .ampersand => "'&'"
  | .tilde => "'~'"
  | .pragma _ _ => "pragma"
  | .docComment _ => "doc comment"
  | .eof => "end of file"

theorem discriminant_eq_eof {kind : TokenKind} (h : kind.discriminant = .eof) : kind = .eof := by
  cases kind <;> first | rfl | cases h

end TokenKind

/-- `Token`. -/
structure Token where
  kind : TokenKind
  loc : SourceLoc

/-- A `CompileError` of the parser. -/
structure ParseError where
  loc : SourceLoc
  message : String

/-- `Parser`, with the counts of recorded errors and of skipped tokens. -/
structure Parser where
  tokens : List Token
  pos : Nat
  errors : List ParseError
  panicMode : Bool
  recorded : Nat
  skipped : Nat

open Mx.Core

variable {α β : Type}

/-- A parsing function. -/
abbrev Parse (α : Type) := Descent Parser ParseError α

namespace Parser

/-- `Parser::new`. -/
def new (tokens : List Token) : Parser where
  tokens := tokens.filter fun tok => tok.kind.discriminant ≠ .docComment ""
  pos := 0
  errors := []
  panicMode := false
  recorded := 0
  skipped := 0

/-- The kind of the current token, if there is one. -/
def current (p : Parser) : Option TokenKind := p.tokens[p.pos]?.map Token.kind

/-! ## Helpers -/

/-- The current token. -/
def peekToken : Parse Token := fun p =>
  match p.tokens[p.pos]? with
  | some tok => .ok tok p
  | none => .outOfRange

/-- `peek`. -/
def peek : Parse TokenKind := do
  pure (← peekToken).kind

/-- `loc`. -/
def loc : Parse SourceLoc := do
  pure (← peekToken).loc

/-- `advance`. -/
def advance : Parse Token := do
  let tok ← peekToken
  Descent.modify fun p => if p.pos + 1 < p.tokens.length then { p with pos := p.pos + 1 } else p
  pure tok

/-- `at`. -/
def isAt (kind : TokenKind) : Parse Bool := do
  pure ((← peek).discriminant = kind.discriminant)

/-- `expect`. -/
def expect (expected : TokenKind) : Parse SourceLoc := do
  let loc ← loc
  let found ← peek
  if found.discriminant = expected.discriminant then
    advance >>= fun _ => pure loc
  else
    Descent.fail ⟨loc, "expected " ++ expected.describe ++ ", found " ++ found.describe⟩

/-- `expect_ident`. -/
def expectIdent : Parse String := do
  let loc ← loc
  match ← peek with
  | .ident name => advance >>= fun _ => pure name
  | found => Descent.fail ⟨loc, "expected identifier, found " ++ found.describe⟩

/-- `eat`. -/
def eat (kind : TokenKind) : Parse Bool := do
  let found ← peek
  if found.discriminant = kind.discriminant then
    advance >>= fun _ => pure true
  else
    pure false

/-- `record_error`. -/
def recordError (e : ParseError) : Parse Unit :=
  Descent.modify fun p =>
    { p with
      errors := if p.panicMode then p.errors else p.errors ++ [e]
      panicMode := true
      recorded := p.recorded + 1 }

/-- The `advance` of `synchronize`. -/
def skip : Parse Unit := do
  let _ ← advance
  Descent.modify fun p => { p with skipped := p.skipped + 1 }

/-- A turn of the loop of `synchronize`. -/
def synchronizeTurn : Parse (ForInStep Unit) := do
  match ← peek with
  | .eof => pure (.done ())
  | .IF | .WHILE | .REPEAT | .FOR | .LOOP | .WITH | .CASE | .RETURN | .EXIT | .TRY | .LOCK
  | .TYPECASE => pure (.done ())
  | .CONST | .TYPE | .VAR | .PROCEDURE | .MODULE => pure (.done ())
  | .BEGIN | .END => pure (.done ())
  | .semi => skip >>= fun _ => pure (.done ())
  | _ => skip >>= fun _ => pure (.yield ())

/-- `synchronize`. -/
def synchronize (depth : Nat) : Parse Unit := do
  Descent.modify fun p => { p with panicMode := false }
  Descent.repeated (fun _ => synchronizeTurn) depth ()

/-- `Ok` goes on; an error is recorded and the parser synchronizes. -/
def recover (depth : Nat) (p : Parse α) : Parse (Option α) := do
  match ← Descent.attempt p with
  | .ok a => pure (some a)
  | .error e => do
    recordError e
    synchronize depth
    pure none

/-- More items as long as the token is eaten: `while self.eat(&kind)`. -/
def whileEaten (depth : Nat) (kind : TokenKind) (item : Parse α) (items : List α) :
    Parse (List α) :=
  Descent.repeated (fun items => do
    if ← eat kind then
      item >>= fun next => pure (.yield (items ++ [next]))
    else
      pure (.done items)) depth items

/-- Items with a separator between them. -/
def separated (depth : Nat) (separator : TokenKind) (item : Parse α) : Parse (List α) := do
  let first ← item
  whileEaten depth separator item [first]

/-- Items separated by commas, or none in front of the closing token. -/
def separatedUntil (depth : Nat) (closing : TokenKind) (item : Parse α) : Parse (List α) := do
  if ← isAt closing then pure [] else separated depth .comma item

/-- `Some` of what stands behind the token if it is eaten: `if self.eat(&kind)`. -/
def behind (kind : TokenKind) (p : Parse α) : Parse (Option α) := do
  if ← eat kind then
    p >>= fun a => pure (some a)
  else
    pure none

/-! ## Progress -/

/-- The position is in the token list, which ends in `Eof`, and an error is known if one was
recorded or a token was skipped. -/
structure Sound (p : Parser) : Prop where
  pos_lt : p.pos < p.tokens.length
  last : ∀ tok ∈ p.tokens.getLast?, tok.kind = .eof
  told : p.recorded ≠ 0 ∨ p.skipped ≠ 0 ∨ p.panicMode = true → p.errors ≠ []

instance : Rest Parser where
  Valid := Sound
  left p := p.tokens.length - p.pos
  Onward p q := Sound q ∧ q.tokens = p.tokens ∧ p.pos ≤ q.pos
  refl h := ⟨h, rfl, le_rfl⟩
  trans h h' := ⟨h'.1, h'.2.1.trans h.2.1, Nat.le_trans h.2.2 h'.2.2⟩
  valid h := h.1
  left_le h := by
    rw [h.2.1]
    exact Nat.sub_le_sub_left h.2.2 _
  left_pos h := Nat.sub_pos_of_lt h.pos_lt

/-- The current token is of this kind. -/
def Here (kind : TokenKind) (p : Parser) : Prop := p.current = some kind

section Progress

variable {P : Parser → Prop} {k depth : Nat} {kind : TokenKind} {s t : Parser}

theorem Sound.here (hs : Sound s) : ∃ kind, Here kind s :=
  ⟨(s.tokens.get ⟨s.pos, hs.pos_lt⟩).kind, by
    simp [Here, current, List.getElem?_eq_getElem hs.pos_lt]⟩

theorem Sound.succ_lt (hs : Sound s) (hhere : Here kind s) (hkind : kind ≠ .eof) :
    s.pos + 1 < s.tokens.length := by
  have hlt := hs.pos_lt
  by_contra hge
  obtain ⟨init, tok, htokens⟩ : ∃ init tok, s.tokens = init ++ [tok] :=
    ⟨s.tokens.dropLast, s.tokens.getLast (List.ne_nil_of_length_pos (by omega)),
      (List.dropLast_append_getLast _).symm⟩
  have hlen : s.tokens.length = init.length + 1 := by simp [htokens]
  have hpos : s.pos = init.length := by omega
  have hlast : tok.kind = .eof := hs.last tok (by simp [htokens])
  have hcur : s.current = some tok.kind := by simp [current, hpos, htokens]
  rw [Here, hcur, hlast] at hhere
  exact hkind (Option.some.inj hhere).symm

/-- The state with another position that is not behind the current one. -/
theorem Sound.onward (hs : Sound s) (hle : s.pos ≤ t.pos) (hlt : t.pos < t.tokens.length)
    (htokens : t.tokens = s.tokens)
    (htold : t.recorded ≠ 0 ∨ t.skipped ≠ 0 ∨ t.panicMode = true → t.errors ≠ []) :
    Rest.Onward s t :=
  ⟨⟨hlt, by rw [htokens]; exact hs.last, htold⟩, htokens, hle⟩

section Ends

variable {E : Parser → Prop}

theorem ends_peekToken {Q : Token → Parser → Prop} (h : s.pos < s.tokens.length) :
    Descent.Ends peekToken s Q E ↔ Q s.tokens[s.pos] s := by
  simp [Descent.Ends, peekToken, List.getElem?_eq_getElem h]

theorem ends_peek {Q : TokenKind → Parser → Prop} (h : Here kind s) :
    Descent.Ends peek s Q E ↔ Q kind s := by
  obtain ⟨tok, htok, rfl⟩ := Option.map_eq_some_iff.1 h
  obtain ⟨hlt, rfl⟩ := List.getElem?_eq_some_iff.1 htok
  simp [peek, ends_peekToken hlt]

theorem ends_loc {Q : SourceLoc → Parser → Prop} (h : s.pos < s.tokens.length) :
    Descent.Ends loc s Q E ↔ Q s.tokens[s.pos].loc s := by
  simp [loc, ends_peekToken h]

theorem ends_advance {Q : Token → Parser → Prop} (h : s.pos + 1 < s.tokens.length) :
    Descent.Ends advance s Q E ↔ Q s.tokens[s.pos] { s with pos := s.pos + 1 } := by
  simp [advance, ends_peekToken (Nat.lt_of_succ_lt h), h]

end Ends

variable {f : TokenKind → Parse β} {Q : β → Parser → Parser → Prop} {E : Parser → Parser → Prop}

theorem meets_peek (h : ∀ kind, Descent.Meets (Here kind) k (f kind) Q E) :
    Descent.Meets P k (peek >>= f) Q E := by
  intro s hs _ hle
  obtain ⟨kind, hhere⟩ := hs.here
  rw [Descent.ends_bind, ends_peek hhere]
  exact h kind s hs hhere hle

theorem meets_peek_here (h : Descent.Meets (Here kind) k (f kind) Q E) :
    Descent.Meets (Here kind) k (peek >>= f) Q E := by
  intro s hs hhere hle
  rw [Descent.ends_bind, ends_peek hhere]
  exact h s hs hhere hle

theorem meets_loc {f : SourceLoc → Parse β} (h : ∀ loc, Descent.Meets P k (f loc) Q E) :
    Descent.Meets P k (loc >>= f) Q E := by
  intro s hs hP hle
  rw [Descent.ends_bind, ends_loc hs.pos_lt]
  exact h _ s hs hP hle

theorem moves_peek (h : ∀ kind, Descent.MovesAt (Here kind) k (f kind)) :
    Descent.MovesAt P k (peek >>= f) := meets_peek h

theorem peek_moves : Descent.MovesAt P k peek := by
  intro s hs _ _
  obtain ⟨kind, hhere⟩ := hs.here
  rw [ends_peek hhere]
  exact Rest.refl hs

theorem eats_peek (h : ∀ kind, Descent.EatsAt (Here kind) k (f kind)) :
    Descent.EatsAt P k (peek >>= f) := meets_peek h

theorem turns_peek {f : TokenKind → Parse (ForInStep β)}
    (h : ∀ kind, Descent.TurnsAt (Here kind) k (f kind)) :
    Descent.TurnsAt P k (peek >>= f) := meets_peek h

theorem moves_loc {f : SourceLoc → Parse β} (h : ∀ loc, Descent.MovesAt P k (f loc)) :
    Descent.MovesAt P k (loc >>= f) := meets_loc h

theorem eats_loc {f : SourceLoc → Parse β} (h : ∀ loc, Descent.EatsAt P k (f loc)) :
    Descent.EatsAt P k (loc >>= f) := meets_loc h

theorem isAt_moves : Descent.MovesAt P k (isAt kind) := moves_peek fun _ => .pure _

/-- Behind a token other than `Eof` there is another one to advance to. -/
theorem ahead_advance (hs : s.Sound) (hhere : Here kind s) (hkind : kind ≠ .eof) :
    Descent.Ahead s { s with pos := s.pos + 1 } := by
  have hlt := hs.succ_lt hhere hkind
  refine ⟨hs.onward (Nat.le_succ _) hlt rfl hs.told, ?_⟩
  change s.tokens.length - (s.pos + 1) < s.tokens.length - s.pos
  omega

theorem advance_leaves (hkind : kind ≠ .eof) : Descent.LeavesAt (Here kind) k advance := by
  intro s hs hhere _
  rw [ends_advance (hs.succ_lt hhere hkind)]
  exact ahead_advance hs hhere hkind

theorem advance_eats (hkind : kind ≠ .eof) : Descent.EatsAt (Here kind) k advance :=
  (advance_leaves hkind).eats

theorem advance_moves : Descent.MovesAt P k advance := by
  intro s hs _ _
  by_cases h : s.pos + 1 < s.tokens.length
  · rw [ends_advance h]
    exact hs.onward (Nat.le_succ _) h rfl hs.told
  · simp only [advance, Descent.ends_bind, ends_peekToken hs.pos_lt, Descent.ends_modify, if_neg h]
    exact Rest.refl hs

theorem expect_eats (hkind : kind ≠ .eof) : Descent.EatsAt P k (expect kind) := by
  refine eats_loc fun loc => eats_peek fun found => ?_
  split
  · next h =>
    have hfound : found ≠ .eof := by
      rintro rfl
      exact hkind (TokenKind.discriminant_eq_eof h.symm)
    exact (advance_eats hfound).andThen fun _ => .pure _
  · exact .fail _

theorem expectIdent_eats : Descent.EatsAt P k expectIdent := by
  refine eats_loc fun loc => eats_peek fun found => ?_
  cases found with
  | ident name => exact (advance_eats (by nofun)).andThen fun _ => .pure _
  | _ => exact .fail _

theorem expect_moves : Descent.MovesAt P k (expect kind) := by
  refine moves_loc fun loc => moves_peek fun found => ?_
  split
  · exact Descent.MovesAt.bind advance_moves fun _ => .pure _
  · exact .fail _

/-- `expect` at the token that it expects. -/
theorem expect_leaves (hkind : kind ≠ .eof) : Descent.LeavesAt (Here kind) k (expect kind) := by
  refine meets_loc fun loc => meets_peek_here ?_
  rw [if_pos rfl]
  exact (advance_leaves hkind).andThen fun _ => .pure _

/-- `expect_ident` at an identifier. -/
theorem expectIdent_leaves {name : String} :
    Descent.LeavesAt (Here (.ident name)) k expectIdent :=
  meets_loc fun _ => meets_peek_here ((advance_leaves (by nofun)).andThen fun _ => .pure _)

/-- What was eaten is behind the position; otherwise the state is the same. -/
theorem ends_eat (hkind : kind ≠ .eof) (hs : s.Sound) :
    Descent.Ends (eat kind) s (fun b t => if b = true then Descent.Ahead s t else t = s)
      fun _ => False := by
  obtain ⟨found, hhere⟩ := hs.here
  rw [eat, Descent.ends_bind, ends_peek hhere]
  split
  · next h =>
    have hfound : found ≠ .eof := by
      rintro rfl
      exact hkind (TokenKind.discriminant_eq_eof h.symm)
    rw [Descent.ends_bind, ends_advance (hs.succ_lt hhere hfound)]
    exact ahead_advance hs hhere hfound
  · rfl

theorem eat_moves (hkind : kind ≠ .eof) : Descent.MovesAt P k (eat kind) := by
  intro s hs _ _
  refine (ends_eat hkind hs).mono (fun b t h => ?_) fun _ h => h.elim
  cases b with
  | true => exact h.1
  | false =>
    obtain rfl : t = s := h
    exact Rest.refl hs

/-- The branches behind an `eat`: less is left if the token was there. -/
theorem moves_eat {p q : Parse β} (hkind : kind ≠ .eof) (hp : Descent.Moves k p)
    (hq : Descent.MovesAt P (k + 1) q) :
    Descent.MovesAt P (k + 1) (eat kind >>= fun b => if b = true then p else q) := by
  intro s hs hP hle
  refine Descent.ends_bind.2 ((ends_eat hkind hs).mono (fun b t h => ?_) fun _ h => h.elim)
  cases b with
  | true =>
    have hlt : Rest.left t < Rest.left s := h.2
    exact (hp t h.1.1 trivial (by omega)).mono (fun _ _ h' => Rest.trans h.1 h')
      fun _ h' => Rest.trans h.1 h'
  | false =>
    obtain rfl : t = s := h
    exact hq t hs hP hle

/-- A turn that goes on behind a token. -/
theorem turns_eat {p q : Parse (ForInStep β)} (hkind : kind ≠ .eof) (hp : Descent.Moves k p)
    (hq : Descent.TurnsAt P k q) :
    Descent.TurnsAt P k (eat kind >>= fun b => if b = true then p else q) := by
  intro s hs hP hle
  refine Descent.ends_bind.2 ((ends_eat hkind hs).mono (fun b t h => ?_) fun _ h => h.elim)
  cases b with
  | true =>
    have hle' : Rest.left t ≤ k := Nat.le_trans (Rest.left_le h.1) hle
    exact (hp t h.1.1 trivial hle').mono
      (fun _ _ h' => ⟨Rest.trans h.1 h', fun _ _ => (h.trans h').2⟩)
      fun _ h' => Rest.trans h.1 h'
  | false =>
    obtain rfl : t = s := h
    exact hq t hs hP hle

variable {item : Parse α}

theorem whileEaten_moves (hkind : kind ≠ .eof) (hk : k ≤ depth)
    (h : Descent.Moves k item) (items : List α) :
    Descent.MovesAt P k (whileEaten depth kind item items) :=
  Descent.MovesAt.at (Descent.Moves.repeated hk
    (fun _ => turns_eat hkind (h.bind fun _ => .pure _) (.done _)) items)

theorem separated_moves (hkind : kind ≠ .eof) (hk : k ≤ depth)
    (h : Descent.Moves k item) : Descent.MovesAt P k (separated depth kind item) :=
  h.at.bind fun first => whileEaten_moves hkind hk h [first]

theorem separated_eats (hkind : kind ≠ .eof) (hk : k ≤ depth)
    (h : Descent.Eats k item) : Descent.EatsAt P k (separated depth kind item) :=
  h.at.andThen fun first => whileEaten_moves hkind hk h.moves [first]

theorem separatedUntil_moves (hk : k ≤ depth) (h : Descent.Moves k item) :
    Descent.MovesAt P k (separatedUntil depth kind item) :=
  isAt_moves.bind fun _ => .ite (.pure _) (separated_moves (by nofun) hk h)

variable {p : Parse α}

theorem behind_moves (hkind : kind ≠ .eof) (h : Descent.Moves k p) :
    Descent.MovesAt P k (behind kind p) :=
  (eat_moves hkind).bind fun _ => .ite (h.bind fun _ => .pure _) (.pure _)

/-! ### Recovery -/

/-- There is a recorded error. -/
def Erring (p : Parser) : Prop := p.errors ≠ []

theorem ends_recordError {e : ParseError} (hs : s.Sound) :
    Descent.Ends (recordError e) s (fun _ t => Rest.Onward s t ∧ Erring t) fun _ => False := by
  have herring : (if s.panicMode then s.errors else s.errors ++ [e]) ≠ [] := by
    split
    · next hpanic => exact hs.told (.inr (.inr hpanic))
    · simp
  exact ⟨hs.onward le_rfl hs.pos_lt rfl fun _ => herring, herring⟩

/-- Skipping uses a token up and keeps the errors. -/
theorem skip_leaves (hkind : kind ≠ .eof) :
    Descent.Meets (fun p => Erring p ∧ Here kind p) k skip
      (fun _ s t => Descent.Ahead s t ∧ Erring t) fun _ _ => False := by
  intro s hs hP _
  have hahead := ahead_advance hs hP.2 hkind
  rw [skip, Descent.ends_bind, ends_advance (hs.succ_lt hP.2 hkind)]
  refine ⟨⟨hs.onward (Nat.le_succ _) (hs.succ_lt hP.2 hkind) rfl fun _ => hP.1, ?_⟩, hP.1⟩
  exact hahead.2

theorem synchronizeTurn_meets : Descent.Meets Erring k synchronizeTurn
    (fun r s t => Rest.Onward s t ∧ Erring t ∧ ∀ b, r = .yield b → Rest.left t < Rest.left s)
    Rest.Onward := by
  intro s hs herring hle
  obtain ⟨kind, hhere⟩ := hs.here
  have hstop : Rest.Onward s s ∧ Erring s ∧
      ∀ b, ForInStep.done () = .yield b → Rest.left s < Rest.left s :=
    ⟨Rest.refl hs, herring, nofun⟩
  rw [synchronizeTurn, Descent.ends_bind, ends_peek hhere]
  split
  case h_21 =>
    have hskip := skip_leaves (by nofun) s hs ⟨herring, hhere⟩ hle
    exact Descent.ends_bind.2
      (hskip.mono (fun _ t h => ⟨h.1.onward, h.2, nofun⟩) fun _ h => h.elim)
  case h_22 hne _ _ _ _ _ _ _ _ _ _ _ _ _ _ _ _ _ _ _ _ =>
    have hskip := skip_leaves hne s hs ⟨herring, hhere⟩ hle
    exact Descent.ends_bind.2
      (hskip.mono (fun _ t h => ⟨h.1.onward, h.2, fun _ _ => h.1.2⟩) fun _ h => h.elim)
  all_goals exact hstop

theorem synchronize_moves (hk : k ≤ depth) : Descent.MovesAt Erring k (synchronize depth) := by
  intro s hs herring hle
  have hon : Rest.Onward s { s with panicMode := false } :=
    hs.onward le_rfl hs.pos_lt rfl fun _ => herring
  rw [synchronize, Descent.ends_bind, Descent.ends_modify]
  refine (Descent.MovesAt.repeated hk (fun _ => synchronizeTurn_meets) () _ hon.1 herring hle).mono
    (fun _ _ h => Rest.trans hon h) fun _ h => Rest.trans hon h

/-- What leads at least as far as the function behind it recovers from, that leads as far. -/
theorem recover_meets {Q : Parser → Parser → Prop} (hk : k ≤ depth)
    (hQ : ∀ s t, Q s t → Rest.Onward s t) (htrans : ∀ s t u, Q s t → Rest.Onward t u → Q s u)
    (hp : Descent.Meets P k p (fun _ => Q) Q) :
    Descent.Meets P k (recover depth p) (fun _ => Q) Q := by
  intro s hs hP hle
  rw [recover, Descent.ends_bind, Descent.ends_attempt]
  rcases (hp s hs hP hle).cases with ⟨a, t, hpt, ht⟩ | ⟨e, t, hpt, ht⟩
  · rw [hpt]
    exact ht
  · rw [hpt]
    have hrecord := ends_recordError (e := e) (hQ s t ht).1
    refine Descent.ends_bind.2 (hrecord.mono (fun _ u hu => ?_) fun _ h => h.elim)
    have hsu : Q s u := htrans s t u ht hu.1
    have hle' : Rest.left u ≤ k := Nat.le_trans (Rest.left_le (hQ s u hsu)) hle
    have hsync := synchronize_moves hk u hu.1.1 hu.2 hle'
    exact Descent.ends_bind.2
      (hsync.mono (fun _ v hv => htrans s u v hsu hv) fun v hv => htrans s u v hsu hv)

theorem recover_moves (hk : k ≤ depth) (hp : Descent.MovesAt P k p) :
    Descent.MovesAt P k (recover depth p) :=
  recover_meets hk (fun _ _ h => h) (fun _ _ _ => Rest.trans) hp

theorem recover_leaves (hk : k ≤ depth) (hp : Descent.LeavesAt P k p) :
    Descent.LeavesAt P k (recover depth p) :=
  recover_meets hk (fun _ _ h => h.1) (fun _ _ _ => Descent.Ahead.trans) hp

end Progress

end Parser

end Mx

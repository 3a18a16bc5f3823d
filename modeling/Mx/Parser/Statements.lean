import Mx.Parser.Types

/-!
# Parsing statements

A statement starts with a keyword or a designator and calls statement sequences behind it. A
sequence goes on behind a semicolon, also after an error. The name of an exception handler is read
twice when a variable follows it.
-/

namespace Mx.Parser

open Ast

/-! ## The functions -/

section Grammar

variable {α : Type} (depth : Nat) (statements : Parse (List Statement))

/-- What follows a call in a statement: the selectors of a type transfer that is assigned to, or
nothing. -/
def afterCall (desig : Designator) (args : List Expr) : Parse Statement := do
  match ← peek with
  | .caret | .dot | .lBrack => do
    let selectors ← Core.Descent.repeated (selectorTurn depth (parseExpression depth)) depth
      (desig.selectors ++ [.call args])
    let _ ← expect .assign
    let expr ← parseExpression depth
    pure (.assign { desig with selectors := selectors } expr)
  | _ => pure (.procCall desig args)

/-- `parse_assign_or_call`. -/
def parseAssignOrCall : Parse Statement := do
  let desig ← parseDesignator depth (parseExpression depth)
  if ← eat .assign then
    parseExpression depth >>= fun expr => pure (.assign desig expr)
  else
    (eat .lParen >>= fun called =>
      if called = true then
        separatedUntil depth .rParen (parseExpression depth) >>= fun args =>
          expect .rParen >>= fun _ => afterCall depth desig args
      else
        pure (.procCall desig []))

/-- A condition and the statements behind `THEN`. -/
def guarded : Parse (Expr × List Statement) := do
  let cond ← parseExpression depth
  let _ ← expect .THEN
  let body ← statements
  pure (cond, body)

/-- `parse_if`. -/
def parseIf : Parse Statement := do
  let _ ← expect .IF
  let (cond, thenBody) ← guarded depth statements
  let elsifs ← whileEaten depth .ELSIF (guarded depth statements) []
  let elseBody ← behind .ELSE statements
  let _ ← expect .END
  pure (.ifThen cond thenBody elsifs elseBody)

/-- `parse_case_branch`. -/
def parseCaseBranch : Parse CaseBranch := do
  let labels ← parseCaseLabels depth
  let _ ← expect .colon
  let body ← statements
  pure ⟨labels, body⟩

/-- The branches in front of `ELSE` or `END`. -/
def branches (branch : Parse α) : Parse (List α) := do
  match ← peek with
  | .END | .ELSE => pure []
  | _ => separated depth .pipe branch

/-- `parse_case`. -/
def parseCase : Parse Statement := do
  let _ ← expect .CASE
  let expr ← parseExpression depth
  let _ ← expect .OF
  let _ ← eat .pipe
  let branches ← branches depth (parseCaseBranch depth statements)
  let elseBody ← behind .ELSE statements
  let _ ← expect .END
  pure (.case expr branches elseBody)

/-- `parse_while`. -/
def parseWhile : Parse Statement := do
  let _ ← expect .WHILE
  let cond ← parseExpression depth
  let _ ← expect .DO
  let body ← statements
  let _ ← expect .END
  pure (.while cond body)

/-- `parse_repeat`. -/
def parseRepeat : Parse Statement := do
  let _ ← expect .REPEAT
  let body ← statements
  let _ ← expect .UNTIL
  let cond ← parseExpression depth
  pure (.repeat body cond)

/-- `parse_for`. -/
def parseFor : Parse Statement := do
  let _ ← expect .FOR
  let var ← expectIdent
  let _ ← expect .assign
  let start ← parseExpression depth
  let _ ← expect .TO
  let stop ← parseExpression depth
  let step ← behind .BY (parseExpression depth)
  let _ ← expect .DO
  let body ← statements
  let _ ← expect .END
  pure (.for var start stop step body)

/-- `parse_loop`. -/
def parseLoop : Parse Statement := do
  let _ ← expect .LOOP
  let body ← statements
  let _ ← expect .END
  pure (.loop body)

/-- `parse_with`. -/
def parseWith : Parse Statement := do
  let _ ← expect .WITH
  let desig ← parseDesignator depth (parseExpression depth)
  let _ ← expect .DO
  let body ← statements
  let _ ← expect .END
  pure (.with desig body)

/-- `parse_return`. -/
def parseReturn : Parse Statement := do
  let _ ← expect .RETURN
  match ← peek with
  | .semi | .END | .ELSE | .ELSIF | .UNTIL | .pipe | .eof => pure (.return none)
  | _ => do
    let expr ← parseExpression depth
    pure (.return (some expr))

/-- `RAISE`. -/
def parseRaise : Parse Statement := do
  let _ ← advance
  match ← peek with
  | .semi | .END | .ELSE | .ELSIF | .pipe => pure (.raise none)
  | _ => do
    let expr ← parseExpression depth
    pure (.raise (some expr))

/-- Whether `( Ident ) DO` follows; the tokens are consumed as far as they do. -/
def boundHandler : Parse Bool := do
  let _ ← advance
  match ← peek with
  | .ident _ => do
    let _ ← expectIdent
    match ← peek with
    | .rParen => do
      let _ ← advance
      isAt .DO
    | _ => pure false
  | _ => pure false

/-- The name of an exception handler, told from a handler for all exceptions by looking ahead. -/
def handlerName : Parse (Option QualIdent) := do
  let saved ← Core.Descent.get
  match ← peek with
  | .ident _ => do
    let name ← expectIdent
    match ← peek with
    | .DO => pure (some ⟨none, name⟩)
    | .lParen => do
      let bound ← boundHandler
      rewind saved.pos
      if bound then
        expectIdent >>= fun name => pure (some ⟨none, name⟩)
      else
        pure none
    | _ => do
      rewind saved.pos
      pure none
  | _ => pure none

/-- A name in parentheses behind the opening one. -/
def boundVar : Parse String := do
  let v ← expectIdent
  let _ ← expect .rParen
  pure v

/-- A handler of a `TRY`. -/
def exceptClause : Parse ExceptClause := do
  match ← handlerName with
  | some exception => do
    let var ← behind .lParen boundVar
    let _ ← eat .DO
    let body ← statements
    pure ⟨some exception, var, body⟩
  | none => do
    let body ← statements
    pure ⟨none, none, body⟩

/-- `parse_try`. -/
def parseTry : Parse Statement := do
  let _ ← expect .TRY
  let body ← statements
  let excepts ← whileEaten depth .EXCEPT (exceptClause statements) []
  let finallyBody ← behind .FINALLY statements
  let _ ← expect .END
  pure (.try body excepts finallyBody)

/-- `parse_lock`. -/
def parseLock : Parse Statement := do
  let _ ← expect .LOCK
  let mutex ← parseExpression depth
  let _ ← expect .DO
  let body ← statements
  let _ ← expect .END
  pure (.lock mutex body)

/-- `parse_typecase_branch`. -/
def parseTypecaseBranch : Parse TypeCaseBranch := do
  let types ← separated depth .comma parseQualident
  let var ← behind .lParen boundVar
  let _ ← expect .colon
  let body ← statements
  pure ⟨types, var, body⟩

/-- `parse_typecase`. -/
def parseTypecase : Parse Statement := do
  let _ ← expect .TYPECASE
  let expr ← parseExpression depth
  let _ ← expect .OF
  let branches ← branches depth (parseTypecaseBranch depth statements)
  let elseBody ← behind .ELSE statements
  let _ ← expect .END
  pure (.typeCase expr branches elseBody)

/-- A statement of one keyword. -/
def keywordStatement (s : Statement) : Parse Statement := do
  let _ ← advance
  pure s

/-- `parse_statement`. -/
def parseStatement : Parse Statement := do
  match ← peek with
  | .ident _ => parseAssignOrCall depth
  | .IF => parseIf depth statements
  | .CASE => parseCase depth statements
  | .WHILE => parseWhile depth statements
  | .REPEAT => parseRepeat depth statements
  | .FOR => parseFor depth statements
  | .LOOP => parseLoop statements
  | .WITH => parseWith depth statements
  | .RETURN => parseReturn depth
  | .EXIT => keywordStatement .exit
  | .RETRY => keywordStatement .retry
  | .RAISE => parseRaise depth
  | .TRY => parseTry depth statements
  | .LOCK => parseLock depth statements
  | .TYPECASE => parseTypecase depth statements
  | _ => pure .empty

/-- A statement; an error in it is recorded. -/
def recoveredStatement (stmts : List Statement) : Parse (List Statement) := do
  let s ← recover depth (parseStatement depth statements)
  pure (stmts ++ s.toList)

/-- A statement and those behind semicolons. -/
def sequenceBody : Parse (List Statement) := do
  let first ← recoveredStatement depth statements []
  Core.Descent.repeated (fun stmts => do
    if ← eat .semi then
      recoveredStatement depth statements stmts >>= fun stmts => pure (.yield stmts)
    else
      pure (.done stmts)) depth first

end Grammar

/-- `parse_statement_sequence`, to a depth of recursion. -/
def parseStatementSequence : Nat → Parse (List Statement)
  | 0 => fun _ => .tooDeep
  | depth + 1 => sequenceBody (depth + 1) (parseStatementSequence depth)

/-! ## Progress -/

open Mx.Core Mx.Core.Descent

section Progress

variable {α : Type} {P : Parser → Prop} {k depth : Nat} {statements : Parse (List Statement)}

theorem afterCall_moves (hk : k ≤ depth) (desig : Designator) (args : List Expr) :
    MovesAt P k (afterCall depth desig args) := by
  have hexpr : Descent.Moves k (parseExpression depth) := parseExpression_moves hk
  have hselectors : ∀ selectors,
      Descent.Moves k (repeated (selectorTurn depth (parseExpression depth)) depth selectors) :=
    Descent.Moves.repeated hk fun selectors => selectorTurn_turns hk hexpr selectors
  have hassign : Descent.Moves k (do
      let selectors ← repeated (selectorTurn depth (parseExpression depth)) depth
        (desig.selectors ++ [.call args])
      let _ ← expect .assign
      let expr ← parseExpression depth
      pure (Statement.assign { desig with selectors := selectors } expr)) :=
    (hselectors _).bind fun _ => expect_moves.bind fun _ => hexpr.bind fun _ => .pure _
  refine moves_peek fun kind => ?_
  split
  · exact hassign.at
  · exact hassign.at
  · exact hassign.at
  · exact .pure _

theorem parseAssignOrCall_moves (hk : k + 1 ≤ depth) :
    MovesAt P (k + 1) (parseAssignOrCall depth) := by
  have hk' : k ≤ depth := Nat.le_of_succ_le hk
  have hexpr : Descent.Moves k (parseExpression depth) := parseExpression_moves hk'
  refine EatsAt.moves ((parseDesignator_eats hk hexpr).bind fun desig => ?_)
  refine (eat_moves (by nofun)).bind fun _ => .ite (hexpr.bind fun _ => .pure _) ?_
  refine (eat_moves (by nofun)).bind fun _ => .ite ?_ (.pure _)
  exact (separatedUntil_moves hk' hexpr).bind fun args => expect_moves.bind fun _ =>
    afterCall_moves hk' desig args

theorem guarded_moves (hk : k ≤ depth) (hs : Descent.Moves k statements) :
    MovesAt P k (guarded depth statements) :=
  (parseExpression_moves hk).bind fun _ => expect_moves.bind fun _ => hs.bind fun _ => .pure _

theorem parseIf_moves (hk : k ≤ depth) (hs : Descent.Moves k statements) :
    MovesAt P (k + 1) (parseIf depth statements) :=
  EatsAt.moves ((expect_eats (by nofun)).bind fun _ => (guarded_moves hk hs).bind fun _ =>
    (whileEaten_moves (by nofun) hk (guarded_moves hk hs) []).bind fun _ =>
    (behind_moves (by nofun) hs).bind fun _ => expect_moves.bind fun _ => .pure _)

theorem branches_moves {branch : Parse α} (hk : k ≤ depth) (h : Descent.Moves k branch) :
    MovesAt P k (branches depth branch) := by
  refine moves_peek fun kind => ?_
  split
  · exact .pure _
  · exact .pure _
  · exact separated_moves (by nofun) hk h

theorem parseCaseBranch_moves (hk : k ≤ depth) (hs : Descent.Moves k statements) :
    MovesAt P k (parseCaseBranch depth statements) :=
  (parseCaseLabels_moves hk).bind fun _ => expect_moves.bind fun _ => hs.bind fun _ => .pure _

theorem parseCase_moves (hk : k ≤ depth) (hs : Descent.Moves k statements) :
    MovesAt P (k + 1) (parseCase depth statements) :=
  EatsAt.moves ((expect_eats (by nofun)).bind fun _ => (parseExpression_moves hk).bind fun _ =>
    expect_moves.bind fun _ => (eat_moves (by nofun)).bind fun _ =>
    (branches_moves hk (parseCaseBranch_moves hk hs)).bind fun _ =>
    (behind_moves (by nofun) hs).bind fun _ => expect_moves.bind fun _ => .pure _)

theorem parseWhile_moves (hk : k ≤ depth) (hs : Descent.Moves k statements) :
    MovesAt P (k + 1) (parseWhile depth statements) :=
  EatsAt.moves ((expect_eats (by nofun)).bind fun _ => (parseExpression_moves hk).bind fun _ =>
    expect_moves.bind fun _ => hs.bind fun _ => expect_moves.bind fun _ => .pure _)

theorem parseRepeat_moves (hk : k ≤ depth) (hs : Descent.Moves k statements) :
    MovesAt P (k + 1) (parseRepeat depth statements) :=
  EatsAt.moves ((expect_eats (by nofun)).bind fun _ => hs.bind fun _ =>
    expect_moves.bind fun _ => (parseExpression_moves hk).bind fun _ => .pure _)

theorem parseFor_moves (hk : k ≤ depth) (hs : Descent.Moves k statements) :
    MovesAt P (k + 1) (parseFor depth statements) := by
  have hexpr : Descent.Moves k (parseExpression depth) := parseExpression_moves hk
  exact EatsAt.moves ((expect_eats (by nofun)).bind fun _ =>
    expectIdent_eats.moves.bind fun _ => expect_moves.bind fun _ => hexpr.bind fun _ =>
    expect_moves.bind fun _ => hexpr.bind fun _ => (behind_moves (by nofun) hexpr).bind fun _ =>
    expect_moves.bind fun _ => hs.bind fun _ => expect_moves.bind fun _ => .pure _)

theorem parseLoop_moves (hs : Descent.Moves k statements) :
    MovesAt P (k + 1) (parseLoop statements) :=
  EatsAt.moves ((expect_eats (by nofun)).bind fun _ => hs.bind fun _ =>
    expect_moves.bind fun _ => .pure _)

theorem parseWith_moves (hk : k + 1 ≤ depth) (hs : Descent.Moves k statements) :
    MovesAt P (k + 1) (parseWith depth statements) := by
  have hexpr : Descent.Moves k (parseExpression depth) :=
    parseExpression_moves (Nat.le_of_succ_le hk)
  have hdesig : Descent.Moves k (parseDesignator depth (parseExpression depth)) :=
    ((parseDesignator_eats hk hexpr).mono (Nat.le_succ k)).moves
  exact EatsAt.moves ((expect_eats (by nofun)).bind fun _ => hdesig.bind fun _ =>
    expect_moves.bind fun _ => hs.bind fun _ => expect_moves.bind fun _ => .pure _)

theorem parseReturn_moves (hk : k ≤ depth) : MovesAt P k (parseReturn depth) := by
  refine expect_moves.bind fun _ => moves_peek fun kind => ?_
  split
  case h_8 => exact (parseExpression_moves hk).bind fun _ => .pure _
  all_goals exact .pure _

theorem parseRaise_moves (hk : k ≤ depth) : MovesAt P k (parseRaise depth) := by
  refine advance_moves.bind fun _ => moves_peek fun kind => ?_
  split
  case h_6 => exact (parseExpression_moves hk).bind fun _ => .pure _
  all_goals exact .pure _

theorem boundHandler_moves : MovesAt P k boundHandler := by
  refine advance_moves.bind fun _ => moves_peek fun kind => ?_
  split
  · refine expectIdent_eats.moves.bind fun _ => moves_peek fun behind => ?_
    split
    · exact advance_moves.bind fun _ => isAt_moves
    · exact .pure _
  · exact .pure _

/-- The look-ahead goes back no further than to where it started. -/
theorem handlerName_moves : MovesAt P k handlerName := by
  refine moves_get fun s hs => ?_
  have hpeek : Descent.Moves k peek := peek_moves
  have hident : Descent.Moves k expectIdent := expectIdent_eats.moves
  have hbound : Descent.Moves k boundHandler := boundHandler_moves
  refine (hpeek.from hs).bind fun kind => ?_
  split
  · refine (hident.from hs).bind fun name => (hpeek.from hs).bind fun behind => ?_
    split
    · exact .pure _
    · refine (hbound.from hs).bind fun bound => (rewind_from s).bind fun _ => .ite ?_ (.pure _)
      exact (hident.from hs).bind fun _ => .pure _
    · exact (rewind_from s).bind fun _ => .pure _
  · exact .pure _

theorem boundVar_moves : MovesAt P k boundVar :=
  expectIdent_eats.moves.bind fun _ => expect_moves.bind fun _ => .pure _

theorem exceptClause_moves (hs : Descent.Moves k statements) :
    MovesAt P k (exceptClause statements) := by
  refine handlerName_moves.bind fun name => ?_
  cases name with
  | some exception =>
    exact (behind_moves (by nofun) boundVar_moves).bind fun _ =>
      (eat_moves (by nofun)).bind fun _ => hs.bind fun _ => .pure _
  | none => exact hs.bind fun _ => .pure _

theorem parseTry_moves (hk : k ≤ depth) (hs : Descent.Moves k statements) :
    MovesAt P (k + 1) (parseTry depth statements) :=
  EatsAt.moves ((expect_eats (by nofun)).bind fun _ => hs.bind fun _ =>
    (whileEaten_moves (by nofun) hk (exceptClause_moves hs) []).bind fun _ =>
    (behind_moves (by nofun) hs).bind fun _ => expect_moves.bind fun _ => .pure _)

theorem parseLock_moves (hk : k ≤ depth) (hs : Descent.Moves k statements) :
    MovesAt P (k + 1) (parseLock depth statements) :=
  EatsAt.moves ((expect_eats (by nofun)).bind fun _ => (parseExpression_moves hk).bind fun _ =>
    expect_moves.bind fun _ => hs.bind fun _ => expect_moves.bind fun _ => .pure _)

theorem parseTypecaseBranch_moves (hk : k ≤ depth) (hs : Descent.Moves k statements) :
    MovesAt P k (parseTypecaseBranch depth statements) :=
  (separated_moves (by nofun) hk parseQualident_eats.moves).bind fun _ =>
    (behind_moves (by nofun) boundVar_moves).bind fun _ => expect_moves.bind fun _ =>
    hs.bind fun _ => .pure _

theorem parseTypecase_moves (hk : k ≤ depth) (hs : Descent.Moves k statements) :
    MovesAt P (k + 1) (parseTypecase depth statements) :=
  EatsAt.moves ((expect_eats (by nofun)).bind fun _ => (parseExpression_moves hk).bind fun _ =>
    expect_moves.bind fun _ =>
    (branches_moves hk (parseTypecaseBranch_moves hk hs)).bind fun _ =>
    (behind_moves (by nofun) hs).bind fun _ => expect_moves.bind fun _ => .pure _)

theorem keywordStatement_moves (s : Statement) : MovesAt P k (keywordStatement s) :=
  advance_moves.bind fun _ => .pure _

theorem parseStatement_moves (hk : k + 1 ≤ depth) (hs : Descent.Moves k statements) :
    MovesAt P (k + 1) (parseStatement depth statements) := by
  have hk' : k ≤ depth := Nat.le_of_succ_le hk
  refine moves_peek fun kind => ?_
  split
  · exact parseAssignOrCall_moves hk
  · exact parseIf_moves hk' hs
  · exact parseCase_moves hk' hs
  · exact parseWhile_moves hk' hs
  · exact parseRepeat_moves hk' hs
  · exact parseFor_moves hk' hs
  · exact parseLoop_moves hs
  · exact parseWith_moves hk hs
  · exact parseReturn_moves hk
  · exact keywordStatement_moves .exit
  · exact keywordStatement_moves .retry
  · exact parseRaise_moves hk
  · exact parseTry_moves hk' hs
  · exact parseLock_moves hk' hs
  · exact parseTypecase_moves hk' hs
  · exact .pure _

theorem sequenceBody_moves (hk : k + 1 ≤ depth) (hs : Descent.Moves k statements) :
    MovesAt P (k + 1) (sequenceBody depth statements) := by
  have hrecover : ∀ stmts, Descent.Moves (k + 1) (recoveredStatement depth statements stmts) :=
    fun _ => (recover_moves hk (parseStatement_moves hk hs)).bind fun _ => .pure _
  refine MovesAt.at ((hrecover []).bind fun first =>
    Descent.Moves.repeated hk (fun stmts => ?_) first)
  exact turns_eat (by nofun) ((hrecover stmts).bind fun _ => .pure _) (.done _)

/-- A statement sequence needs no more depth than there are tokens left. -/
theorem parseStatementSequence_moves (hk : k ≤ depth) :
    MovesAt P k (parseStatementSequence depth) := by
  induction depth generalizing k P with
  | zero => exact MovesAt.zero.mono hk
  | succ depth ih =>
    have hbody : MovesAt P (depth + 1)
        (sequenceBody (depth + 1) (parseStatementSequence depth)) :=
      sequenceBody_moves le_rfl (ih le_rfl)
    exact hbody.mono hk

end Progress

end Mx.Parser

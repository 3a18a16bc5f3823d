import Mx.Parser.Ast
import Mx.Parser.State

/-!
# Parsing expressions

The precedence levels of expressions, one function over the other; a factor calls the whole chain
again for a parenthesis, an argument, an index or a set element, each behind a token of its own.
-/

namespace Mx.Parser

open Ast

/-! ## The functions -/

/-- The loop of a left-associative level: `parse_or_expr`, `parse_and_expr`, `parse_add_expr` and
`parse_mul_expr`. -/
def binaryLevel (depth : Nat) (op : TokenKind → Option BinaryOp) (operand : Parse Expr) :
    Parse Expr := do
  let first ← operand
  Core.Descent.repeated (fun left => do
    match op (← peek) with
    | some op => do
      let loc ← loc
      let _ ← advance
      let right ← operand
      pure (.yield ⟨.binaryOp op left right, loc⟩)
    | none => pure (.done left)) depth first

/-- The operator of `parse_or_expr`. -/
def orOp : TokenKind → Option BinaryOp
  | .OR => some .or
  | _ => none

/-- The operators of `parse_and_expr`. -/
def andOp : TokenKind → Option BinaryOp
  | .AND | .ampersand => some .and
  | _ => none

/-- The operators of `parse_rel_expr`. -/
def relOp : TokenKind → Option BinaryOp
  | .eq => some .eq
  | .hash | .notEq => some .ne
  | .lt => some .lt
  | .le => some .le
  | .gt => some .gt
  | .ge => some .ge
  | .IN => some .isIn
  | _ => none

/-- The operators of `parse_add_expr`. -/
def addOp : TokenKind → Option BinaryOp
  | .plus => some .add
  | .minus => some .sub
  | _ => none

/-- The operators of `parse_mul_expr`. -/
def mulOp : TokenKind → Option BinaryOp
  | .star => some .mul
  | .slash => some .realDiv
  | .DIV => some .intDiv
  | .MOD => some .mod
  | _ => none

section Grammar

variable (depth : Nat) (expression : Parse Expr)

/-- A turn of the loop over selectors. -/
def selectorTurn (selectors : List Selector) : Parse (ForInStep (List Selector)) := do
  match ← peek with
  | .dot => do
    let _ ← advance
    let field ← expectIdent
    pure (.yield (selectors ++ [.field field]))
  | .lBrack => do
    let _ ← advance
    let indices ← separated depth .comma expression
    let _ ← expect .rBrack
    pure (.yield (selectors ++ [.index indices]))
  | .caret => do
    let _ ← advance
    pure (.yield (selectors ++ [.deref]))
  | _ => pure (.done selectors)

/-- `parse_designator`. -/
def parseDesignator : Parse Designator := do
  let loc ← loc
  let name ← expectIdent
  let selectors ← Core.Descent.repeated (selectorTurn depth expression) depth []
  pure ⟨⟨none, name⟩, selectors, loc⟩

/-- `parse_set_element`. -/
def parseSetElement : Parse SetElement := do
  let e ← expression
  if ← eat .dotDot then
    expression >>= fun high => pure (.range e high)
  else
    pure (.single e)

/-- `parse_set_constructor`. -/
def parseSetConstructor (base : Option QualIdent) : Parse Expr := do
  let loc ← loc
  let _ ← expect .lBrace
  let elements ← separatedUntil depth .rBrace (parseSetElement expression)
  let _ ← expect .rBrace
  pure ⟨.setConstructor base elements, loc⟩

/-- The dereferences behind a call. -/
def callDerefs (result : Expr) : Parse Expr :=
  Core.Descent.repeated (fun result => do
    match ← peek with
    | .caret => do
      let loc ← loc
      let _ ← advance
      pure (.yield ⟨.deref result, loc⟩)
    | _ => pure (.done result)) depth result

/-- A literal factor. -/
def literalFactor (loc : SourceLoc) (kind : ExprKind) : Parse Expr := do
  let _ ← advance
  pure ⟨kind, loc⟩

/-- `parse_factor`. -/
def parseFactor : Parse Expr := do
  let loc ← loc
  match ← peek with
  | .intLit v => literalFactor loc (.intLit v)
  | .realLit v => literalFactor loc (.realLit v)
  | .stringLit s => literalFactor loc (.stringLit s)
  | .charLit c => literalFactor loc (.charLit c)
  | .lParen => do
    let _ ← advance
    let e ← expression
    let _ ← expect .rParen
    pure e
  | .lBrace => parseSetConstructor depth expression none
  | .ident _ => do
    let desig ← parseDesignator depth expression
    match ← peek with
    | .lParen => do
      let _ ← advance
      let args ← separatedUntil depth .rParen expression
      let _ ← expect .rParen
      callDerefs depth ⟨.funcCall desig args, loc⟩
    | .lBrace => parseSetConstructor depth expression (some desig.ident)
    | _ => pure ⟨.designator desig, loc⟩
  | found => Core.Descent.fail ⟨loc, "expected expression, found " ++ found.describe⟩

/-- A sign or a negation with its operand. -/
def prefixed (kind : Expr → ExprKind) : Parse Expr := do
  let loc ← loc
  let _ ← advance
  let operand ← parseFactor depth expression
  pure ⟨kind operand, loc⟩

/-- `parse_unary_expr`. -/
def parseUnaryExpr : Parse Expr := do
  match ← peek with
  | .plus => prefixed depth expression (.unaryOp .pos)
  | .minus => prefixed depth expression (.unaryOp .neg)
  | .NOT | .tilde => prefixed depth expression .not
  | _ => parseFactor depth expression

/-- `parse_mul_expr`. -/
def parseMulExpr : Parse Expr := binaryLevel depth mulOp (parseUnaryExpr depth expression)

/-- `parse_add_expr`. -/
def parseAddExpr : Parse Expr := binaryLevel depth addOp (parseMulExpr depth expression)

/-- `parse_rel_expr`. -/
def parseRelExpr : Parse Expr := do
  let left ← parseAddExpr depth expression
  match relOp (← peek) with
  | some op => do
    let loc ← loc
    let _ ← advance
    let right ← parseAddExpr depth expression
    pure ⟨.binaryOp op left right, loc⟩
  | none => pure left

/-- `parse_and_expr`. -/
def parseAndExpr : Parse Expr := binaryLevel depth andOp (parseRelExpr depth expression)

/-- `parse_or_expr`. -/
def parseOrExpr : Parse Expr := binaryLevel depth orOp (parseAndExpr depth expression)

end Grammar

/-- `parse_expression`, to a depth of recursion. -/
def parseExpression : Nat → Parse Expr
  | 0 => fun _ => .tooDeep
  | depth + 1 => parseOrExpr (depth + 1) (parseExpression depth)

/-! ## Progress -/

open Mx.Core Mx.Core.Descent

section Progress

variable {P : Parser → Prop} {k depth : Nat} {expression : Parse Expr}

theorem binaryLevel_moves {op : TokenKind → Option BinaryOp} {operand : Parse Expr}
    (hop : op .eof = none) (hk : k ≤ depth) (h : Descent.Moves k operand) :
    MovesAt P k (binaryLevel depth op operand) := by
  refine h.at.bind fun first =>
    Descent.Moves.repeated hk (fun left => turns_peek fun kind => ?_) first
  split
  · next op' heq =>
    have hkind : kind ≠ .eof := by
      rintro rfl
      rw [hop] at heq
      cases heq
    refine EatsAt.turns (eats_loc fun loc => (advance_eats hkind).andThen fun _ => ?_)
    exact h.bind fun right => .pure _
  · exact .done _

/-- Brackets and selectors: behind the first token there is less left for an expression. -/
theorem selectorTurn_turns (hk : k ≤ depth) (he : Descent.Moves k expression)
    (selectors : List Selector) :
    TurnsAt P k (selectorTurn depth expression selectors) := by
  refine turns_peek fun kind => ?_
  split
  · exact EatsAt.turns ((advance_eats (by nofun)).andThen fun _ =>
      expectIdent_eats.moves.bind fun _ => .pure _)
  · exact EatsAt.turns ((advance_eats (by nofun)).andThen fun _ =>
      (separated_moves (by nofun) hk he).bind fun _ => expect_moves.bind fun _ => .pure _)
  · exact EatsAt.turns ((advance_eats (by nofun)).andThen fun _ => .pure _)
  · exact .done _

theorem parseDesignator_eats (hk : k + 1 ≤ depth) (he : Descent.Moves k expression) :
    EatsAt P (k + 1) (parseDesignator depth expression) := by
  have hk' : k ≤ depth := Nat.le_of_succ_le hk
  refine eats_loc fun loc => expectIdent_eats.bind fun name => ?_
  exact (Descent.Moves.repeated hk' (fun b => selectorTurn_turns hk' he b) []).bind fun _ => .pure _

theorem parseSetElement_moves (he : Descent.Moves k expression) :
    MovesAt P k (parseSetElement expression) :=
  he.at.bind fun _ => (eat_moves (by nofun)).bind fun _ => .ite (he.bind fun _ => .pure _) (.pure _)

theorem parseSetConstructor_eats (hk : k + 1 ≤ depth) (he : Descent.Moves k expression)
    (base : Option QualIdent) : EatsAt P (k + 1) (parseSetConstructor depth expression base) := by
  have hk' : k ≤ depth := Nat.le_of_succ_le hk
  refine eats_loc fun loc => (expect_eats (by nofun)).bind fun _ => ?_
  refine (separatedUntil_moves hk' (parseSetElement_moves he)).bind fun elements => ?_
  exact expect_moves.bind fun _ => .pure _

theorem callDerefs_moves (hk : k ≤ depth) (result : Expr) :
    MovesAt P k (callDerefs depth result) := by
  refine MovesAt.at (Descent.Moves.repeated hk (fun result => turns_peek fun kind => ?_) result)
  split
  · exact EatsAt.turns (eats_loc fun loc => (advance_eats (by nofun)).andThen fun _ => .pure _)
  · exact .done _

theorem literalFactor_eats {kind : TokenKind} (hkind : kind ≠ .eof) (loc : SourceLoc)
    (e : ExprKind) : EatsAt (Here kind) k (literalFactor loc e) :=
  (advance_eats hkind).andThen fun _ => .pure _

theorem parseFactor_eats (hk : k + 1 ≤ depth) (he : Descent.Moves k expression) :
    EatsAt P (k + 1) (parseFactor depth expression) := by
  have hk' : k ≤ depth := Nat.le_of_succ_le hk
  refine eats_loc fun loc => eats_peek fun kind => ?_
  cases kind with
  | intLit | realLit | stringLit | charLit => exact literalFactor_eats (by nofun) loc _
  | lParen =>
    exact (advance_eats (by nofun)).bind fun _ => he.bind fun _ =>
      expect_moves.bind fun _ => .pure _
  | lBrace => exact parseSetConstructor_eats hk he none
  | ident =>
    refine (parseDesignator_eats hk he).bind fun desig => moves_peek fun behind => ?_
    split
    · refine advance_moves.bind fun _ => (separatedUntil_moves hk' he).bind fun args => ?_
      exact expect_moves.bind fun _ => callDerefs_moves hk' _
    · exact ((parseSetConstructor_eats hk he (some desig.ident)).mono (Nat.le_succ k)).moves
    · exact .pure _
  | _ => exact .fail _

theorem prefixed_eats {kind : TokenKind} (hkind : kind ≠ .eof) (hk : k + 1 ≤ depth)
    (he : Descent.Moves k expression) (e : Expr → ExprKind) :
    EatsAt (Here kind) (k + 1) (prefixed depth expression e) :=
  eats_loc fun _ => (advance_eats hkind).andThen fun _ =>
    (parseFactor_eats hk he).moves.bind fun _ => .pure _

theorem parseUnaryExpr_eats (hk : k + 1 ≤ depth) (he : Descent.Moves k expression) :
    EatsAt P (k + 1) (parseUnaryExpr depth expression) := by
  refine eats_peek fun kind => ?_
  split
  · exact prefixed_eats (by nofun) hk he _
  · exact prefixed_eats (by nofun) hk he _
  · exact prefixed_eats (by nofun) hk he _
  · exact prefixed_eats (by nofun) hk he _
  · exact parseFactor_eats hk he

theorem parseAddExpr_moves (hk : k + 1 ≤ depth) (he : Descent.Moves k expression) :
    MovesAt P (k + 1) (parseAddExpr depth expression) :=
  binaryLevel_moves rfl hk (binaryLevel_moves rfl hk (parseUnaryExpr_eats hk he).moves)

theorem parseRelExpr_moves (hk : k + 1 ≤ depth) (he : Descent.Moves k expression) :
    MovesAt P (k + 1) (parseRelExpr depth expression) := by
  refine (parseAddExpr_moves hk he).bind fun left => moves_peek fun kind => ?_
  split
  · exact moves_loc fun _ => advance_moves.bind fun _ =>
      (parseAddExpr_moves hk he).bind fun _ => .pure _
  · exact .pure _

theorem parseOrExpr_moves (hk : k + 1 ≤ depth) (he : Descent.Moves k expression) :
    MovesAt P (k + 1) (parseOrExpr depth expression) :=
  binaryLevel_moves rfl hk (binaryLevel_moves rfl hk (parseRelExpr_moves hk he))

/-- An expression needs no more depth than there are tokens left. -/
theorem parseExpression_moves (hk : k ≤ depth) : MovesAt P k (parseExpression depth) := by
  induction depth generalizing k P with
  | zero => exact MovesAt.zero.mono hk
  | succ depth ih =>
    have hor : MovesAt P (depth + 1) (parseOrExpr (depth + 1) (parseExpression depth)) :=
      parseOrExpr_moves le_rfl (ih le_rfl)
    exact hor.mono hk

end Progress

end Mx.Parser

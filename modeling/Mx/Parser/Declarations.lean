import Mx.Parser.Statements

/-!
# Parsing declarations

Sections of declarations with recovery behind every item, procedures and local modules with blocks
of their own, imports and exports. A pragma that does not export a procedure fails where the
procedure is expected and is skipped by the recovery.
-/

namespace Mx.Parser

open Ast

/-! ## The functions -/

/-- An imported name. -/
def importName (isFrom : Bool) : Parse ImportName := do
  let name ← expectIdent
  if isFrom then
    behind .AS expectIdent >>= fun aliasName => pure ⟨name, aliasName⟩
  else
    pure ⟨name, none⟩

/-- `parse_import`. -/
def parseImport (depth : Nat) : Parse Import := do
  let fromModule ← behind .FROM expectIdent
  let _ ← expect .IMPORT
  let names ← separated depth .comma (importName fromModule.isSome)
  let _ ← expect .semi
  pure ⟨fromModule, names⟩

/-- `parse_imports`. -/
def parseImports (depth : Nat) : Parse (List Import) :=
  Core.Descent.repeated (fun imports => do
    match ← peek with
    | .IMPORT | .FROM => do
      let i ← parseImport depth
      pure (.yield (imports ++ [i]))
    | _ => pure (.done imports)) depth []

/-- `parse_export`. -/
def parseExport (depth : Nat) : Parse Export := do
  let _ ← expect .EXPORT
  let qualified ← eat .QUALIFIED
  let names ← identList depth
  let _ ← expect .semi
  pure ⟨qualified, names⟩

/-- An export, if one follows. -/
def optionalExport (depth : Nat) : Parse (Option Export) := do
  if ← isAt .EXPORT then
    parseExport depth >>= fun e => pure (some e)
  else
    pure none

/-- `parse_const_decl`. -/
def parseConstDecl (depth : Nat) : Parse ConstDecl := do
  let name ← expectIdent
  let _ ← expect .eq
  let expr ← parseExpression depth
  let _ ← expect .semi
  pure ⟨name, expr⟩

/-- `parse_type_decl`. -/
def parseTypeDecl (depth : Nat) : Parse TypeDecl := do
  let name ← expectIdent
  let _ ← expect .eq
  let typ ← parseType depth
  let _ ← expect .semi
  pure ⟨name, some typ⟩

/-- `parse_type_decl_def`. -/
def parseTypeDeclDef (depth : Nat) : Parse TypeDecl := do
  let name ← expectIdent
  let typ ← behind .eq (parseType depth)
  let _ ← expect .semi
  pure ⟨name, typ⟩

/-- `parse_var_decl`. -/
def parseVarDecl (depth : Nat) : Parse VarDecl := do
  let first ← expectIdent
  let names ← whileEaten depth .comma expectIdent [first]
  let _ ← expect .colon
  let typ ← parseType depth
  let _ ← expect .semi
  pure ⟨names, typ⟩

/-- An exception declaration behind its keyword. -/
def exceptionDecl : Parse ExceptionDecl := do
  let _ ← advance
  let name ← expectIdent
  let _ ← expect .semi
  pure ⟨name⟩

/-- `try_consume_exportc_pragma`. -/
def tryConsumeExportcPragma : Parse (Option String) := do
  match ← peek with
  | .pragma dir arg =>
    if dir = "EXPORTC" then advance >>= fun _ => pure arg else pure none
  | _ => pure none

/-- The `RAISES` clause. -/
def raisesClause (depth : Nat) : Parse (Option (List QualIdent)) := do
  match ← peek with
  | .ident s =>
    if s = "RAISES" then
      advance >>= fun _ => expect .lBrace >>= fun _ =>
        separatedUntil depth .rBrace parseQualident >>= fun exceptions =>
          expect .rBrace >>= fun _ => pure (some exceptions)
    else
      pure none
  | _ => pure none

/-- `parse_proc_heading`. -/
def parseProcHeading (depth : Nat) : Parse ProcHeading := do
  let _ ← expect .PROCEDURE
  let name ← expectIdent
  let (params, returnType) ← signature (parseFormalParams depth)
  let raises ← raisesClause depth
  pure ⟨name, params, returnType, raises, none⟩

/-- The name behind the `END` of a declaration must be that of the declaration. -/
def endName (what name : String) : Parse Unit := do
  let found ← expectIdent
  if found = name then
    pure ()
  else
    loc >>= fun loc => Core.Descent.fail
      ⟨loc, what ++ " name mismatch: expected '" ++ name ++ "', found '" ++ found ++ "'"⟩

/-- The priority of a module. -/
def priority (depth : Nat) : Parse (Option Expr) :=
  behind .lBrack (do
    let e ← parseExpression depth
    let _ ← expect .rBrack
    pure e)

section Grammar

variable (depth : Nat) (block : Parse Block)

/-- `parse_proc_decl`. -/
def parseProcDecl : Parse ProcDecl := do
  let heading ← parseProcHeading depth
  let _ ← expect .semi
  let block ← block
  endName "procedure" heading.name
  let _ ← expect .semi
  pure ⟨heading, block⟩

/-- `parse_local_module`. -/
def parseLocalModule : Parse ProgramModule := do
  let _ ← expect .MODULE
  let name ← expectIdent
  let priority ← priority depth
  let _ ← expect .semi
  let imports ← parseImports depth
  let exported ← optionalExport depth
  let block ← block
  endName "module" name
  let _ ← expect .semi
  pure ⟨name, priority, imports, exported, block, false, false⟩

/-- A turn of the loop over the items of a section. -/
def sectionTurn (item : Parse α) (wrap : α → Declaration) (decls : List Declaration) :
    Parse (ForInStep (List Declaration)) := do
  match ← peek with
  | .ident _ => do
    let d ← recover depth item
    pure (.yield (decls ++ (d.map wrap).toList))
  | _ => pure (.done decls)

/-- A section of constants, types or variables. -/
def declSection (item : Parse α) (wrap : α → Declaration) (decls : List Declaration) :
    Parse (ForInStep (List Declaration)) := do
  let _ ← advance
  let decls ← Core.Descent.repeated (sectionTurn depth item wrap) depth decls
  pure (.yield decls)

/-- A procedure behind its pragma. -/
def procSection (decls : List Declaration) : Parse (ForInStep (List Declaration)) := do
  let ecName ← tryConsumeExportcPragma
  let p ← recover depth (parseProcDecl depth block)
  pure (.yield (decls ++ (p.map fun p =>
    .procedure { p with heading := { p.heading with exportCName := ecName } }).toList))

/-- A turn of the loop of `parse_declarations`. -/
def declarationTurn (decls : List Declaration) : Parse (ForInStep (List Declaration)) := do
  match ← peek with
  | .CONST => declSection depth (parseConstDecl depth) .const decls
  | .TYPE => declSection depth (parseTypeDecl depth) .type decls
  | .VAR => declSection depth (parseVarDecl depth) .var decls
  | .pragma _ _ => procSection depth block decls
  | .PROCEDURE => procSection depth block decls
  | .MODULE => do
    let m ← recover depth (parseLocalModule depth block)
    pure (.yield (decls ++ (m.map .module).toList))
  | .EXCEPTION => do
    let e ← exceptionDecl
    pure (.yield (decls ++ [.exception e]))
  | _ => pure (.done decls)

/-- `parse_declarations`. -/
def parseDeclarations : Parse (List Declaration) :=
  Core.Descent.repeated (declarationTurn depth block) depth []

/-- The declarations and the parts of a block up to its `END`. -/
def blockBody : Parse Block := do
  let decls ← parseDeclarations depth block
  let body ← behind .BEGIN (parseStatementSequence depth)
  let exceptBody ← behind .EXCEPT (parseStatementSequence depth)
  let finallyBody ← behind .FINALLY (parseStatementSequence depth)
  let _ ← expect .END
  pure ⟨decls, body, finallyBody, exceptBody⟩

end Grammar

/-- `parse_block`, to a depth of recursion. -/
def parseBlock : Nat → Parse Block
  | 0 => fun _ => .tooDeep
  | depth + 1 => blockBody (depth + 1) (parseBlock depth)

/-! ## Progress -/

open Mx.Core Mx.Core.Descent

section Recovery

variable {α : Type} {k depth : Nat}

variable {arg : Option String}

theorem synchronizeTurn_pragma {dir : String} :
    Meets (fun p => Erring p ∧ Here (.pragma dir arg) p) k synchronizeTurn
      (fun r s t => r = .yield () ∧ Ahead s t ∧ Erring t) fun _ _ => False := by
  intro s hs hP hle
  rw [synchronizeTurn, ends_bind, ends_peek hP.2, ends_bind]
  exact (skip_leaves (by simp) s hs hP hle).mono (fun _ _ ht => ⟨rfl, ht⟩) fun _ h => h

/-- `synchronize` skips a pragma. -/
theorem synchronize_leaves {dir : String} (hk : k ≤ depth) :
    LeavesAt (fun p => Erring p ∧ Here (.pragma dir arg) p) k (synchronize depth) := by
  intro s hs hP hle
  have hpos := Rest.left_pos hs
  obtain ⟨depth, rfl⟩ : ∃ d, depth = d + 1 := Nat.exists_eq_succ_of_ne_zero (by omega)
  have hon : Rest.Onward s { s with panicMode := false } :=
    hs.onward le_rfl hs.pos_lt rfl fun _ => hP.1
  have hturn := synchronizeTurn_pragma (k := k) { s with panicMode := false } hon.1 hP hle
  rw [synchronize, ends_bind, ends_modify, repeated, ends_bind]
  refine hturn.mono (fun r t ht => ?_) fun _ h => h.elim
  obtain ⟨rfl, ht, herring⟩ := ht
  have hahead : Ahead s t := ahead_trans hon ht
  have hlt : Rest.left t < Rest.left s := hahead.2
  have hrest : MovesAt Erring (Rest.left t) (repeated (fun _ => synchronizeTurn) depth ()) :=
    MovesAt.repeated (by omega) (fun _ => synchronizeTurn_meets) ()
  exact (hrest t ht.1.1 herring le_rfl).mono (fun _ _ h => hahead.trans h)
    fun _ h => hahead.trans h

/-- What fails at a pragma has it skipped. -/
theorem recover_pragma {p : Parse α} {dir : String} (hk : k ≤ depth)
    (hp : Meets (Here (.pragma dir arg)) k p (fun _ _ _ => False) fun s t => t = s) :
    LeavesAt (Here (.pragma dir arg)) k (recover depth p) := by
  intro s hs hhere hle
  rw [recover, ends_bind, ends_attempt]
  rcases (hp s hs hhere hle).cases with ⟨a, t, -, ht⟩ | ⟨e, t, hpt, ht⟩
  · exact ht.elim
  · obtain rfl : t = s := ht
    rw [hpt]
    refine ends_bind.2 ?_
    have herring := (ends_recordError (e := e) hs).2
    have hon := (ends_recordError (e := e) hs).1
    have hsync := synchronize_leaves hk _ hon.1 ⟨herring, hhere⟩ hle
    exact ends_bind.2
      (hsync.mono (fun _ v hv => ahead_trans hon hv) fun v hv => ahead_trans hon hv)

end Recovery

section Progress

variable {α : Type} {P : Parser → Prop} {k depth : Nat} {block : Parse Block}

theorem importName_moves (isFrom : Bool) : MovesAt P k (importName isFrom) :=
  expectIdent_eats.moves.bind fun _ =>
    .ite ((behind_moves (by nofun) expectIdent_eats.moves).bind fun _ => .pure _) (.pure _)

theorem parseImport_eats (hk : k ≤ depth) : EatsAt P k (parseImport depth) :=
  (behind_moves (by nofun) expectIdent_eats.moves).bind_eats fun _ =>
    (expect_eats (by nofun)).andThen fun _ =>
    (separated_moves (by nofun) hk (importName_moves _)).bind fun _ =>
    expect_moves.bind fun _ => .pure _

theorem parseImports_moves (hk : k ≤ depth) : MovesAt P k (parseImports depth) := by
  refine MovesAt.at (Descent.Moves.repeated hk (fun imports => turns_peek fun kind => ?_) [])
  have hturns : TurnsAt (Here kind) k (do
      let i ← parseImport depth
      pure (ForInStep.yield (imports ++ [i]))) :=
    ((parseImport_eats hk).andThen fun _ => .pure _).turns
  split
  · exact hturns
  · exact hturns
  · exact .done _

theorem parseExport_moves (hk : k ≤ depth) : MovesAt P k (parseExport depth) :=
  expect_moves.bind fun _ => (eat_moves (by nofun)).bind fun _ =>
    (identList_eats hk).moves.bind fun _ => expect_moves.bind fun _ => .pure _

theorem optionalExport_moves (hk : k ≤ depth) : MovesAt P k (optionalExport depth) :=
  isAt_moves.bind fun _ => .ite ((parseExport_moves hk).bind fun _ => .pure _) (.pure _)

section Items

variable {name : String}

theorem parseConstDecl_leaves (hk : k ≤ depth) :
    LeavesAt (Here (.ident name)) k (parseConstDecl depth) :=
  expectIdent_leaves.andThen fun _ => expect_moves.bind fun _ =>
    (parseExpression_moves hk).bind fun _ => expect_moves.bind fun _ => .pure _

theorem parseTypeDecl_leaves (hk : k ≤ depth) :
    LeavesAt (Here (.ident name)) k (parseTypeDecl depth) :=
  expectIdent_leaves.andThen fun _ => expect_moves.bind fun _ =>
    (parseType_moves hk).bind fun _ => expect_moves.bind fun _ => .pure _

theorem parseTypeDeclDef_leaves (hk : k ≤ depth) :
    LeavesAt (Here (.ident name)) k (parseTypeDeclDef depth) :=
  expectIdent_leaves.andThen fun _ => (behind_moves (by nofun) (parseType_moves hk)).bind fun _ =>
    expect_moves.bind fun _ => .pure _

theorem parseVarDecl_leaves (hk : k ≤ depth) :
    LeavesAt (Here (.ident name)) k (parseVarDecl depth) :=
  expectIdent_leaves.andThen fun first =>
    (whileEaten_moves (by nofun) hk expectIdent_eats.moves [first]).bind fun _ =>
    expect_moves.bind fun _ => (parseType_moves hk).bind fun _ => expect_moves.bind fun _ => .pure _

end Items

theorem exceptionDecl_eats : EatsAt (Here .EXCEPTION) k exceptionDecl :=
  (advance_eats (by nofun)).andThen fun _ => expectIdent_eats.moves.bind fun _ =>
    expect_moves.bind fun _ => .pure _

theorem raisesClause_moves (hk : k ≤ depth) : MovesAt P k (raisesClause depth) := by
  refine moves_peek fun kind => ?_
  split
  · refine .ite ?_ (.pure _)
    exact advance_moves.bind fun _ => expect_moves.bind fun _ =>
      (separatedUntil_moves hk parseQualident_eats.moves).bind fun _ =>
      expect_moves.bind fun _ => .pure _
  · exact .pure _

theorem endName_moves (what name : String) : MovesAt P k (endName what name) :=
  expectIdent_eats.moves.bind fun _ => .ite (.pure _) (moves_loc fun _ => .fail _)

theorem priority_moves (hk : k ≤ depth) : MovesAt P k (priority depth) :=
  behind_moves (by nofun) ((parseExpression_moves hk).bind fun _ => expect_moves.bind fun _ =>
    .pure _)

/-! ### Procedures and local modules -/

/-- What stands behind the keyword of a procedure heading. -/
theorem parseProcHeading_meets {E : Parser → Parser → Prop} (hk : k ≤ depth)
    (h : ∀ f : SourceLoc → Parse ProcHeading, (∀ loc, Descent.Moves k (f loc)) →
      Meets P k (expect .PROCEDURE >>= f) (fun _ => Ahead) E) :
    Meets P k (parseProcHeading depth) (fun _ => Ahead) E :=
  h _ fun _ => expectIdent_eats.moves.bind fun _ =>
    (signature_moves (parseFormalParams_moves hk)).bind fun _ =>
    (raisesClause_moves hk).bind fun _ => .pure _

theorem parseProcHeading_eats (hk : k ≤ depth) : EatsAt P k (parseProcHeading depth) :=
  parseProcHeading_meets hk fun _ hf => (expect_eats (by nofun)).andThen hf

theorem parseProcHeading_leaves (hk : k ≤ depth) :
    LeavesAt (Here .PROCEDURE) k (parseProcHeading depth) :=
  parseProcHeading_meets hk fun _ hf => (expect_leaves (by nofun)).andThen hf

theorem afterHeading_moves (hb : Descent.Moves k block) (heading : ProcHeading) :
    Descent.Moves k (do
      let _ ← expect .semi
      let block ← block
      endName "procedure" heading.name
      let _ ← expect .semi
      pure (⟨heading, block⟩ : ProcDecl)) :=
  expect_moves.bind fun _ => hb.bind fun _ => (endName_moves _ _).bind fun _ =>
    expect_moves.bind fun _ => .pure _

theorem parseProcDecl_eats (hk : k + 1 ≤ depth) (hb : Descent.Moves k block) :
    EatsAt P (k + 1) (parseProcDecl depth block) :=
  (parseProcHeading_eats hk).bind fun heading => afterHeading_moves hb heading

theorem parseProcDecl_leaves (hk : k + 1 ≤ depth) (hb : Descent.Moves k block) :
    LeavesAt (Here .PROCEDURE) (k + 1) (parseProcDecl depth block) :=
  (parseProcHeading_leaves hk).bind fun heading => afterHeading_moves hb heading

theorem parseLocalModule_leaves (hk : k ≤ depth) (hb : Descent.Moves k block) :
    LeavesAt (Here .MODULE) (k + 1) (parseLocalModule depth block) :=
  (expect_leaves (by nofun)).bind fun _ => expectIdent_eats.moves.bind fun _ =>
    (priority_moves hk).bind fun _ => expect_moves.bind fun _ =>
    (parseImports_moves hk).bind fun _ => (optionalExport_moves hk).bind fun _ =>
    hb.bind fun _ => (endName_moves _ _).bind fun _ => expect_moves.bind fun _ => .pure _

/-- A procedure declaration needs its keyword. -/
theorem parseProcDecl_pragma {dir : String} {arg : Option String} :
    Meets (Here (.pragma dir arg)) k (parseProcDecl depth block) (fun _ _ _ => False)
      fun s t => t = s := by
  intro s hs hhere _
  rw [parseProcDecl, ends_bind, parseProcHeading, ends_bind, expect, ends_bind,
    ends_loc hs.pos_lt, ends_bind, ends_peek hhere, if_neg (by nofun)]
  rfl

/-! ### Sections -/

theorem sectionTurn_turns {item : Parse α} (hk : k ≤ depth)
    (h : ∀ name, LeavesAt (Here (.ident name)) k item) (wrap : α → Declaration)
    (decls : List Declaration) : TurnsAt P k (sectionTurn depth item wrap decls) := by
  refine turns_peek fun kind => ?_
  split
  · next name => exact ((recover_leaves hk (h name)).andThen fun _ => .pure _).eats.turns
  · exact .done _

variable {kind : TokenKind}

theorem declSection_eats {item : Parse α} (hkind : kind ≠ .eof) (hk : k ≤ depth)
    (h : ∀ name, LeavesAt (Here (.ident name)) k item) (wrap : α → Declaration)
    (decls : List Declaration) : EatsAt (Here kind) k (declSection depth item wrap decls) :=
  (advance_eats hkind).andThen fun _ =>
    MovesAt.bind (Descent.Moves.repeated hk (fun decls => sectionTurn_turns hk h wrap decls) decls)
      fun _ => .pure _

theorem tryConsumeExportcPragma_eats {arg : Option String} :
    EatsAt (Here (.pragma "EXPORTC" arg)) k tryConsumeExportcPragma :=
  meets_peek_here ((advance_eats (by nofun)).andThen fun _ => .pure _)

/-- Only an `EXPORTC` pragma is consumed. -/
theorem ends_tryConsumeExportcPragma {Q : Option String → Parser → Prop} {E : Parser → Prop}
    {s : Parser} (hkind : ∀ arg, kind ≠ .pragma "EXPORTC" arg)
    (hhere : Here kind s) :
    Ends tryConsumeExportcPragma s Q E ↔ Q none s := by
  rw [tryConsumeExportcPragma, ends_bind, ends_peek hhere]
  split
  · next dir arg =>
    have hdir : dir ≠ "EXPORTC" := by
      rintro rfl
      exact hkind arg rfl
    rw [if_neg hdir, ends_pure]
  · exact ends_pure

/-- A procedure behind a token that is no `EXPORTC` pragma. -/
theorem procSection_of_leaves (hkind : ∀ arg, kind ≠ .pragma "EXPORTC" arg)
    (h : LeavesAt (Here kind) k (recover depth (parseProcDecl depth block)))
    (decls : List Declaration) : EatsAt (Here kind) k (procSection depth block decls) := by
  intro s hs hhere hle
  rw [procSection, ends_bind, ends_tryConsumeExportcPragma hkind hhere]
  exact (h.andThen fun _ => .pure _).eats s hs hhere hle

theorem procSection_pragma_eats {dir : String} {arg : Option String} (hk : k + 1 ≤ depth)
    (hb : Descent.Moves k block) (decls : List Declaration) :
    EatsAt (Here (.pragma dir arg)) (k + 1) (procSection depth block decls) := by
  by_cases hdir : dir = "EXPORTC"
  · subst hdir
    exact tryConsumeExportcPragma_eats.andThen fun _ =>
      (recover_moves hk (parseProcDecl_eats hk hb).moves).bind fun _ => .pure _
  · refine procSection_of_leaves (fun arg' h => hdir ?_) (recover_pragma hk parseProcDecl_pragma)
      decls
    cases h
    rfl

theorem procSection_eats (hk : k + 1 ≤ depth) (hb : Descent.Moves k block)
    (decls : List Declaration) :
    EatsAt (Here .PROCEDURE) (k + 1) (procSection depth block decls) :=
  procSection_of_leaves (by nofun) (recover_leaves hk (parseProcDecl_leaves hk hb)) decls

theorem declarationTurn_turns (hk : k + 1 ≤ depth) (hb : Descent.Moves k block)
    (decls : List Declaration) : TurnsAt P (k + 1) (declarationTurn depth block decls) := by
  refine turns_peek fun kind => ?_
  split
  · exact (declSection_eats (by nofun) hk (fun _ => parseConstDecl_leaves hk) _ _).turns
  · exact (declSection_eats (by nofun) hk (fun _ => parseTypeDecl_leaves hk) _ _).turns
  · exact (declSection_eats (by nofun) hk (fun _ => parseVarDecl_leaves hk) _ _).turns
  · exact (procSection_pragma_eats hk hb decls).turns
  · exact (procSection_eats hk hb decls).turns
  · have hmodule := parseLocalModule_leaves (Nat.le_of_succ_le hk) hb
    exact ((recover_leaves hk hmodule).andThen fun _ => .pure _).eats.turns
  · exact (exceptionDecl_eats.andThen fun _ => .pure _).turns
  · exact .done _

theorem blockBody_moves (hk : k + 1 ≤ depth) (hb : Descent.Moves k block) :
    MovesAt P (k + 1) (blockBody depth block) := by
  have hstmts : Descent.Moves (k + 1) (parseStatementSequence depth) :=
    parseStatementSequence_moves hk
  have hdecls : Descent.Moves (k + 1) (parseDeclarations depth block) :=
    Descent.Moves.repeated hk (fun decls => declarationTurn_turns hk hb decls) []
  exact hdecls.at.bind fun _ => (behind_moves (by nofun) hstmts).bind fun _ =>
    (behind_moves (by nofun) hstmts).bind fun _ => (behind_moves (by nofun) hstmts).bind fun _ =>
    expect_moves.bind fun _ => .pure _

/-- A block needs no more depth than there are tokens left. -/
theorem parseBlock_moves (hk : k ≤ depth) : MovesAt P k (parseBlock depth) := by
  induction depth generalizing k P with
  | zero => exact MovesAt.zero.mono hk
  | succ depth ih =>
    have hbody : MovesAt P (depth + 1) (blockBody (depth + 1) (parseBlock depth)) :=
      blockBody_moves le_rfl (ih le_rfl)
    exact hbody.mono hk

end Progress

end Mx.Parser

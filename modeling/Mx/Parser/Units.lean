import Mx.Parser.Declarations

/-!
# Parsing compilation units

The three kinds of modules. A unit is accepted if its module is and no error was recorded.
-/

namespace Mx.Parser

open Ast List

/-! ## The functions -/

/-- `CompileError::fmt`. -/
def ParseError.display (e : ParseError) : String :=
  e.loc.file ++ ":" ++ toString e.loc.line ++ ":" ++ toString e.loc.col ++ ": error: " ++ e.message

section Grammar

variable (depth : Nat)

/-- A turn of the loop over the items of a section of a definition module. -/
def definitionItem (item : Parse α) (wrap : α → Definition) (defs : List Definition) :
    Parse (ForInStep (List Definition)) := do
  match ← peek with
  | .ident _ => do
    let d ← item
    pure (.yield (defs ++ [wrap d]))
  | _ => pure (.done defs)

/-- A section of a definition module. -/
def definitionSection (item : Parse α) (wrap : α → Definition) (defs : List Definition) :
    Parse (ForInStep (List Definition)) := do
  let _ ← advance
  let defs ← Core.Descent.repeated (definitionItem item wrap) depth defs
  pure (.yield defs)

/-- A procedure heading of a definition module behind its pragma. -/
def definitionHeading (defs : List Definition) : Parse (ForInStep (List Definition)) := do
  let ecName ← tryConsumeExportcPragma
  let heading ← parseProcHeading depth
  let _ ← expect .semi
  pure (.yield (defs ++ [.procedure { heading with exportCName := ecName }]))

/-- A turn of the loop of `parse_definition_module`. -/
def definitionTurn (defs : List Definition) : Parse (ForInStep (List Definition)) := do
  match ← peek with
  | .CONST => definitionSection depth (parseConstDecl depth) .const defs
  | .TYPE => definitionSection depth (parseTypeDeclDef depth) .type defs
  | .VAR => definitionSection depth (parseVarDecl depth) .var defs
  | .pragma _ _ => definitionHeading depth defs
  | .PROCEDURE => definitionHeading depth defs
  | .EXCEPTION => do
    let e ← exceptionDecl
    pure (.yield (defs ++ [.exception e]))
  | _ => pure (.done defs)

/-- The language behind `FOR` in a foreign definition module. -/
def foreignLang : Parse String := do
  match ← peek with
  | .stringLit lang => do
    let _ ← advance
    pure lang
  | _ => do
    let loc ← loc
    Core.Descent.fail ⟨loc, "expected string literal after FOR (e.g., \"C\")"⟩

/-- `parse_program_module`. -/
def parseProgramModule : Parse ProgramModule := do
  let _ ← expect .MODULE
  let name ← expectIdent
  let priority ← priority depth
  let _ ← expect .semi
  let imports ← parseImports depth
  let block ← parseBlock depth
  endName "module" name
  let _ ← expect .dot
  pure ⟨name, priority, imports, none, block, false, false⟩

/-- `parse_definition_module`. -/
def parseDefinitionModule : Parse DefinitionModule := do
  let _ ← expect .DEFINITION
  let _ ← expect .MODULE
  let foreignLang ← behind .FOR foreignLang
  let name ← expectIdent
  let _ ← expect .semi
  let imports ← parseImports depth
  let exported ← optionalExport depth
  let definitions ← Core.Descent.repeated (definitionTurn depth) depth []
  let _ ← expect .END
  endName "module" name
  let _ ← expect .dot
  pure ⟨name, imports, exported, definitions, false, false, foreignLang⟩

/-- `parse_implementation_module`. -/
def parseImplementationModule : Parse ImplementationModule := do
  let _ ← expect .IMPLEMENTATION
  let _ ← expect .MODULE
  let name ← expectIdent
  let priority ← priority depth
  let _ ← expect .semi
  let imports ← parseImports depth
  let block ← parseBlock depth
  endName "module" name
  let _ ← expect .dot
  pure ⟨name, priority, imports, block, false, false⟩

/-- The module behind `SAFE` or `UNSAFE`; its errors are returned at once. -/
def parseMarkedModule (isSafe isUnsafe : Bool) : Parse (Except ParseError CompilationUnit) := do
  match ← peek with
  | .MODULE => do
    let m ← parseProgramModule depth
    pure (.ok (.programModule { m with isSafe := isSafe, isUnsafe := isUnsafe }))
  | .DEFINITION => do
    let m ← parseDefinitionModule depth
    pure (.ok (.definitionModule { m with isSafe := isSafe, isUnsafe := isUnsafe }))
  | .IMPLEMENTATION => do
    let m ← parseImplementationModule depth
    pure (.ok (.implementationModule { m with isSafe := isSafe, isUnsafe := isUnsafe }))
  | _ => do
    let loc ← loc
    pure (.error ⟨loc, "expected MODULE, DEFINITION, or IMPLEMENTATION after SAFE/UNSAFE"⟩)

/-- The module of a compilation unit, or why there is none. -/
def parseUnit : Parse (Except ParseError CompilationUnit) := do
  match ← peek with
  | .DEFINITION =>
    Core.Descent.attempt (parseDefinitionModule depth >>= fun m => pure (.definitionModule m))
  | .IMPLEMENTATION =>
    Core.Descent.attempt
      (parseImplementationModule depth >>= fun m => pure (.implementationModule m))
  | .MODULE => Core.Descent.attempt (parseProgramModule depth >>= fun m => pure (.programModule m))
  | .SAFE => advance >>= fun _ => parseMarkedModule depth true false
  | .UNSAFE => advance >>= fun _ => parseMarkedModule depth false true
  | _ => do
    let loc ← loc
    pure (.error ⟨loc, "expected MODULE, DEFINITION, or IMPLEMENTATION"⟩)

/-- `parse_compilation_unit`. -/
def parseCompilationUnit : Parse CompilationUnit := do
  let result ← parseUnit depth
  let p ← Core.Descent.get
  match p.errors with
  | e :: es => Core.Descent.fail ⟨e.loc, "\n".intercalate ((e :: es).map ParseError.display)⟩
  | [] =>
    match result with
    | .ok unit => pure unit
    | .error e => Core.Descent.fail e

end Grammar

/-! ## Progress -/

open Mx.Core Mx.Core.Descent

/-- The token used up last is the dot that ends a module. -/
def Closed (p : Parser) : Prop :=
  ∃ pos, p.pos = pos + 1 ∧ p.tokens[pos]?.map Token.kind = some .dot

/-- The descent moves, and it succeeds behind the dot that ends a module. -/
def ClosesAt {α : Type} (P : Parser → Prop) (k : Nat) (p : Parse α) : Prop :=
  Meets P k p (fun _ s t => Rest.Onward s t ∧ Closed t) Rest.Onward

section Progress

variable {α β : Type} {P : Parser → Prop} {k depth : Nat}

theorem discriminant_eq_dot {kind : TokenKind} (h : kind.discriminant = .dot) : kind = .dot := by
  cases kind <;> first | rfl | cases h

theorem bind_closes {p : Parse α} {f : α → Parse β} (hp : MovesAt P k p)
    (hf : ∀ a, ClosesAt anywhere k (f a)) : ClosesAt P k (p >>= f) :=
  hp.bind_meets (fun _ _ _ _ hst h => ⟨Rest.trans hst h.1, h.2⟩) hf

/-- What ends with a dot ends behind it. -/
theorem expect_dot_closes (a : α) : ClosesAt P k (expect .dot >>= fun _ => pure a) := by
  intro s hs _ _
  obtain ⟨kind, hhere⟩ := hs.here
  rw [ends_bind, expect, ends_bind, ends_loc hs.pos_lt, ends_bind, ends_peek hhere]
  split
  · next h =>
    obtain rfl : kind = .dot := discriminant_eq_dot h
    rw [ends_bind, ends_advance (hs.succ_lt hhere (by simp))]
    exact ⟨(ahead_advance hs hhere (by simp)).1, s.pos, rfl, hhere⟩
  · exact Rest.refl hs

theorem definitionItem_turns {item : Parse α} (h : ∀ name, LeavesAt (Here (.ident name)) k item)
    (wrap : α → Definition) (defs : List Definition) :
    TurnsAt P k (definitionItem item wrap defs) := by
  refine turns_peek fun kind => ?_
  split
  · next name => exact ((h name).andThen fun _ => .pure _).eats.turns
  · exact .done _

theorem definitionSection_eats {item : Parse α} {kind : TokenKind} (hkind : kind ≠ .eof)
    (hk : k ≤ depth) (h : ∀ name, LeavesAt (Here (.ident name)) k item) (wrap : α → Definition)
    (defs : List Definition) : EatsAt (Here kind) k (definitionSection depth item wrap defs) :=
  (advance_eats hkind).andThen fun _ =>
    MovesAt.bind (Descent.Moves.repeated hk (fun defs => definitionItem_turns h wrap defs) defs)
      fun _ => .pure _

theorem tryConsumeExportcPragma_moves : MovesAt P k tryConsumeExportcPragma := by
  refine moves_peek fun kind => ?_
  split
  · exact .ite (advance_moves.bind fun _ => .pure _) (.pure _)
  · exact .pure _

theorem definitionHeading_eats (hk : k ≤ depth) (defs : List Definition) :
    EatsAt P k (definitionHeading depth defs) :=
  tryConsumeExportcPragma_moves.bind_eats fun _ =>
    (parseProcHeading_eats hk).andThen fun _ => expect_moves.bind fun _ => .pure _

theorem definitionTurn_turns (hk : k ≤ depth) (defs : List Definition) :
    TurnsAt P k (definitionTurn depth defs) := by
  refine turns_peek fun kind => ?_
  split
  · exact (definitionSection_eats (by nofun) hk (fun _ => parseConstDecl_leaves hk) _ _).turns
  · exact (definitionSection_eats (by nofun) hk (fun _ => parseTypeDeclDef_leaves hk) _ _).turns
  · exact (definitionSection_eats (by nofun) hk (fun _ => parseVarDecl_leaves hk) _ _).turns
  · exact (definitionHeading_eats hk defs).turns
  · exact (definitionHeading_eats hk defs).turns
  · exact (exceptionDecl_eats.andThen fun _ => .pure _).turns
  · exact .done _

theorem foreignLang_moves : MovesAt P k foreignLang := by
  refine moves_peek fun kind => ?_
  split
  · exact advance_moves.bind fun _ => .pure _
  · exact moves_loc fun _ => .fail _

theorem parseProgramModule_closes (hk : k ≤ depth) : ClosesAt P k (parseProgramModule depth) :=
  bind_closes expect_moves fun _ => bind_closes expectIdent_eats.moves fun _ =>
    bind_closes (priority_moves hk) fun _ => bind_closes expect_moves fun _ =>
    bind_closes (parseImports_moves hk) fun _ => bind_closes (parseBlock_moves hk) fun _ =>
    bind_closes (endName_moves _ _) fun _ => expect_dot_closes _

theorem parseDefinitionModule_closes (hk : k ≤ depth) :
    ClosesAt P k (parseDefinitionModule depth) := by
  have hdefs : Descent.Moves k (repeated (definitionTurn depth) depth []) :=
    Descent.Moves.repeated hk (fun defs => definitionTurn_turns hk defs) []
  exact bind_closes expect_moves fun _ => bind_closes expect_moves fun _ =>
    bind_closes (behind_moves (by nofun) foreignLang_moves) fun _ =>
    bind_closes expectIdent_eats.moves fun _ => bind_closes expect_moves fun _ =>
    bind_closes (parseImports_moves hk) fun _ => bind_closes (optionalExport_moves hk) fun _ =>
    bind_closes hdefs fun _ => bind_closes expect_moves fun _ =>
    bind_closes (endName_moves _ _) fun _ => expect_dot_closes _

theorem parseImplementationModule_closes (hk : k ≤ depth) :
    ClosesAt P k (parseImplementationModule depth) :=
  bind_closes expect_moves fun _ => bind_closes expect_moves fun _ =>
    bind_closes expectIdent_eats.moves fun _ => bind_closes (priority_moves hk) fun _ =>
    bind_closes expect_moves fun _ => bind_closes (parseImports_moves hk) fun _ =>
    bind_closes (parseBlock_moves hk) fun _ => bind_closes (endName_moves _ _) fun _ =>
    expect_dot_closes _

/-- A unit that was parsed ends with a dot. -/
def Delivers (P : Parser → Prop) (k : Nat) (p : Parse (Except ParseError CompilationUnit)) : Prop :=
  Meets P k p (fun r s t => Rest.Onward s t ∧ ∀ unit, r = .ok unit → Closed t) Rest.Onward

theorem ClosesAt.delivers {p : Parse α} (hp : ClosesAt P k p) (wrap : α → CompilationUnit) :
    Delivers P k (p >>= fun m => pure (.ok (wrap m))) := by
  intro s hs hP hle
  exact ends_bind.2 ((hp s hs hP hle).mono (fun a t ht => ⟨ht.1, fun _ _ => ht.2⟩) fun _ h => h)

theorem ClosesAt.attempt {p : Parse α} (hp : ClosesAt P k p) (wrap : α → CompilationUnit) :
    Delivers P k (Descent.attempt (p >>= fun m => pure (wrap m))) := by
  intro s hs hP hle
  have hwrap : Ends (p >>= fun m => pure (wrap m)) s
      (fun _ t => Rest.Onward s t ∧ Closed t) (Rest.Onward s) :=
    ends_bind.2 ((hp s hs hP hle).mono (fun _ _ ht => ht) fun _ h => h)
  rw [ends_attempt]
  rcases hwrap.cases with ⟨a, t, hpt, ht⟩ | ⟨e, t, hpt, ht⟩
  · rw [hpt]
    exact ⟨ht.1, fun _ _ => ht.2⟩
  · rw [hpt]
    exact ⟨ht, nofun⟩

theorem delivers_error (message : String) :
    Delivers P k (loc >>= fun loc => pure (.error ⟨loc, message⟩)) :=
  meets_loc fun _ _ hs _ _ => ⟨Rest.refl hs, nofun⟩

theorem parseMarkedModule_delivers (hk : k ≤ depth) (isSafe isUnsafe : Bool) :
    Delivers P k (parseMarkedModule depth isSafe isUnsafe) := by
  refine meets_peek fun kind => ?_
  split
  · exact (parseProgramModule_closes hk).delivers _
  · exact (parseDefinitionModule_closes hk).delivers _
  · exact (parseImplementationModule_closes hk).delivers _
  · exact delivers_error _

theorem parseUnit_delivers (hk : k ≤ depth) : Delivers P k (parseUnit depth) := by
  have hmarked : ∀ isSafe isUnsafe {kind : TokenKind}, Delivers (Here kind) k
      (advance >>= fun _ => parseMarkedModule depth isSafe isUnsafe) := fun isSafe isUnsafe _ =>
    advance_moves.bind_meets (fun _ _ _ _ hst h => ⟨Rest.trans hst h.1, h.2⟩)
      fun _ => parseMarkedModule_delivers hk isSafe isUnsafe
  refine meets_peek fun kind => ?_
  split
  · exact (parseDefinitionModule_closes hk).attempt _
  · exact (parseImplementationModule_closes hk).attempt _
  · exact (parseProgramModule_closes hk).attempt _
  · exact hmarked true false
  · exact hmarked false true
  · exact delivers_error _

end Progress

/-! ## Acceptance -/

/-- An accepted unit ends with a dot, and nothing was recorded or skipped on the way to it. -/
structure Accepted (p : Parser) : Prop where
  closed : Closed p
  recorded : p.recorded = 0
  skipped : p.skipped = 0

theorem parseCompilationUnit_ends {k depth : Nat} (hk : k ≤ depth) :
    Meets anywhere k (parseCompilationUnit depth) (fun _ _ t => Accepted t)
      fun _ _ => True := by
  intro s hs hP hle
  refine ends_bind.2 ((parseUnit_delivers hk s hs hP hle).mono (fun r t ht => ?_)
    fun _ _ => trivial)
  rw [ends_bind, ends_get]
  split
  · trivial
  · next hnil =>
    have htold : ¬(t.recorded ≠ 0 ∨ t.skipped ≠ 0 ∨ t.panicMode = true) :=
      fun h => ht.1.1.told h hnil
    cases r with
    | ok unit =>
      exact ⟨ht.2 unit rfl, by_contra fun h => htold (.inl h),
        by_contra fun h => htold (.inr (.inl h))⟩
    | error e => trivial

theorem new_sound {tokens : List Token} (h : tokens.getLast?.map Token.kind = some .eof) :
    (new tokens).Sound := by
  obtain ⟨tok, hlast, hkind⟩ := Option.map_eq_some_iff.1 h
  obtain ⟨init, rfl⟩ := getLast?_eq_some_iff.1 hlast
  have hkept : (new (init ++ [tok])).tokens =
      init.filter (fun tok => tok.kind.discriminant ≠ .docComment "") ++ [tok] := by
    have hdoc : tok.kind.discriminant ≠ .docComment "" := by
      rw [hkind]
      nofun
    have hsingle : [tok].filter (fun tok => tok.kind.discriminant ≠ .docComment "") = [tok] :=
      filter_cons_of_pos (decide_eq_true hdoc)
    rw [new, filter_append, hsingle]
  refine ⟨?_, fun tok' htok' => ?_, fun h => ?_⟩
  · rw [hkept, length_append]
    exact Nat.succ_pos _
  · rw [hkept, getLast?_concat] at htok'
    obtain rfl := Option.some.inj htok'
    exact hkind
  · obtain h | h | h := h
    · exact absurd rfl h
    · exact absurd rfl h
    · exact Bool.noConfusion h

theorem left_new_le (tokens : List Token) : Rest.left (new tokens) ≤ tokens.length :=
  length_filter_le _ _

/-- In a depth of the number of tokens a unit is parsed without looking outside the token list, and
it is accepted behind its dot with nothing recorded or skipped. -/
theorem parseCompilationUnit_total (tokens : List Token)
    (hlast : tokens.getLast?.map Token.kind = some .eof) (depth : Nat)
    (hdepth : tokens.length ≤ depth) :
    (∃ unit p, parseCompilationUnit depth (new tokens) = .ok unit p ∧ Accepted p) ∨
      ∃ e p, parseCompilationUnit depth (new tokens) = .failed e p := by
  have hends := parseCompilationUnit_ends (Nat.le_trans (left_new_le tokens) hdepth) (new tokens)
    (new_sound hlast) trivial le_rfl
  rcases hends.cases with ⟨unit, p, hok, hp⟩ | ⟨e, p, hfailed, -⟩
  · exact .inl ⟨unit, p, hok, hp⟩
  · exact .inr ⟨e, p, hfailed⟩

/-- The tokens of a module with an identifier behind it. -/
def trailingTokens : List Token :=
  [.MODULE, .ident "M", .semi, .END, .ident "M", .dot, .ident "x", .eof].map
    fun kind => ⟨kind, ⟨"", 1, 1⟩⟩

theorem parseCompilationUnit_total_trailing :
    (∃ unit p, parseCompilationUnit 8 (new trailingTokens) = .ok unit p ∧ Accepted p) ∨
      ∃ e p, parseCompilationUnit 8 (new trailingTokens) = .failed e p :=
  parseCompilationUnit_total trailingTokens rfl 8 (Nat.le_refl 8)

/-- A unit is accepted though there are tokens behind it. -/
theorem parseCompilationUnit_trailing :
    ∃ unit p, parseCompilationUnit 8 (new trailingTokens) = .ok unit p ∧
      p.current = some (.ident "x") :=
  ⟨_, _, rfl, rfl⟩

end Mx.Parser

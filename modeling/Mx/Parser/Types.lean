import Mx.Parser.Expressions

/-!
# Parsing types

Types, formal parameters, records and procedure headings. A type calls itself behind the keyword
that it starts with; two lists of fields are separated by a semicolon. The parameters of a procedure
type are read again from a saved position when they turn out to have no name.
-/

namespace Mx.Parser

open Ast

/-! ## The functions -/

/-- The rest of the list of names that is left after the first one. -/
def identList (depth : Nat) : Parse (List String) := separated depth .comma expectIdent

/-- `parse_qualident`. -/
def parseQualident : Parse QualIdent := do
  let first ← expectIdent
  if ← isAt .dot then
    Core.Descent.get >>= fun p =>
      match p.tokens[p.pos + 1]?.map Token.kind with
      | some (.ident _) => do
        let _ ← advance
        let name ← expectIdent
        pure ⟨some first, name⟩
      | _ => pure ⟨none, first⟩
  else
    pure ⟨none, first⟩

/-- `parse_qual_type`. -/
def parseQualType : Parse TypeNode := do
  let q ← parseQualident
  pure (.named q)

/-- `parse_formal_type`, to a depth of recursion. -/
def parseFormalType : Nat → Parse TypeNode
  | 0 => fun _ => .tooDeep
  | depth + 1 => do
    if ← eat .ARRAY then
      (expect .OF >>= fun _ => parseFormalType depth >>= fun elem => pure (.openArray elem))
    else
      (isAt .REFANY >>= fun refany =>
        if refany = true then advance >>= fun _ => pure .refAny else parseQualType)

/-- `parse_formal_param`. -/
def parseFormalParam (depth : Nat) : Parse FormalParam := do
  let isVar ← eat .VAR
  let names ← identList depth
  let _ ← expect .colon
  let typ ← parseFormalType depth
  pure ⟨isVar, names, typ⟩

/-- `parse_formal_params`. -/
def parseFormalParams (depth : Nat) : Parse (List FormalParam) :=
  separated depth .semi (parseFormalParam depth)

/-- The parameters, unless the closing parenthesis follows. -/
def paramsUntilRParen (params : Parse (List FormalParam)) : Parse (List FormalParam) := do
  if ← isAt .rParen then pure [] else params

/-- The parameters and the result type in a heading. -/
def signature (params : Parse (List FormalParam)) :
    Parse (List FormalParam × Option TypeNode) := do
  if ← eat .lParen then
    paramsUntilRParen params >>= fun params => expect .rParen >>= fun _ =>
      behind .colon parseQualType >>= fun returnType => pure (params, returnType)
  else
    pure ([], none)

/-- A parameter of a procedure type without a name. -/
def unnamedParam (depth : Nat) (isVar : Bool) (params : List FormalParam) :
    Parse (List FormalParam) := do
  let typ ← parseFormalType depth
  pure (params ++ [⟨isVar, ["_p" ++ toString params.length], typ⟩])

/-- Whether a colon stands before the end of the parameter. -/
def hasColon : List Token → Bool
  | [] => false
  | tok :: toks =>
    match tok.kind with
    | .colon => true
    | .rParen | .semi | .eof => false
    | _ => hasColon toks

/-- `self.pos = saved`. -/
def rewind (pos : Nat) : Parse Unit := Core.Descent.modify fun p => { p with pos := pos }

/-- A parameter of a procedure type. -/
def procTypeParam (depth : Nat) (params : List FormalParam) : Parse (List FormalParam) := do
  let isVar ← eat .VAR
  let saved ← Core.Descent.get
  match ← peek with
  | .ident _ => do
    let name ← expectIdent
    match ← peek with
    | .colon => do
      let _ ← expect .colon
      let typ ← parseFormalType depth
      pure (params ++ [⟨isVar, [name], typ⟩])
    | .comma => do
      let p ← Core.Descent.get
      rewind saved.pos
      if hasColon (p.tokens.drop p.pos) then
        parseFormalParam depth >>= fun param => pure (params ++ [param])
      else
        unnamedParam depth isVar params
    | _ => do
      rewind saved.pos
      unnamedParam depth isVar params
  | _ => unnamedParam depth isVar params

/-- `parse_proc_type_params`. -/
def parseProcTypeParams (depth : Nat) : Parse (List FormalParam) :=
  Core.Descent.repeated (fun params => do
    let params ← procTypeParam depth params
    if ← eat .semi then
      pure (.yield params)
    else
      (eat .comma >>= fun more => if more = true then pure (.yield params)
        else pure (.done params)))
    depth []

/-- `parse_case_label`. -/
def parseCaseLabel (depth : Nat) : Parse Ast.CaseLabel := do
  let low ← parseExpression depth
  if ← eat .dotDot then
    parseExpression depth >>= fun high => pure (.range low high)
  else
    pure (.single low)

/-- `parse_case_labels`. -/
def parseCaseLabels (depth : Nat) : Parse (List Ast.CaseLabel) :=
  separated depth .comma (parseCaseLabel depth)

/-- `low .. high`. -/
def rangeBounds (depth : Nat) : Parse (Expr × Expr) := do
  let low ← parseExpression depth
  let _ ← expect .dotDot
  let high ← parseExpression depth
  pure (low, high)

/-- `parse_subrange_with_expr`. -/
def parseSubrangeWithExpr (depth : Nat) : Parse TypeNode := do
  let (low, high) ← rangeBounds depth
  pure (.subrange low high)

/-- `parse_subrange_type`. -/
def parseSubrangeType (depth : Nat) : Parse TypeNode := do
  let _ ← expect .lBrack
  let (low, high) ← rangeBounds depth
  let _ ← expect .rBrack
  pure (.subrange low high)

/-- `parse_enumeration_type`. -/
def parseEnumerationType (depth : Nat) : Parse TypeNode := do
  let _ ← expect .lParen
  let variants ← identList depth
  let _ ← expect .rParen
  pure (.enumeration variants)

/-- `parse_procedure_type`. -/
def parseProcedureType (depth : Nat) : Parse TypeNode := do
  let _ ← expect .PROCEDURE
  let (params, returnType) ← signature (parseProcTypeParams depth)
  pure (.procedureType params returnType)

section Grammar

variable (depth : Nat) (type : Parse TypeNode) (fieldLists : Parse (List FieldList))

/-- `parse_array_type`. -/
def parseArrayType : Parse TypeNode := do
  let _ ← expect .ARRAY
  let indexTypes ← separated depth .comma type
  let _ ← expect .OF
  let elemType ← type
  pure (.array indexTypes elemType)

/-- `parse_record_type`. -/
def parseRecordType : Parse TypeNode := do
  let _ ← expect .RECORD
  let fields ← fieldLists
  let _ ← expect .END
  pure (.record fields)

/-- `parse_set_type`. -/
def parseSetType : Parse TypeNode := do
  let _ ← expect .SET
  let _ ← expect .OF
  let base ← type
  pure (.set base)

/-- `parse_pointer_type`. -/
def parsePointerType : Parse TypeNode := do
  let _ ← expect .POINTER
  let _ ← expect .TO
  let base ← type
  pure (.pointer base)

/-- `parse_ref_type`. -/
def parseRefType : Parse TypeNode := do
  let _ ← expect .REF
  let target ← type
  pure (.ref target none)

/-- `parse_branded_ref_type`. -/
def parseBrandedRefType : Parse TypeNode := do
  let _ ← expect .BRANDED
  let brand ← (peek >>= fun kind =>
    match kind with
    | .stringLit s => advance >>= fun _ => pure (some s)
    | _ => pure none)
  let _ ← expect .REF
  let target ← type
  pure (.ref target brand)

/-- Fields of one type: names, a colon and the type. -/
def fieldDecl : Parse Field := do
  let names ← identList depth
  let _ ← expect .colon
  let typ ← type
  pure ⟨names, typ⟩

/-- A turn of the loop over the fields of an object type. -/
def objectField (fields : List Field) : Parse (ForInStep (List Field)) := do
  match ← peek with
  | .ident _ => do
    let field ← fieldDecl depth type
    let _ ← expect .semi
    pure (.yield (fields ++ [field]))
  | _ => pure (.done fields)

/-- A turn of the loop over the methods of an object type. -/
def objectMethod (methods : List MethodDecl) : Parse (ForInStep (List MethodDecl)) := do
  match ← peek with
  | .ident _ => do
    let name ← expectIdent
    let (params, returnType) ← signature (parseFormalParams depth)
    let _ ← expect .semi
    pure (.yield (methods ++ [⟨name, params, returnType⟩]))
  | _ => pure (.done methods)

/-- A turn of the loop over the overrides of an object type. -/
def objectOverride (overrides : List OverrideDecl) : Parse (ForInStep (List OverrideDecl)) := do
  match ← peek with
  | .ident _ => do
    let name ← expectIdent
    let _ ← expect .assign
    let procName ← parseQualident
    let _ ← expect .semi
    pure (.yield (overrides ++ [⟨name, procName⟩]))
  | _ => pure (.done overrides)

/-- `parse_object_type`. -/
def parseObjectType (parent : Option QualIdent) : Parse TypeNode := do
  let _ ← expect .OBJECT
  let fields ← Core.Descent.repeated (objectField depth type) depth []
  let methods ← behind .METHODS (Core.Descent.repeated (objectMethod depth) depth [])
  let overrides ← behind .OVERRIDE (Core.Descent.repeated objectOverride depth [])
  let _ ← expect .END
  pure (.object parent fields (methods.getD []) (overrides.getD []))

/-- `parse_variant`. -/
def parseVariant : Parse Variant := do
  let labels ← parseCaseLabels depth
  let _ ← expect .colon
  let fields ← fieldLists
  pure ⟨labels, fields⟩

/-- A turn of the loop over the variants. -/
def variantTurn (variants : List Variant) : Parse (ForInStep (List Variant)) := do
  match ← peek with
  | .END | .ELSE => pure (.done variants)
  | _ => do
    let variant ← parseVariant depth fieldLists
    if ← eat .pipe then
      pure (.yield (variants ++ [variant]))
    else
      pure (.done (variants ++ [variant]))

/-- `parse_variant_part`. -/
def parseVariantPart : Parse VariantPart := do
  let _ ← expect .CASE
  let firstIdent ← expectIdent
  let tagType ← behind .colon parseQualident
  let _ ← expect .OF
  let _ ← eat .pipe
  let variants ← Core.Descent.repeated (variantTurn depth fieldLists) depth []
  let elseFields ← behind .ELSE fieldLists
  let _ ← expect .END
  match tagType with
  | some q => pure ⟨some firstIdent, q, variants, elseFields⟩
  | none => pure ⟨none, ⟨none, firstIdent⟩, variants, elseFields⟩

/-- `parse_field_list`. -/
def parseFieldList : Parse FieldList := do
  match ← peek with
  | .CASE => do
    let part ← parseVariantPart depth fieldLists
    pure ⟨[], some part⟩
  | .ident _ => do
    let field ← fieldDecl depth type
    pure ⟨[field], none⟩
  | _ => pure ⟨[], none⟩

/-- A turn of the loop of `parse_field_lists`. -/
def fieldListTurn (lists : List FieldList) : Parse (ForInStep (List FieldList)) := do
  if ← eat .semi then
    (isAt .END >>= fun stop =>
      if stop = true then pure (.done lists)
      else parseFieldList depth type fieldLists >>= fun list => pure (.yield (lists ++ [list])))
  else
    pure (.done lists)

/-- A turn of `parse_field_lists`, behind which the record or the variant ends. -/
def fieldListsBody : Parse (List FieldList) := do
  if ← isAt .END then
    pure []
  else
    (parseFieldList depth type fieldLists >>= fun first =>
      Core.Descent.repeated (fieldListTurn depth type fieldLists) depth [first])

/-- The types that start with a name: a subrange, an object type or the named type. -/
def parseNamedType : Parse TypeNode := do
  let loc ← loc
  let q ← parseQualident
  match ← peek with
  | .dotDot => do
    let _ ← expect .dotDot
    let high ← parseExpression depth
    pure (.subrange ⟨.designator ⟨q, [], loc⟩, loc⟩ high)
  | .OBJECT => parseObjectType depth type (some q)
  | .lBrack => parseSubrangeType depth
  | _ => pure (.named q)

/-- The cases of `parse_type`. -/
def typeBody : Parse TypeNode := do
  match ← peek with
  | .ARRAY => parseArrayType depth type
  | .RECORD => parseRecordType fieldLists
  | .SET => parseSetType type
  | .POINTER => parsePointerType type
  | .PROCEDURE => parseProcedureType depth
  | .lParen => parseEnumerationType depth
  | .lBrack => parseSubrangeType depth
  | .REF => parseRefType type
  | .BRANDED => parseBrandedRefType type
  | .REFANY => do
    let _ ← advance
    pure .refAny
  | .OBJECT => parseObjectType depth type none
  | .ident _ => parseNamedType depth type
  | .intLit _ | .charLit _ => parseSubrangeWithExpr depth
  | _ => do
    let loc ← loc
    Core.Descent.fail ⟨loc, "expected type"⟩

end Grammar

mutual

/-- `parse_type`, to a depth of recursion. -/
def parseType : Nat → Parse TypeNode
  | 0 => fun _ => .tooDeep
  | depth + 1 => typeBody (depth + 1) (parseType depth) (parseFieldLists depth)

/-- `parse_field_lists`, to a depth of recursion. -/
def parseFieldLists : Nat → Parse (List FieldList)
  | 0 => fun _ => .tooDeep
  | depth + 1 => fieldListsBody (depth + 1) (parseType depth) (parseFieldLists depth)

end

/-! ## Progress -/

open Mx.Core Mx.Core.Descent

section Names

variable {P : Parser → Prop} {k depth : Nat}

theorem identList_eats (hk : k ≤ depth) : EatsAt P k (identList depth) :=
  separated_eats (by nofun) hk expectIdent_eats

theorem parseQualident_eats : EatsAt P k parseQualident := by
  refine expectIdent_eats.andThen fun first => isAt_moves.bind fun dot => .ite ?_ (.pure _)
  refine moves_get fun s hs => ?_
  split
  · have hadvance : Descent.Moves k advance := advance_moves
    have hident : Descent.Moves k expectIdent := expectIdent_eats.moves
    exact (hadvance.from hs).bind fun _ => (hident.from hs).bind fun _ => .pure _
  · exact .pure _

theorem parseQualType_moves : MovesAt P k parseQualType :=
  parseQualident_eats.moves.bind fun _ => .pure _

/-- An element type is behind `ARRAY`. -/
theorem parseFormalType_moves (hk : k ≤ depth) : MovesAt P k (parseFormalType depth) := by
  induction depth generalizing k P with
  | zero => exact MovesAt.zero.mono hk
  | succ depth ih =>
    refine MovesAt.mono (k := depth + 1) (moves_eat (by nofun) ?_ ?_) hk
    · exact expect_moves.bind fun _ => (ih le_rfl).bind fun _ => .pure _
    · exact isAt_moves.bind fun _ => .ite (advance_moves.bind fun _ => .pure _) parseQualType_moves

theorem parseFormalParam_moves (hk : k ≤ depth) : MovesAt P k (parseFormalParam depth) :=
  (eat_moves (by nofun)).bind fun _ => (identList_eats hk).moves.bind fun _ =>
    expect_moves.bind fun _ => (parseFormalType_moves hk).bind fun _ => .pure _

theorem parseFormalParams_moves (hk : k ≤ depth) : MovesAt P k (parseFormalParams depth) :=
  separated_moves (by nofun) hk (parseFormalParam_moves hk)

theorem signature_moves {params : Parse (List FormalParam)} (h : Descent.Moves k params) :
    MovesAt P k (signature params) := by
  refine (eat_moves (by nofun)).bind fun _ => .ite ?_ (.pure _)
  refine MovesAt.bind (isAt_moves.bind fun _ => .ite (.pure _) h) fun _ => ?_
  exact expect_moves.bind fun _ =>
    (behind_moves (by nofun) parseQualType_moves).bind fun _ => .pure _

theorem unnamedParam_moves (hk : k ≤ depth) (isVar : Bool) (params : List FormalParam) :
    MovesAt P k (unnamedParam depth isVar params) :=
  (parseFormalType_moves hk).bind fun _ => .pure _

theorem rewind_from (s : Parser) : MovesFrom s (rewind s.pos) := by
  intro t ht
  obtain ⟨htsound, htokens, hle⟩ := ht
  have hlt : s.pos < t.tokens.length := Nat.lt_of_le_of_lt hle htsound.pos_lt
  exact ⟨⟨hlt, htsound.last, htsound.told⟩, htokens, le_rfl⟩

/-- The parameter is read again from the name that turns out to be a type. -/
theorem procTypeParam_moves (hk : k ≤ depth) (params : List FormalParam) :
    MovesAt P k (procTypeParam depth params) := by
  refine (eat_moves (by nofun)).bind fun isVar => moves_get fun s hs => ?_
  have hpeek : Descent.Moves k peek := peek_moves
  have hident : Descent.Moves k expectIdent := expectIdent_eats.moves
  have hunnamed : MovesFrom s (unnamedParam depth isVar params) :=
    MovesAt.from (unnamedParam_moves hk isVar params) hs
  refine (hpeek.from hs).bind fun kind => ?_
  split
  · refine (hident.from hs).bind fun name => (hpeek.from hs).bind fun behind => ?_
    split
    · refine MovesAt.from (k := k) ?_ hs
      exact expect_moves.bind fun _ => (parseFormalType_moves hk).bind fun _ => .pure _
    · refine MovesFrom.bind (fun t ht => ht) fun p => (rewind_from s).bind fun _ => .ite ?_ hunnamed
      exact MovesAt.from ((parseFormalParam_moves hk).bind fun _ => .pure _) hs
    · exact (rewind_from s).bind fun _ => hunnamed
  · exact hunnamed

theorem parseProcTypeParams_moves (hk : k ≤ depth) : MovesAt P k (parseProcTypeParams depth) := by
  refine MovesAt.at (Descent.Moves.repeated hk (fun params => ?_) [])
  refine (procTypeParam_moves hk params).bind_turns fun params => ?_
  exact turns_eat (by nofun) (.pure _) (turns_eat (by nofun) (.pure _) (.done _))

theorem parseCaseLabels_moves (hk : k ≤ depth) : MovesAt P k (parseCaseLabels depth) := by
  have hexpr : Descent.Moves k (parseExpression depth) := parseExpression_moves hk
  refine separated_moves (by nofun) hk ?_
  exact hexpr.bind fun _ => (eat_moves (by nofun)).bind fun _ =>
    .ite (hexpr.bind fun _ => .pure _) (.pure _)

theorem rangeBounds_moves (hk : k ≤ depth) : MovesAt P k (rangeBounds depth) :=
  (parseExpression_moves hk).bind fun _ => expect_moves.bind fun _ =>
    (parseExpression_moves hk).bind fun _ => .pure _

theorem parseSubrangeWithExpr_moves (hk : k ≤ depth) :
    MovesAt P k (parseSubrangeWithExpr depth) :=
  (rangeBounds_moves hk).bind fun _ => .pure _

theorem parseSubrangeType_moves (hk : k ≤ depth) : MovesAt P k (parseSubrangeType depth) :=
  expect_moves.bind fun _ => (rangeBounds_moves hk).bind fun _ => expect_moves.bind fun _ => .pure _

theorem parseEnumerationType_moves (hk : k ≤ depth) : MovesAt P k (parseEnumerationType depth) :=
  expect_moves.bind fun _ => (identList_eats hk).moves.bind fun _ =>
    expect_moves.bind fun _ => .pure _

theorem parseProcedureType_moves (hk : k ≤ depth) : MovesAt P k (parseProcedureType depth) :=
  expect_moves.bind fun _ => (signature_moves (parseProcTypeParams_moves hk)).bind fun _ => .pure _

end Names

section Progress

variable {P : Parser → Prop} {k depth : Nat} {type : Parse TypeNode}
  {fieldLists : Parse (List FieldList)}

theorem parseArrayType_moves (hk : k + 1 ≤ depth) (ht : Descent.Moves k type) :
    MovesAt P (k + 1) (parseArrayType depth type) := by
  have hindex : Descent.Moves k (separated depth .comma type) :=
    separated_moves (by nofun) (Nat.le_of_succ_le hk) ht
  exact EatsAt.moves ((expect_eats (by nofun)).bind fun _ => hindex.bind fun _ =>
    expect_moves.bind fun _ => ht.bind fun _ => .pure _)

theorem parseRecordType_moves (hf : Descent.Moves k fieldLists) :
    MovesAt P (k + 1) (parseRecordType fieldLists) :=
  EatsAt.moves ((expect_eats (by nofun)).bind fun _ => hf.bind fun _ =>
    expect_moves.bind fun _ => .pure _)

theorem parseSetType_moves (ht : Descent.Moves k type) : MovesAt P (k + 1) (parseSetType type) :=
  EatsAt.moves ((expect_eats (by nofun)).bind fun _ => expect_moves.bind fun _ =>
    ht.bind fun _ => .pure _)

theorem parsePointerType_moves (ht : Descent.Moves k type) :
    MovesAt P (k + 1) (parsePointerType type) :=
  EatsAt.moves ((expect_eats (by nofun)).bind fun _ => expect_moves.bind fun _ =>
    ht.bind fun _ => .pure _)

theorem parseRefType_moves (ht : Descent.Moves k type) : MovesAt P (k + 1) (parseRefType type) :=
  EatsAt.moves ((expect_eats (by nofun)).bind fun _ => ht.bind fun _ => .pure _)

theorem parseBrandedRefType_moves (ht : Descent.Moves k type) :
    MovesAt P (k + 1) (parseBrandedRefType type) := by
  refine EatsAt.moves ((expect_eats (by nofun)).bind fun _ => MovesAt.bind ?_ fun brand => ?_)
  · refine moves_peek fun kind => ?_
    split
    · exact advance_moves.bind fun _ => .pure _
    · exact .pure _
  · exact expect_moves.bind fun _ => ht.bind fun _ => .pure _

theorem fieldDecl_eats (hk : k + 1 ≤ depth) (ht : Descent.Moves k type) :
    EatsAt P (k + 1) (fieldDecl depth type) :=
  (identList_eats hk).bind fun _ => expect_moves.bind fun _ => ht.bind fun _ => .pure _

theorem objectField_turns (hk : k + 1 ≤ depth) (ht : Descent.Moves k type) (fields : List Field) :
    TurnsAt P k (objectField depth type fields) := by
  refine turns_peek fun kind => ?_
  split
  · exact EatsAt.turns (((fieldDecl_eats hk ht).mono (Nat.le_succ k)).andThen fun _ =>
      expect_moves.bind fun _ => .pure _)
  · exact .done _

theorem objectMethod_turns (hk : k ≤ depth) (methods : List MethodDecl) :
    TurnsAt P k (objectMethod depth methods) := by
  refine turns_peek fun kind => ?_
  split
  · exact EatsAt.turns (expectIdent_eats.andThen fun _ =>
      (signature_moves (parseFormalParams_moves hk)).bind fun _ =>
        expect_moves.bind fun _ => .pure _)
  · exact .done _

theorem objectOverride_turns (overrides : List OverrideDecl) :
    TurnsAt P k (objectOverride overrides) := by
  refine turns_peek fun kind => ?_
  split
  · exact EatsAt.turns (expectIdent_eats.andThen fun _ => expect_moves.bind fun _ =>
      parseQualident_eats.moves.bind fun _ => expect_moves.bind fun _ => .pure _)
  · exact .done _

theorem parseObjectType_moves (hk : k + 1 ≤ depth) (ht : Descent.Moves k type)
    (parent : Option QualIdent) : MovesAt P (k + 1) (parseObjectType depth type parent) := by
  have hk' : k ≤ depth := Nat.le_of_succ_le hk
  have hfields : ∀ fields, Descent.Moves k (repeated (objectField depth type) depth fields) :=
    Descent.Moves.repeated hk' (objectField_turns hk ht)
  have hmethods : ∀ methods, Descent.Moves k (repeated (objectMethod depth) depth methods) :=
    Descent.Moves.repeated hk' (objectMethod_turns hk')
  have hoverrides : ∀ overrides, Descent.Moves k (repeated objectOverride depth overrides) :=
    Descent.Moves.repeated hk' objectOverride_turns
  exact EatsAt.moves ((expect_eats (by nofun)).bind fun _ => (hfields []).bind fun _ =>
    (behind_moves (by nofun) (hmethods [])).bind fun _ =>
      (behind_moves (by nofun) (hoverrides [])).bind fun _ => expect_moves.bind fun _ => .pure _)

theorem variantTurn_turns (hk : k ≤ depth) (hf : Descent.Moves k fieldLists)
    (variants : List Variant) :
    TurnsAt P k (variantTurn depth fieldLists variants) := by
  have hvariant : Descent.Moves k (parseVariant depth fieldLists) :=
    (parseCaseLabels_moves hk).bind fun _ => expect_moves.bind fun _ => hf.bind fun _ => .pure _
  refine turns_peek fun kind => ?_
  split
  · exact .done _
  · exact .done _
  · exact hvariant.at.bind_turns fun _ => turns_eat (by nofun) (.pure _) (.done _)

theorem parseVariantPart_moves (hk : k + 1 ≤ depth) (hf : Descent.Moves k fieldLists) :
    MovesAt P (k + 1) (parseVariantPart depth fieldLists) := by
  have hk' : k ≤ depth := Nat.le_of_succ_le hk
  have hvariants : ∀ variants,
      Descent.Moves k (repeated (variantTurn depth fieldLists) depth variants) :=
    Descent.Moves.repeated hk' (variantTurn_turns hk' hf)
  refine EatsAt.moves ((expect_eats (by nofun)).bind fun _ =>
    expectIdent_eats.moves.bind fun firstIdent =>
    (behind_moves (by nofun) parseQualident_eats.moves).bind fun tagType =>
    expect_moves.bind fun _ => (eat_moves (by nofun)).bind fun _ => (hvariants []).bind fun _ =>
    (behind_moves (by nofun) hf).bind fun _ => expect_moves.bind fun _ => ?_)
  cases tagType with
  | some q => exact .pure _
  | none => exact .pure _

theorem parseFieldList_moves (hk : k + 1 ≤ depth) (ht : Descent.Moves k type)
    (hf : Descent.Moves k fieldLists) :
    MovesAt P (k + 1) (parseFieldList depth type fieldLists) := by
  refine moves_peek fun kind => ?_
  split
  · exact (parseVariantPart_moves hk hf).bind fun _ => .pure _
  · exact (fieldDecl_eats hk ht).moves.bind fun _ => .pure _
  · exact .pure _

theorem fieldListsBody_moves (hk : k + 1 ≤ depth) (ht : Descent.Moves k type)
    (hf : Descent.Moves k fieldLists) :
    MovesAt P (k + 1) (fieldListsBody depth type fieldLists) := by
  have hlist : Descent.Moves (k + 1) (parseFieldList depth type fieldLists) :=
    parseFieldList_moves hk ht hf
  have hturn : ∀ lists, Turns (k + 1) (fieldListTurn depth type fieldLists lists) := fun lists =>
    turns_eat (by nofun)
      (isAt_moves.bind fun _ => .ite (.pure _) (hlist.bind fun _ => .pure _)) (.done _)
  refine isAt_moves.bind fun _ => .ite (.pure _) (hlist.bind fun first => ?_)
  exact Descent.Moves.repeated hk hturn [first]

theorem parseNamedType_moves (hk : k + 1 ≤ depth) (ht : Descent.Moves k type) :
    MovesAt P (k + 1) (parseNamedType depth type) := by
  have hk' : k ≤ depth := Nat.le_of_succ_le hk
  refine EatsAt.moves (eats_loc fun loc => parseQualident_eats.bind fun q =>
    moves_peek fun kind => ?_)
  split
  · exact expect_moves.bind fun _ => (parseExpression_moves hk').bind fun _ => .pure _
  · exact (parseObjectType_moves hk ht (some q)).mono (Nat.le_succ k)
  · exact parseSubrangeType_moves hk'
  · exact .pure _

theorem typeBody_moves (hk : k + 1 ≤ depth) (ht : Descent.Moves k type)
    (hf : Descent.Moves k fieldLists) :
    MovesAt P (k + 1) (typeBody depth type fieldLists) := by
  refine moves_peek fun kind => ?_
  split
  · exact parseArrayType_moves hk ht
  · exact parseRecordType_moves hf
  · exact parseSetType_moves ht
  · exact parsePointerType_moves ht
  · exact parseProcedureType_moves hk
  · exact parseEnumerationType_moves hk
  · exact parseSubrangeType_moves hk
  · exact parseRefType_moves ht
  · exact parseBrandedRefType_moves ht
  · exact advance_moves.bind fun _ => .pure _
  · exact parseObjectType_moves hk ht none
  · exact parseNamedType_moves hk ht
  · exact parseSubrangeWithExpr_moves hk
  · exact parseSubrangeWithExpr_moves hk
  · exact moves_loc fun _ => .fail _

/-- A type and the fields of a record need no more depth than there are tokens left. -/
theorem parseType_parseFieldLists_moves (depth : Nat) :
    Descent.Moves depth (parseType depth) ∧ Descent.Moves depth (parseFieldLists depth) := by
  induction depth with
  | zero => exact ⟨.zero, .zero⟩
  | succ depth ih =>
    rw [parseType, parseFieldLists]
    exact ⟨typeBody_moves le_rfl ih.1 ih.2,
      fieldListsBody_moves le_rfl ih.1 ih.2⟩

theorem parseType_moves (hk : k ≤ depth) : MovesAt P k (parseType depth) :=
  MovesAt.at ((parseType_parseFieldLists_moves depth).1.mono hk)

end Progress

end Mx.Parser

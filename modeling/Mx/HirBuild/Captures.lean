import Mx.HirBuild.OwnProcs

/-!
# What nested procedures mention and capture

The mentions of variables in a body, whatever a collector makes of them; the scopes that a name is
looked up in; and the captures that `build_nested_recursive` gives a nested procedure.
-/

namespace Mx.HirBuild

open List

/-! ## Mentions -/

mutual

/-- The variables that an expression mentions. -/
def exprMentions : HirExpr → List String
  | ⟨.place p, _, _⟩ => placeMentions p
  | ⟨.addrOf p, _, _⟩ => placeMentions p
  | ⟨.directCall _ args, _, _⟩ => argMentions args
  | ⟨.indirectCall callee args, _, _⟩ => exprMentions callee ++ argMentions args
  | ⟨.unaryOp _ operand, _, _⟩ => exprMentions operand
  | ⟨.binaryOp _ left right, _, _⟩ => exprMentions left ++ exprMentions right
  | ⟨.setConstructor elements, _, _⟩ => elementMentions elements
  | ⟨.not operand, _, _⟩ => exprMentions operand
  | ⟨.deref operand, _, _⟩ => exprMentions operand
  | ⟨.typeTransfer operand, _, _⟩ => exprMentions operand
  | _ => []

/-- The variables that a designator mentions. -/
def placeMentions : Place → List String
  | ⟨base, projections, _, _⟩ => baseVar base ++ projectionMentions projections

/-- The subscripts and type transfers of a designator. -/
def projectionMentions : List Projection → List String
  | [] => []
  | ⟨.index e, _⟩ :: projections => exprMentions e ++ projectionMentions projections
  | ⟨.typeTransfer e, _⟩ :: projections => exprMentions e ++ projectionMentions projections
  | _ :: projections => projectionMentions projections

/-- The arguments of a call. -/
def argMentions : List HirExpr → List String
  | [] => []
  | e :: es => exprMentions e ++ argMentions es

/-- The elements of a set. -/
def elementMentions : List HirSetElement → List String
  | [] => []
  | .single e :: es => exprMentions e ++ elementMentions es
  | .range lo hi :: es => exprMentions lo ++ exprMentions hi ++ elementMentions es

end

/-- The callee of a procedure call. -/
def targetMentions : HirCallTarget → List String
  | .direct _ => []
  | .indirect e => exprMentions e

/-- An optional expression. -/
def optionalExprMentions : Option HirExpr → List String
  | none => []
  | some e => exprMentions e

/-- The labels of a `CASE` branch. -/
def labelMentions : List HirCaseLabel → List String
  | [] => []
  | .single e :: labels => exprMentions e ++ labelMentions labels
  | .range lo hi :: labels => exprMentions lo ++ exprMentions hi ++ labelMentions labels

/-- The mentions that are not of a variable bound here. -/
def unbound (var : Option String) (names : List String) : List String :=
  names.filter fun name => some name ≠ var

mutual

/-- The variables that a body mentions. -/
def bodyMentions : List HirStmt → List String
  | [] => []
  | s :: ss => stmtMentions s ++ bodyMentions ss

/-- The variables that a statement mentions. -/
def stmtMentions : HirStmt → List String
  | ⟨.assign target value, _⟩ => placeMentions target ++ exprMentions value
  | ⟨.procCall target args, _⟩ => targetMentions target ++ argMentions args
  | ⟨.ifStmt cond thenBody elsifs elseBody, _⟩ =>
    exprMentions cond ++ bodyMentions thenBody ++ elsifMentions elsifs ++ optionalMentions elseBody
  | ⟨.caseStmt expr branches elseBody, _⟩ =>
    exprMentions expr ++ branchMentions branches ++ optionalMentions elseBody
  | ⟨.whileStmt cond body, _⟩ => exprMentions cond ++ bodyMentions body
  | ⟨.repeatStmt body cond, _⟩ => bodyMentions body ++ exprMentions cond
  | ⟨.forStmt var _ start stop step _ body, _⟩ =>
    var :: (exprMentions start ++ exprMentions stop ++ optionalExprMentions step ++
      bodyMentions body)
  | ⟨.loop body, _⟩ => bodyMentions body
  | ⟨.ret expr, _⟩ => optionalExprMentions expr
  | ⟨.tryStmt body excepts finallyBody, _⟩ =>
    bodyMentions body ++ clauseMentions excepts ++ optionalMentions finallyBody
  | ⟨.lock mutex body, _⟩ => exprMentions mutex ++ bodyMentions body
  | ⟨.typeCase expr branches elseBody, _⟩ =>
    exprMentions expr ++ typeBranchMentions branches ++ optionalMentions elseBody
  | ⟨.raise expr, _⟩ => optionalExprMentions expr
  | ⟨.empty, _⟩ | ⟨.exit, _⟩ | ⟨.retry, _⟩ => []

/-- The `ELSIF` branches. -/
def elsifMentions : List (HirExpr × List HirStmt) → List String
  | [] => []
  | (cond, body) :: elsifs => exprMentions cond ++ bodyMentions body ++ elsifMentions elsifs

/-- The `CASE` branches. -/
def branchMentions : List HirCaseBranch → List String
  | [] => []
  | ⟨labels, body⟩ :: branches =>
    labelMentions labels ++ bodyMentions body ++ branchMentions branches

/-- The `EXCEPT` clauses. -/
def clauseMentions : List HirExceptClause → List String
  | [] => []
  | ⟨_, var, body⟩ :: clauses => unbound var (bodyMentions body) ++ clauseMentions clauses

/-- The `TYPECASE` branches. -/
def typeBranchMentions : List HirTypeCaseBranch → List String
  | [] => []
  | ⟨_, var, body⟩ :: branches => unbound var (bodyMentions body) ++ typeBranchMentions branches

/-- An optional body. -/
def optionalMentions : Option (List HirStmt) → List String
  | none => []
  | some body => bodyMentions body

end

/-! ## Scopes -/

/-- The name that a local declaration declares. -/
def HirLocalDecl.name : HirLocalDecl → String
  | .var name _ => name
  | .type name _ => name
  | .const decl => decl.name
  | .exception name _ _ => name

namespace HirProcDecl

/-- The parameters and variables of a procedure. -/
def vars (pd : HirProcDecl) : List (String × TypeId) :=
  pd.sig.params.map (fun p => (p.name, p.typeId)) ++ localVars pd.locals

/-- The names of the parameters and variables, as the two analyses keep them. -/
def ownNames (pd : HirProcDecl) : List String :=
  pd.sig.params.map HirParamDecl.name ++ (localVars pd.locals).map Prod.fst

/-- The names that a procedure declares. -/
def declared (pd : HirProcDecl) : List String :=
  pd.sig.params.map HirParamDecl.name ++ pd.locals.map HirLocalDecl.name ++ pd.childNames

/-- The bounds that come with the open array parameters. -/
def highNames (pd : HirProcDecl) : List String :=
  (pd.sig.params.filter HirParamDecl.isOpenArray).map fun p => p.name ++ "_high"

end HirProcDecl

/-- The variable that a name means in a procedure nested in the given ones, the innermost first. -/
def enclosingVar : List HirProcDecl → String → Option TypeId
  | [], _ => none
  | q :: chain, name =>
    if name ∈ q.declared then q.vars.lookup name else enclosingVar chain name

/-- A procedure or one nested in it uses a name, with no declaration of the name in between. What
counts as a use and as a declaration is a parameter. -/
inductive UsesFree (uses declares : HirProcDecl → List String) (name : String) : HirProcDecl → Prop
  | own {pd : HirProcDecl} : name ∉ declares pd → name ∈ uses pd → UsesFree uses declares name pd
  | nested {pd np : HirProcDecl} : name ∉ declares pd → np ∈ pd.nestedProcs →
    UsesFree uses declares name np → UsesFree uses declares name pd

/-- A procedure mentions a variable from outside, itself or in the ones nested in it. -/
def HirProcDecl.MentionsFree (pd : HirProcDecl) (name : String) : Prop :=
  UsesFree (fun pd => (pd.body.map bodyMentions).getD []) HirProcDecl.declared name pd

/-- A procedure reads a variable from outside where `collect_hir_var_refs` looks for it. -/
def HirProcDecl.ReadsFree (pd : HirProcDecl) (name : String) : Prop :=
  UsesFree (fun pd => (pd.body.map collectHirVarRefs).getD []) HirProcDecl.ownNames name pd

/-- A procedure of the module with the ones around it, the innermost first. -/
inductive PathTo (m : HirModule) : List HirProcDecl → HirProcDecl → Prop
  | top {pd : HirProcDecl} : pd ∈ m.procDecls → PathTo m [] pd
  | nested {chain : List HirProcDecl} {p np : HirProcDecl} : PathTo m chain p →
    np ∈ p.nestedProcs → PathTo m (p :: chain) np

/-! ## `build_nested_recursive` -/

/-- The captures of a list that are new and not hidden are added. -/
def pushCaptures (hidden : List String) (captures new : List CapturedVar) : List CapturedVar :=
  new.foldl (fun captures cap =>
    if cap.name ∈ hidden ∨ cap.name ∈ captures.map CapturedVar.name then captures
    else captures ++ [cap]) captures

/-- A captured variable with the type that `lookup_any` finds for its name. -/
def foundVar (lookupAny : String → Option TypeId) (name : String) : CapturedVar where
  name := name
  ty := (lookupAny name).getD tyInteger
  isHighCompanion := false

mutual

/-- The `closure_captures` of a nested procedure: what it reads itself, then what the procedures
nested in it capture. -/
def nestedCaptures (lookupAny : String → Option TypeId) : HirProcDecl → List CapturedVar
  | ⟨sig, body, locals, nested, _, _⟩ =>
    let hidden := sig.params.map HirParamDecl.name ++ (localVars locals).map Prod.fst
    let own := pushCaptures hidden []
      (((body.map collectHirVarRefs).getD []).map (foundVar lookupAny))
    childCaptures lookupAny hidden own nested

/-- The captures of the nested procedures are added in order. -/
def childCaptures (lookupAny : String → Option TypeId) (hidden : List String)
    (captures : List CapturedVar) : List HirProcDecl → List CapturedVar
  | [] => captures
  | np :: nps =>
    childCaptures lookupAny hidden (pushCaptures hidden captures (nestedCaptures lookupAny np)) nps

end

/-! ## What the closure captures are -/

theorem mem_pushCaptures (hidden : List String) {g : String → CapturedVar}
    {new : List CapturedVar} (hnew : ∀ cap ∈ new, cap = g cap.name) {captures : List CapturedVar}
    (hcaptures : ∀ cap ∈ captures, cap = g cap.name) (cap : CapturedVar) :
    cap ∈ pushCaptures hidden captures new ↔
      cap ∈ captures ∨ cap ∈ new ∧ cap.name ∉ hidden := by
  induction new generalizing captures with
  | nil => simp [pushCaptures]
  | cons first new ih =>
    have hfirst := hnew first mem_cons_self
    have hrest := fun c hc => hnew c (mem_cons_of_mem _ hc)
    rw [pushCaptures, foldl_cons, ← pushCaptures]
    split_ifs with hskip
    · rw [ih hrest hcaptures, mem_cons]
      constructor
      · rintro (h | ⟨h, hname⟩)
        · exact .inl h
        · exact .inr ⟨.inr h, hname⟩
      · rintro (h | ⟨rfl | h, hname⟩)
        · exact .inl h
        · obtain ⟨other, hother, heq⟩ := mem_map.mp (hskip.resolve_left hname)
          rw [hfirst, ← heq, ← hcaptures other hother]
          exact .inl hother
        · exact .inr ⟨h, hname⟩
    · rw [not_or] at hskip
      have hadded : ∀ c ∈ captures ++ [first], c = g c.name := by
        intro c hc
        obtain hc | hc := mem_append.mp hc
        · exact hcaptures c hc
        · rw [mem_singleton.mp hc]
          exact hfirst
      rw [ih hrest hadded, mem_append, mem_singleton, mem_cons]
      constructor
      · rintro ((h | rfl) | ⟨h, hname⟩)
        · exact .inl h
        · exact .inr ⟨.inl rfl, hskip.1⟩
        · exact .inr ⟨.inr h, hname⟩
      · rintro (h | ⟨rfl | h, hname⟩)
        · exact .inl (.inl h)
        · exact .inl (.inr rfl)
        · exact .inr ⟨h, hname⟩

theorem usesFree_iff {uses declares : HirProcDecl → List String} {name : String}
    {pd : HirProcDecl} :
    UsesFree uses declares name pd ↔ name ∉ declares pd ∧
      (name ∈ uses pd ∨ ∃ np ∈ pd.nestedProcs, UsesFree uses declares name np) := by
  constructor
  · rintro (⟨hdecl, huse⟩ | ⟨hdecl, hnp, huse⟩)
    · exact ⟨hdecl, .inl huse⟩
    · exact ⟨hdecl, .inr ⟨_, hnp, huse⟩⟩
  · rintro ⟨hdecl, huse | ⟨np, hnp, huse⟩⟩
    · exact .own hdecl huse
    · exact .nested hdecl hnp huse

variable {lookupAny : String → Option TypeId}

theorem mem_childCaptures {hidden : List String} {nps : List HirProcDecl}
    (hnps : ∀ np ∈ nps, ∀ cap ∈ nestedCaptures lookupAny np, cap = foundVar lookupAny cap.name)
    {captures : List CapturedVar}
    (hcaptures : ∀ cap ∈ captures, cap = foundVar lookupAny cap.name) (cap : CapturedVar) :
    cap ∈ childCaptures lookupAny hidden captures nps ↔
      cap ∈ captures ∨ ∃ np ∈ nps, cap ∈ nestedCaptures lookupAny np ∧ cap.name ∉ hidden := by
  induction nps generalizing captures with
  | nil => simp [childCaptures]
  | cons np nps ih =>
    have hnp := hnps np mem_cons_self
    have hpush := mem_pushCaptures hidden hnp hcaptures
    have hpushed : ∀ c ∈ pushCaptures hidden captures (nestedCaptures lookupAny np),
        c = foundVar lookupAny c.name := by
      intro c hc
      obtain hc | ⟨hc, -⟩ := (hpush c).mp hc
      · exact hcaptures c hc
      · exact hnp c hc
    rw [childCaptures, ih (fun q hq => hnps q (mem_cons_of_mem _ hq)) hpushed, hpush]
    simp only [mem_cons, exists_eq_or_imp, or_assoc]

/-- A nested procedure captures the variables that it reads from outside, with the types that
`lookup_any` finds. -/
theorem mem_nestedCaptures : ∀ (pds : List HirProcDecl), ∀ pd ∈ pds, ∀ cap,
    cap ∈ nestedCaptures lookupAny pd ↔
      cap = foundVar lookupAny cap.name ∧ pd.ReadsFree cap.name
  | [], pd, hpd, _ => absurd hpd (by simp)
  | ⟨sig, body, locals, nested, captures, cfg⟩ :: pds, pd, hpd, cap => by
    have ihn := mem_nestedCaptures nested
    have ihs := mem_nestedCaptures pds
    obtain rfl | hpd := mem_cons.mp hpd
    · have hown : ∀ c ∈ ((body.map collectHirVarRefs).getD []).map (foundVar lookupAny),
          c = foundVar lookupAny c.name := by
        intro c hc
        obtain ⟨name, -, rfl⟩ := mem_map.mp hc
        rfl
      have hpush : ∀ c, c ∈ pushCaptures
          (sig.params.map HirParamDecl.name ++ (localVars locals).map Prod.fst) []
          (((body.map collectHirVarRefs).getD []).map (foundVar lookupAny)) ↔ _ ∨ _ :=
        mem_pushCaptures _ hown (fun c hc => absurd hc (by simp))
      have hnested : ∀ np ∈ nested, ∀ c ∈ nestedCaptures lookupAny np,
          c = foundVar lookupAny c.name := fun np hnp c hc => ((ihn np hnp c).mp hc).1
      rw [nestedCaptures, mem_childCaptures hnested, hpush, HirProcDecl.ReadsFree, usesFree_iff]
      · have hrefs : cap ∈ ((body.map collectHirVarRefs).getD []).map (foundVar lookupAny) ↔
            cap = foundVar lookupAny cap.name ∧
              cap.name ∈ (body.map collectHirVarRefs).getD [] := by
          rw [mem_map]
          constructor
          · rintro ⟨name, hname, rfl⟩
            exact ⟨rfl, hname⟩
          · rintro ⟨heq, hname⟩
            exact ⟨cap.name, hname, heq.symm⟩
        have hchildren : (∃ np ∈ nested, cap ∈ nestedCaptures lookupAny np ∧
            cap.name ∉ sig.params.map HirParamDecl.name ++ (localVars locals).map Prod.fst) ↔
            cap = foundVar lookupAny cap.name ∧
              cap.name ∉ sig.params.map HirParamDecl.name ++ (localVars locals).map Prod.fst ∧
              ∃ np ∈ nested, np.ReadsFree cap.name := by
          constructor
          · rintro ⟨np, hnp, hcap, hhidden⟩
            obtain ⟨heq, hreads⟩ := (ihn np hnp cap).mp hcap
            exact ⟨heq, hhidden, np, hnp, hreads⟩
          · rintro ⟨heq, hhidden, np, hnp, hreads⟩
            exact ⟨np, hnp, (ihn np hnp cap).mpr ⟨heq, hreads⟩, hhidden⟩
        rw [hrefs, hchildren, HirProcDecl.ownNames]
        simp only [not_mem_nil, false_or, HirProcDecl.ReadsFree]
        tauto
      · intro c hc
        obtain hc | ⟨hc, -⟩ := (hpush c).mp hc
        · exact absurd hc (by simp)
        · exact hown c hc
    · exact ihs pd hpd cap

end Mx.HirBuild

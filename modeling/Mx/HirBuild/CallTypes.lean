import Mx.HirBuild.ExprLower

/-!
# Types of calls

The call nodes of a lowered expression come from its calls. The type that a node stores is the
declared return type of the procedure that the call resolves to exactly if the second lookup of
`infer_return_type`, which knows no scope, finds the same return type.
-/

namespace Mx.HirBuild

open Ast Sema List

/-! ## Call nodes -/

mutual

/-- The call nodes of an expression, itself included. -/
def callNodes : HirExpr → List HirExpr
  | ⟨.directCall target args, ty, loc⟩ => ⟨.directCall target args, ty, loc⟩ :: listCalls args
  | ⟨.indirectCall callee args, ty, loc⟩ =>
    ⟨.indirectCall callee args, ty, loc⟩ :: (callNodes callee ++ listCalls args)
  | ⟨.place p, _, _⟩ | ⟨.addrOf p, _, _⟩ => placeCalls p
  | ⟨.unaryOp _ e, _, _⟩ | ⟨.not e, _, _⟩ | ⟨.deref e, _, _⟩ | ⟨.typeTransfer e, _, _⟩ =>
    callNodes e
  | ⟨.binaryOp _ l r, _, _⟩ => callNodes l ++ callNodes r
  | ⟨.setConstructor elements, _, _⟩ => elementCalls elements
  | ⟨.intLit _, _, _⟩ | ⟨.realLit _, _, _⟩ | ⟨.stringLit _, _, _⟩ | ⟨.charLit _, _, _⟩
  | ⟨.boolLit _, _, _⟩ | ⟨.nilLit, _, _⟩ => []

/-- The call nodes of a place. -/
def placeCalls : Place → List HirExpr
  | ⟨_, projections, _, _⟩ => projectionCalls projections

/-- The call nodes of projections. -/
def projectionCalls : List Projection → List HirExpr
  | [] => []
  | ⟨.index e, _⟩ :: ps | ⟨.typeTransfer e, _⟩ :: ps => callNodes e ++ projectionCalls ps
  | ⟨.field _ _ _, _⟩ :: ps | ⟨.deref, _⟩ :: ps | ⟨.variantField _ _ _ _, _⟩ :: ps =>
    projectionCalls ps

/-- The call nodes of expressions. -/
def listCalls : List HirExpr → List HirExpr
  | [] => []
  | e :: es => callNodes e ++ listCalls es

/-- The call nodes of the elements of a set. -/
def elementCalls : List HirSetElement → List HirExpr
  | [] => []
  | .single e :: es => callNodes e ++ elementCalls es
  | .range lo hi :: es => callNodes lo ++ callNodes hi ++ elementCalls es

end

/-- The node is a call. -/
def isCallNode : HirExpr → Bool
  | ⟨.directCall _ _, _, _⟩ => true
  | ⟨.indirectCall _ _, _, _⟩ => true
  | _ => false

mutual

theorem callNodes_call : ∀ (e n : HirExpr), n ∈ callNodes e → isCallNode n = true
  | ⟨.directCall target args, ty, loc⟩, n, hn => by
    rw [callNodes, mem_cons] at hn
    rcases hn with rfl | hn
    · rfl
    · exact listCalls_call args n hn
  | ⟨.indirectCall callee args, ty, loc⟩, n, hn => by
    rw [callNodes, mem_cons, mem_append] at hn
    rcases hn with rfl | hn | hn
    · rfl
    · exact callNodes_call callee n hn
    · exact listCalls_call args n hn
  | ⟨.place p, _, _⟩, n, hn | ⟨.addrOf p, _, _⟩, n, hn => by
    rw [callNodes] at hn
    exact placeCalls_call p n hn
  | ⟨.unaryOp _ e, _, _⟩, n, hn | ⟨.not e, _, _⟩, n, hn | ⟨.deref e, _, _⟩, n, hn
  | ⟨.typeTransfer e, _, _⟩, n, hn => by
    rw [callNodes] at hn
    exact callNodes_call e n hn
  | ⟨.binaryOp _ l r, _, _⟩, n, hn => by
    rw [callNodes, mem_append] at hn
    exact hn.elim (callNodes_call l n) (callNodes_call r n)
  | ⟨.setConstructor elements, _, _⟩, n, hn => by
    rw [callNodes] at hn
    exact elementCalls_call elements n hn
  | ⟨.intLit _, _, _⟩, n, hn | ⟨.realLit _, _, _⟩, n, hn | ⟨.stringLit _, _, _⟩, n, hn
  | ⟨.charLit _, _, _⟩, n, hn | ⟨.boolLit _, _, _⟩, n, hn | ⟨.nilLit, _, _⟩, n, hn => by
    simp [callNodes] at hn

theorem placeCalls_call : ∀ (p : Place) (n : HirExpr), n ∈ placeCalls p → isCallNode n = true
  | ⟨_, projections, _, _⟩, n, hn => by
    rw [placeCalls] at hn
    exact projectionCalls_call projections n hn

theorem projectionCalls_call : ∀ (ps : List Projection) (n : HirExpr),
    n ∈ projectionCalls ps → isCallNode n = true
  | [], n, hn => by simp [projectionCalls] at hn
  | ⟨.index e, _⟩ :: ps, n, hn | ⟨.typeTransfer e, _⟩ :: ps, n, hn => by
    rw [projectionCalls, mem_append] at hn
    exact hn.elim (callNodes_call e n) (projectionCalls_call ps n)
  | ⟨.field _ _ _, _⟩ :: ps, n, hn | ⟨.deref, _⟩ :: ps, n, hn
  | ⟨.variantField _ _ _ _, _⟩ :: ps, n, hn => by
    rw [projectionCalls] at hn
    exact projectionCalls_call ps n hn

theorem listCalls_call : ∀ (es : List HirExpr) (n : HirExpr),
    n ∈ listCalls es → isCallNode n = true
  | [], n, hn => by simp [listCalls] at hn
  | e :: es, n, hn => by
    rw [listCalls, mem_append] at hn
    exact hn.elim (callNodes_call e n) (listCalls_call es n)

theorem elementCalls_call : ∀ (es : List HirSetElement) (n : HirExpr),
    n ∈ elementCalls es → isCallNode n = true
  | [], n, hn => by simp [elementCalls] at hn
  | .single e :: es, n, hn => by
    rw [elementCalls, mem_append] at hn
    exact hn.elim (callNodes_call e n) (elementCalls_call es n)
  | .range lo hi :: es, n, hn => by
    rw [elementCalls, mem_append, mem_append] at hn
    rcases hn with (hn | hn) | hn
    · exact callNodes_call lo n hn
    · exact callNodes_call hi n hn
    · exact elementCalls_call es n hn

end

/-! ## Calls of the source -/

/-- A call in an expression. -/
structure Call where
  desig : Designator
  args : List Expr
  loc : SourceLoc

/-- The expression that a call is. -/
def Call.expr (c : Call) : Expr := ⟨.funcCall c.desig c.args, c.loc⟩

mutual

/-- The calls in an expression, itself included. -/
def exprCalls : Expr → List Call
  | ⟨.designator d, _⟩ => desigCalls d
  | ⟨.funcCall desig args, loc⟩ => ⟨desig, args, loc⟩ :: (desigCalls desig ++ argCalls args)
  | ⟨.unaryOp _ e, _⟩ | ⟨.not e, _⟩ | ⟨.deref e, _⟩ => exprCalls e
  | ⟨.binaryOp _ l r, _⟩ => exprCalls l ++ exprCalls r
  | ⟨.setConstructor _ elements, _⟩ => setCalls elements
  | ⟨.intLit _, _⟩ | ⟨.realLit _, _⟩ | ⟨.stringLit _, _⟩ | ⟨.charLit _, _⟩ | ⟨.boolLit _, _⟩
  | ⟨.nilLit, _⟩ => []

/-- The calls in a designator. -/
def desigCalls : Designator → List Call
  | ⟨_, selectors, _⟩ => selectorCalls selectors

/-- The calls in selectors. -/
def selectorCalls : List Selector → List Call
  | [] => []
  | .index es :: sels | .call es :: sels => argCalls es ++ selectorCalls sels
  | .field _ :: sels | .deref :: sels => selectorCalls sels

/-- The calls in arguments. -/
def argCalls : List Expr → List Call
  | [] => []
  | e :: es => exprCalls e ++ argCalls es

/-- The calls in the elements of a set. -/
def setCalls : List SetElement → List Call
  | [] => []
  | .single e :: es => exprCalls e ++ setCalls es
  | .range lo hi :: es => exprCalls lo ++ exprCalls hi ++ setCalls es

end

theorem listCalls_eq (es : List HirExpr) : listCalls es = es.flatMap callNodes := by
  induction es with
  | nil => simp [listCalls]
  | cons e es ih => simp [listCalls, ih]

theorem projectionCalls_append (ps qs : List Projection) :
    projectionCalls (ps ++ qs) = projectionCalls ps ++ projectionCalls qs := by
  induction ps with
  | nil => simp [projectionCalls]
  | cons p ps ih =>
    obtain ⟨kind, ty⟩ := p
    cases kind <;> simp [projectionCalls, ih]

variable {ps : List Projection}

theorem projectionCalls_steps (h : ∀ p ∈ ps, isStep p = true) :
    projectionCalls ps = [] := by
  induction ps with
  | nil => simp [projectionCalls]
  | cons p ps ih =>
    have hp := h p mem_cons_self
    have hps := ih fun q hq => h q (mem_cons_of_mem p hq)
    obtain ⟨kind, ty⟩ := p
    cases kind with
    | index e => cases hp
    | typeTransfer e => cases hp
    | field idx name recordTy | deref | variantField v f name recordTy =>
      simpa [projectionCalls] using hps

theorem projectionCalls_index (e : HirExpr) (ty : TypeId) :
    projectionCalls [⟨.index e, ty⟩] = callNodes e := by simp [projectionCalls]

theorem projectionCalls_typeTransfer (e : HirExpr) (ty : TypeId) :
    projectionCalls [⟨.typeTransfer e, ty⟩] = callNodes e := by simp [projectionCalls]

variable {S : HirExpr → Prop}

/-- Every call node of an expression is one of a set. -/
def CallsIn (S : HirExpr → Prop) (e : HirExpr) : Prop := ∀ n ∈ callNodes e, S n

/-- Every call node of a place is one of a set. -/
def PlaceCallsIn (S : HirExpr → Prop) (p : Place) : Prop := ∀ n ∈ placeCalls p, S n

/-- Every call node in the expressions of a selector is one of a set. -/
def SelectorCallsIn (S : HirExpr → Prop) : LoweredSelector → Prop
  | .index es => ∀ e ∈ es, CallsIn S e
  | .call args => ∀ e ∈ args, CallsIn S e
  | .field _ => True
  | .deref => True

/-- Every call node of an argument, or of its place, is one of a set. -/
structure ActualCallsIn (S : HirExpr → Prop) (a : Actual) : Prop where
  lowered : CallsIn S a.lowered
  place : ∀ p, a.place = some p → PlaceCallsIn S p

theorem CallsIn.headD {es : List HirExpr} (h : ∀ e ∈ es, CallsIn S e) (v : Int) (ty : TypeId)
    (loc : SourceLoc) : CallsIn S (es.headD ⟨.intLit v, ty, loc⟩) := by
  cases es with
  | nil =>
    intro n hn
    simp [callNodes] at hn
  | cons e es => exact h e mem_cons_self

theorem SelectorCallsIn.mono {S' : HirExpr → Prop} (h : ∀ n, S n → S' n) {sel : LoweredSelector}
    (hsel : SelectorCallsIn S sel) : SelectorCallsIn S' sel := by
  cases sel with
  | index es | call args => exact fun e he n hn => h n (hsel e he n hn)
  | field name => trivial
  | deref => trivial

theorem ActualCallsIn.mono {S' : HirExpr → Prop} (h : ∀ n, S n → S' n) {a : Actual}
    (ha : ActualCallsIn S a) : ActualCallsIn S' a where
  lowered n hn := h n (ha.lowered n hn)
  place p hp n hn := h n (ha.place p hp n hn)

namespace HirBuilder

variable {b : HirBuilder}

/-! ## Designators -/

variable {ty : TypeId}

/-- A projection holds the call nodes of the expressions of its selector. -/
theorem resolveSelector_calls {sel : LoweredSelector} (hsel : SelectorCallsIn S sel)
    {p : Projection} (hp : b.resolveSelector ty sel = some p) :
    ∀ n ∈ projectionCalls [p], S n := by
  cases sel with
  | field name =>
    rw [projectionCalls_steps]
    · intro n hn
      cases hn
    · intro q hq
      rw [mem_singleton.1 hq]
      exact resolveFieldProjection_step b hp
  | index es =>
    have hidx := CallsIn.headD (S := S) hsel 0 tyInteger SourceLoc.none
    simp only [resolveSelector] at hp
    split at hp
    all_goals
      first
      | obtain rfl := Option.some.inj hp
        rw [projectionCalls_index]
        exact hidx
      | cases hp
  | deref =>
    simp only [resolveSelector] at hp
    split at hp
    all_goals
      obtain rfl := Option.some.inj hp
      simp [projectionCalls]
  | call args =>
    have harg := CallsIn.headD (S := S) hsel 0 tyInteger SourceLoc.none
    obtain rfl := Option.some.inj hp
    rw [projectionCalls_typeTransfer]
    exact harg

variable {sels : List LoweredSelector}

theorem selectAll_calls (hsels : ∀ s ∈ sels, SelectorCallsIn S s) {ty' : TypeId}
    (h : b.selectAll ty sels = some (ps, ty')) : ∀ n ∈ projectionCalls ps, S n := by
  induction sels generalizing ty ps ty' with
  | nil =>
    obtain ⟨rfl, -⟩ := Prod.mk.inj (Option.some.inj h)
    simp [projectionCalls]
  | cons sel sels ih =>
    obtain ⟨p, hp, h⟩ := Option.bind_eq_some_iff.1 h
    obtain ⟨⟨qs, ty''⟩, hqs, heq⟩ := Option.map_eq_some_iff.1 h
    obtain ⟨rfl, -⟩ := Prod.mk.inj heq
    have hfirst := resolveSelector_calls (hsels sel mem_cons_self) hp
    have hrest := ih (fun s hs => hsels s (mem_cons_of_mem sel hs)) hqs
    intro n hn
    rw [← singleton_append, projectionCalls_append, mem_append] at hn
    exact hn.elim (hfirst n) (hrest n)

theorem splitIndices_calls
    (hsels : ∀ s ∈ sels, SelectorCallsIn S s) : ∀ s ∈ splitIndices sels, SelectorCallsIn S s := by
  intro s hs
  obtain ⟨t, ht, hs⟩ := mem_flatMap.1 hs
  have htS := hsels t ht
  cases t with
  | index es =>
    obtain ⟨e, he, rfl⟩ := mem_map.1 hs
    intro e' he'
    rw [mem_singleton.1 he']
    exact htS e he
  | field name | deref | call args =>
    obtain rfl := mem_singleton.1 hs
    exact htS

variable {p : Place}

variable {loc : SourceLoc}

theorem applySelectors_calls {base : PlaceBase × TypeId} (hsels : ∀ s ∈ sels, SelectorCallsIn S s)
    (h : b.applySelectors base sels loc = some p) : PlaceCallsIn S p := by
  obtain ⟨⟨ps, ty⟩, hps, rfl⟩ := Option.map_eq_some_iff.1 h
  exact selectAll_calls (splitIndices_calls hsels) hps

theorem resolveWithField_calls {name : String} (hsels : ∀ s ∈ sels, SelectorCallsIn S s)
    (h : b.resolveWithField name sels loc = some p) : PlaceCallsIn S p := by
  obtain ⟨ws, -, h⟩ := Option.bind_eq_some_iff.1 h
  obtain ⟨field, hfield, h⟩ := Option.bind_eq_some_iff.1 h
  obtain ⟨⟨ps, ty⟩, hps, rfl⟩ := Option.map_eq_some_iff.1 h
  have hsteps : projectionCalls ((b.withBase ws).projections ++ [field]) = [] := by
    apply projectionCalls_steps
    intro q hq
    rcases mem_append.1 hq with hq | hq
    · exact (b.withBase ws).steps q hq
    · rw [mem_singleton.1 hq]
      exact resolveFieldProjection_step b hfield
  intro n hn
  rw [placeCalls, ← singleton_append, ← append_assoc, projectionCalls_append, hsteps,
    nil_append] at hn
  exact selectAll_calls hsels hps n hn

/-- A place holds the call nodes of the selectors. -/
theorem resolveLowered_calls {ident : QualIdent} (hsels : ∀ s ∈ sels, SelectorCallsIn S s)
    (h : b.resolveLowered ident sels loc = some p) : PlaceCallsIn S p := by
  rw [resolveLowered] at h
  split at h
  · next field rest hfield =>
    refine applySelectors_calls ?_ h
    cases sels with
    | nil => cases hfield
    | cons sel sels =>
      cases sel with
      | field name =>
        simp only [moduleField] at hfield
        split at hfield
        · obtain ⟨-, rfl⟩ := Prod.mk.inj (Option.some.inj hfield)
          exact fun s hs => hsels s (mem_cons_of_mem _ hs)
        · cases hfield
      | index es | deref | call args => cases hfield
  · rw [Option.or_eq_some_iff] at h
    rcases h with h | ⟨-, h⟩
    · split at h
      · exact resolveWithField_calls hsels h
      · cases h
    · obtain ⟨base, -, h⟩ := Option.bind_eq_some_iff.1 h
      exact applySelectors_calls hsels h

/-! ## Calls -/

theorem computeHighForArg_calls (arg : Actual) (loc : SourceLoc) :
    CallsIn S (b.computeHighForArg arg loc) := by
  have hlit : ∀ v, CallsIn S (highLit v loc) := by
    intro v n hn
    simp [highLit, callNodes] at hn
  rw [computeHighForArg]
  split
  · exact hlit _
  · split
    · split
      · split
        · exact hlit _
        · split
          · next place hplace =>
            have hp : PlaceCallsIn S place :=
              resolveLowered_calls (fun s hs => absurd hs not_mem_nil) hplace
            intro n hn
            rw [callNodes] at hn
            exact hp n hn
          · exact hlit _
        · exact hlit _
        · split
          · exact hlit _
          · exact hlit _
      · exact hlit _
    · split
      · split
        · exact hlit _
        · exact hlit _
      · exact hlit _
  · exact hlit _

theorem promoteString_calls {e : HirExpr} (h : CallsIn S e) : CallsIn S (promoteString e) := by
  obtain ⟨kind, ty, loc⟩ := e
  cases kind with
  | stringLit s =>
    intro n hn
    simp [promoteString, callNodes] at hn
  | _ => exact h

theorem argValue_calls {arg : Actual} (h : ActualCallsIn S arg) (isVar isOpen : Bool)
    (loc : SourceLoc) : CallsIn S (b.argValue arg isVar isOpen loc) := by
  have hplace : ∀ p, arg.place = some p →
      CallsIn S ⟨.addrOf p, tyAddress, loc⟩ ∧ CallsIn S ⟨.place p, tyAddress, loc⟩ := by
    intro p hp
    constructor
    · intro n hn
      rw [callNodes] at hn
      exact h.place p hp n hn
    · intro n hn
      rw [callNodes] at hn
      exact h.place p hp n hn
  unfold argValue
  split
  · next place hp => exact (hplace place hp).1
  · next place hp =>
    split
    · exact (hplace place hp).2
    · exact (hplace place hp).1
  · exact promoteString_calls h.lowered
  · exact h.lowered

variable {args : List Actual}

theorem expandCallArgs_calls (h : ∀ a ∈ args, ActualCallsIn S a)
    (modes : List (Bool × Bool)) (loc : SourceLoc) :
    ∀ e ∈ b.expandCallArgs args modes loc, CallsIn S e := by
  induction args generalizing modes with
  | nil =>
    intro e he
    cases he
  | cons arg args ih =>
    intro e he
    rw [expandCallArgs, mem_append] at he
    rcases he with he | he
    · have hvalue := argValue_calls (b := b) (h arg mem_cons_self)
        (modes.headD (false, false)).1 (modes.headD (false, false)).2 loc
      rw [expandArg] at he
      split at he
      · rcases mem_cons.1 he with rfl | he
        · exact hvalue
        · rw [mem_singleton.1 he]
          exact computeHighForArg_calls arg loc
      · rw [mem_singleton.1 he]
        exact hvalue
    · exact ih (fun a ha => h a (mem_cons_of_mem arg ha)) modes.tail e he

theorem listCalls_in {es : List HirExpr} (h : ∀ e ∈ es, CallsIn S e) :
    ∀ n ∈ listCalls es, S n := by
  intro n hn
  rw [listCalls_eq] at hn
  obtain ⟨e, he, hn⟩ := mem_flatMap.1 hn
  exact h e he n hn

theorem loweredCalls_in (h : ∀ a ∈ args, ActualCallsIn S a) :
    ∀ n ∈ listCalls (args.map (·.lowered)), S n := by
  apply listCalls_in
  intro e he
  obtain ⟨a, ha, rfl⟩ := mem_map.1 he
  exact (h a ha).lowered

theorem lowerTransfer_calls (hargs : ∀ a ∈ args, ActualCallsIn S a)
    (name : String) (loc : SourceLoc) : CallsIn S (b.lowerTransfer name args loc) := by
  unfold lowerTransfer
  split
  · next typ arg rest =>
    intro n hn
    rw [callNodes] at hn
    exact (hargs arg (mem_cons_of_mem _ mem_cons_self)).lowered n hn
  · intro n hn
    rw [callNodes] at hn
    cases args with
    | nil => simp [callNodes] at hn
    | cons arg args => exact (hargs arg mem_cons_self).lowered n hn

/-- The call nodes of a call are itself and those of its parts. -/
theorem lowerCall_calls {desig : Designator} {place : Option Place}
    (hplace : ∀ p, place = some p → PlaceCallsIn S p) (hargs : ∀ a ∈ args, ActualCallsIn S a)
    (hself : S (b.lowerCall desig place args loc)) :
    CallsIn S (b.lowerCall desig place args loc) := by
  unfold lowerCall at hself ⊢
  by_cases htransfer : b.isTypeTransfer desig = true
  · rw [if_pos htransfer]
    exact lowerTransfer_calls hargs _ loc
  · rw [if_neg htransfer] at hself ⊢
    by_cases hbuiltin : isBuiltinCall desig = true
    · rw [if_pos hbuiltin] at hself ⊢
      split at hself
      · exact computeHighForArg_calls _ loc
      · intro n hn
        rw [lowerBuiltin, callNodes, mem_cons] at hn
        rcases hn with rfl | hn
        · exact hself
        · exact loweredCalls_in hargs n hn
    · rw [if_neg hbuiltin] at hself ⊢
      have hexpanded :=
        listCalls_in (expandCallArgs_calls (b := b) hargs (b.lookupProcParams desig place) loc)
      dsimp only at hself ⊢
      split at hself
      · intro n hn
        rw [callNodes, mem_cons] at hn
        rcases hn with rfl | hn
        · exact hself
        · exact hexpanded n hn
      · next p _ =>
        intro n hn
        rw [callNodes, mem_cons, mem_append, callNodes] at hn
        rcases hn with rfl | hn | hn
        · exact hself
        · exact hplace p rfl n hn
        · exact hexpanded n hn
      · intro n hn
        simp [callNodes] at hn

/-! ## Expressions -/

theorem placeExpr_calls {place : Option Place} (h : ∀ p, place = some p → PlaceCallsIn S p)
    (loc : SourceLoc) : CallsIn S (placeExpr place loc) := by
  unfold placeExpr
  split
  · next v _ _ =>
    intro n hn
    cases v <;> simp [constLiteral, callNodes] at hn
  · next p _ =>
    intro n hn
    rw [callNodes] at hn
    exact h p rfl n hn
  · intro n hn
    simp [callNodes] at hn

/-- The call nodes of a place are those of the expression that it gives. -/
theorem PlaceCallsIn.of_placeExpr
    (h : CallsIn S (placeExpr (some p) loc)) : PlaceCallsIn S p := by
  intro n hn
  apply h
  unfold placeExpr
  split
  · next hp =>
    obtain rfl := Option.some.inj hp
    simp [placeCalls, projectionCalls] at hn
  · next q _ hp =>
    obtain rfl := Option.some.inj hp
    rwa [callNodes]
  · next hp => cases hp

/-- The node is what one of the calls is lowered to. -/
def FromCalls (b : HirBuilder) (calls : List Call) (node : HirExpr) : Prop :=
  ∃ c ∈ calls, node = b.lowerExpr c.expr

variable {n : HirExpr}

theorem FromCalls.mono {calls calls' : List Call} (h : ∀ c ∈ calls, c ∈ calls')
    (hn : b.FromCalls calls n) : b.FromCalls calls' n := by
  obtain ⟨c, hc, hn⟩ := hn
  exact ⟨c, h c hc, hn⟩

theorem FromCalls.left {calls : List Call} (calls' : List Call)
    (hn : b.FromCalls calls n) : b.FromCalls (calls ++ calls') n :=
  hn.mono fun _ => mem_append_left _

theorem FromCalls.right (calls : List Call) {calls' : List Call}
    (hn : b.FromCalls calls' n) : b.FromCalls (calls ++ calls') n :=
  hn.mono fun _ => mem_append_right _

variable (b)

mutual

/-- Every call node of a lowered expression is what a call in it is lowered to. -/
theorem lowerExpr_calls : ∀ e : Expr, CallsIn (b.FromCalls (exprCalls e)) (b.lowerExpr e)
  | ⟨.intLit v, loc⟩ | ⟨.realLit v, loc⟩ | ⟨.stringLit v, loc⟩ | ⟨.charLit v, loc⟩
  | ⟨.boolLit v, loc⟩ | ⟨.nilLit, loc⟩ => by
    intro n hn
    simp [lowerExpr, callNodes] at hn
  | ⟨.designator d, loc⟩ => by
    rw [lowerExpr, exprCalls]
    exact placeExpr_calls (resolveDesignator_calls d) loc
  | ⟨.funcCall desig args, loc⟩ => by
    have hself : b.FromCalls (exprCalls ⟨.funcCall desig args, loc⟩)
        (b.lowerExpr ⟨.funcCall desig args, loc⟩) := by
      rw [exprCalls]
      exact ⟨⟨desig, args, loc⟩, mem_cons_self, rfl⟩
    rw [exprCalls] at hself ⊢
    rw [lowerExpr] at hself ⊢
    refine lowerCall_calls ?_ ?_ hself
    · intro p hp n hn
      exact ((resolveDesignator_calls desig p hp n hn).left _).mono fun _ =>
        mem_cons_of_mem _
    · intro a ha
      exact (lowerActuals_calls args a ha).mono fun n hn =>
        (hn.right (desigCalls desig)).mono fun _ => mem_cons_of_mem _
  | ⟨.unaryOp op operand, loc⟩ | ⟨.not operand, loc⟩ | ⟨.deref operand, loc⟩ => by
    intro n hn
    rw [lowerExpr, callNodes] at hn
    rw [exprCalls]
    exact lowerExpr_calls operand n hn
  | ⟨.binaryOp op left right, loc⟩ => by
    intro n hn
    rw [lowerExpr, callNodes, mem_append] at hn
    rw [exprCalls]
    rcases hn with hn | hn
    · exact (lowerExpr_calls left n hn).left _
    · exact (lowerExpr_calls right n hn).right _
  | ⟨.setConstructor baseType elements, loc⟩ => by
    intro n hn
    rw [lowerExpr, callNodes] at hn
    rw [exprCalls]
    exact lowerElements_calls elements n hn

theorem resolveDesignator_calls : ∀ (d : Designator) (p : Place),
    b.resolveDesignator d = some p → PlaceCallsIn (b.FromCalls (desigCalls d)) p
  | ⟨ident, selectors, loc⟩, p, h => by
    rw [resolveDesignator] at h
    rw [desigCalls]
    exact resolveLowered_calls (lowerSelectors_calls selectors) h

theorem lowerSelectors_calls : ∀ (sels : List Selector) (s : LoweredSelector),
    s ∈ b.lowerSelectors sels → SelectorCallsIn (b.FromCalls (selectorCalls sels)) s
  | [], s, hs => by
    rw [lowerSelectors] at hs
    cases hs
  | .field name :: sels, s, hs | .deref :: sels, s, hs => by
    rw [lowerSelectors, mem_cons] at hs
    rw [selectorCalls]
    rcases hs with rfl | hs
    · trivial
    · exact lowerSelectors_calls sels s hs
  | .index es :: sels, s, hs => by
    rw [lowerSelectors, mem_cons] at hs
    rw [selectorCalls]
    rcases hs with rfl | hs
    · exact fun e he n hn => (lowerExprs_calls es e he n hn).left _
    · exact SelectorCallsIn.mono (fun n hn => hn.right _) (lowerSelectors_calls sels s hs)
  | .call args :: sels, s, hs => by
    rw [lowerSelectors, mem_cons] at hs
    rw [selectorCalls]
    rcases hs with rfl | hs
    · exact fun e he n hn => (lowerExprs_calls args e he n hn).left _
    · exact SelectorCallsIn.mono (fun n hn => hn.right _) (lowerSelectors_calls sels s hs)

theorem lowerExprs_calls : ∀ (es : List Expr) (e : HirExpr),
    e ∈ b.lowerExprs es → CallsIn (b.FromCalls (argCalls es)) e
  | [], e, he => by
    rw [lowerExprs] at he
    cases he
  | e' :: es, e, he => by
    rw [lowerExprs, mem_cons] at he
    rw [argCalls]
    rcases he with rfl | he
    · exact fun n hn => (lowerExpr_calls e' n hn).left _
    · exact fun n hn => (lowerExprs_calls es e he n hn).right _

theorem lowerActuals_calls : ∀ (es : List Expr) (a : Actual),
    a ∈ b.lowerActuals es → ActualCallsIn (b.FromCalls (argCalls es)) a
  | [], a, ha => by
    rw [lowerActuals] at ha
    cases ha
  | e :: es, a, ha => by
    have he := lowerExpr_calls e
    rw [lowerActuals_eq, map_cons, mem_cons] at ha
    rw [argCalls]
    rcases ha with rfl | ha
    · have hplace : ∀ p, b.actualPlace e = some p →
          PlaceCallsIn (b.FromCalls (exprCalls e)) p := by
        intro p hp
        obtain ⟨kind, loc⟩ := e
        cases kind with
        | designator d =>
          have hd : b.resolveDesignator d = some p := hp
          rw [lowerExpr, hd] at he
          exact PlaceCallsIn.of_placeExpr he
        | _ => cases hp
      have hactual : ActualCallsIn (b.FromCalls (exprCalls e)) (b.actual e) := ⟨he, hplace⟩
      exact hactual.mono fun n hn => hn.left _
    · rw [← lowerActuals_eq] at ha
      exact (lowerActuals_calls es a ha).mono fun n hn => hn.right _

theorem lowerElements_calls : ∀ (es : List SetElement) (n : HirExpr),
    n ∈ elementCalls (b.lowerElements es) → b.FromCalls (setCalls es) n
  | [], n, hn => by simp [lowerElements, elementCalls] at hn
  | .single e :: es, n, hn => by
    rw [lowerElements, elementCalls, mem_append] at hn
    rw [setCalls]
    rcases hn with hn | hn
    · exact (lowerExpr_calls e n hn).left _
    · exact (lowerElements_calls es n hn).right _
  | .range lo hi :: es, n, hn => by
    rw [lowerElements, elementCalls, mem_append, mem_append] at hn
    rw [setCalls]
    rcases hn with (hn | hn) | hn
    · exact ((lowerExpr_calls lo n hn).left _).left _
    · exact ((lowerExpr_calls hi n hn).right _).left _
    · exact (lowerElements_calls es n hn).right _

end

/-! ## Callees -/

/-- The procedure that a direct call resolves to: its name, its module and its symbol. -/
structure Callee where
  name : String
  moduleName : String
  symbol : Symbol

/-- The field of an imported module that a designator is. -/
def importedField (desig : Designator) : Option String :=
  match desig.ident.moduleName, desig.selectors with
  | none, .field name :: _ =>
    if b.importedModules.contains desig.ident.name then some name else none
  | _, _ => none

/-- The symbol of a designator in the current scope. -/
def callee (desig : Designator) : Option Callee :=
  match b.importedField desig, desig.ident.moduleName with
  | some field, _ =>
    (b.lookupModuleField desig.ident.name field).map fun sym => ⟨field, desig.ident.name, sym⟩
  | none, some m =>
    (b.symtab.lookupQualified m desig.ident.name).map fun sym => ⟨desig.ident.name, m, sym⟩
  | none, none =>
    (b.scopeLookup desig.ident.name).map fun sym =>
      ⟨desig.ident.name, (sym.moduleName.filter (· ≠ "")).getD b.moduleName, sym⟩

/-- The return type that the procedure, or the procedure type, of a call declares. -/
def declaredReturn (desig : Designator) : Option TypeId :=
  if isBuiltinCall desig then (b.scopeLookup desig.ident.name).bind returnTypeOf
  else
    match b.resolveDesignator desig with
    | some ⟨.funcRef _, _, _, _⟩ => (b.callee desig).bind fun c => returnTypeOf c.symbol
    | some p =>
      match b.typeOf p.ty with
      | .procedureType _ returnType => returnType
      | _ => none
    | none => none

/-- Two types are one up to aliases. -/
def SameType (t t' : TypeId) : Prop := b.resolveAlias t = b.resolveAlias t'

/-- The first symbol of the name in any scope declares the return type; if it declares none, the
symbol that the module exports does; if that declares none either, the type is `INTEGER`. -/
def FoundAnywhere (c : Callee) (ret : TypeId) : Prop :=
  match (b.symtab.lookupAny c.name).bind returnTypeOf,
    (b.symtab.lookupQualified c.moduleName c.name).bind returnTypeOf with
  | some t, _ => b.SameType t ret
  | none, some t => b.SameType t ret
  | none, none => b.SameType tyInteger ret

/-- What decides whether a call gets the return type: the fixed table for a built-in procedure, the
lookup of the name in all scopes for a direct call, and `INTEGER` for an indirect one. -/
def CallTyped (desig : Designator) (ret : TypeId) : Prop :=
  if isBuiltinCall desig then b.SameType (builtinReturnType desig.ident.name) ret
  else
    match b.resolveDesignator desig with
    | some ⟨.funcRef _, _, _, _⟩ => ∃ c, b.callee desig = some c ∧ b.FoundAnywhere c ret
    | _ => b.SameType tyInteger ret

variable {b}

variable {sid : SymbolId}

theorem kindBase_funcRef {sid' : SymbolId} {isLocal : Bool} {kind : SymbolKind}
    (h : kindBase sid isLocal kind = .funcRef sid') :
    sid' = sid ∧ ∃ params ret builtin, kind = .procedure params ret builtin := by
  cases kind with
  | procedure params ret builtin =>
    obtain rfl := PlaceBase.funcRef.inj h
    exact ⟨rfl, params, ret, builtin, rfl⟩
  | constant v => cases h
  | enumVariant v => cases h
  | «variable» | typ | modul scopeId | field => cases isLocal <;> cases h

/-- A procedure is no variable of the current procedure. -/
theorem not_isProcLocal {name : String} {sym : Symbol} (hsym : b.scopeLookup name = some sym)
    {params : List ParamInfo} {ret : Option TypeId} {builtin : Bool}
    (hkind : sym.kind = .procedure params ret builtin) : b.isProcLocal name = false := by
  rw [← Bool.not_eq_true]
  intro hlocal
  rw [isProcLocal, Bool.and_eq_true, Option.any_eq_true] at hlocal
  obtain ⟨-, s, hs, hvar⟩ := hlocal
  obtain ⟨scopeId, hscope, hs⟩ := Option.bind_eq_some_iff.1 hs
  rw [scopeLookup, hscope] at hsym
  have hfound := SymbolTable.lookupInScope_of_direct hs
  obtain rfl := Option.some.inj (hsym.symm.trans hfound)
  simp [hkind] at hvar

theorem resolvePlainBase_funcRef {name : String}
    (h : b.resolvePlainBase name = some (.funcRef sid, ty)) :
    ∃ sym, b.scopeLookup name = some sym ∧
      (∃ params ret builtin, sym.kind = .procedure params ret builtin) ∧ sid.sourceName = name ∧
      sid.moduleName = some ((sym.moduleName.filter (· ≠ "")).getD b.moduleName) := by
  rw [resolvePlainBase] at h
  cases hsym : b.scopeLookup name with
  | none =>
    rw [hsym] at h
    obtain ⟨tid, -, h⟩ := Option.map_eq_some_iff.1 h
    have hbase := congrArg Prod.fst h
    simp only [varTypeBase] at hbase
    split at hbase <;> cases hbase
  | some sym =>
    rw [hsym] at h
    have hbase : (b.symbolToBase name sym).1 = .funcRef sid := by
      dsimp only at h
      split_ifs at h
      · exact congrArg Prod.fst (Option.some.inj h)
      · cases congrArg Prod.fst (Option.some.inj h)
      · exact congrArg Prod.fst (Option.some.inj h)
    obtain ⟨rfl, params, ret, builtin, hkind⟩ := kindBase_funcRef hbase
    refine ⟨sym, rfl, ⟨params, ret, builtin, hkind⟩, rfl, ?_⟩
    simp only [not_isProcLocal hsym hkind, Bool.false_eq_true, if_false]

theorem applySelectors_base {base : PlaceBase × TypeId}
    (h : b.applySelectors base sels loc = some p) :
    p.base = base.1 := by
  obtain ⟨⟨ps, ty⟩, -, rfl⟩ := Option.map_eq_some_iff.1 h
  rfl

theorem moduleField_lower (ident : QualIdent) (sels : List Selector) (loc : SourceLoc) :
    (b.moduleField ident (b.lowerSelectors sels)).map (·.1) =
      b.importedField ⟨ident, sels, loc⟩ := by
  cases sels with
  | nil => simp [lowerSelectors, moduleField, importedField]
  | cons sel sels =>
    obtain ⟨m, name⟩ := ident
    cases sel with
    | field field =>
      cases m with
      | none =>
        by_cases h : name ∈ b.importedModules
        · simp [lowerSelectors, moduleField, importedField, h]
        · simp [lowerSelectors, moduleField, importedField, h]
      | some m => simp [lowerSelectors, moduleField, importedField]
    | _ => cases m <;> simp [lowerSelectors, moduleField, importedField]

/-- A function reference stands for the callee of the designator. -/
theorem resolveDesignator_funcRef {desig : Designator}
    (h : b.resolveDesignator desig = some ⟨.funcRef sid, ps, ty, loc⟩) :
    ∃ c, b.callee desig = some c ∧ sid.sourceName = c.name ∧
      sid.moduleName = some c.moduleName := by
  obtain ⟨ident, sels, dloc⟩ := desig
  rw [resolveDesignator, resolveLowered] at h
  have hfield := moduleField_lower (b := b) ident sels dloc
  rw [callee]
  cases hmf : b.moduleField ident (b.lowerSelectors sels) with
  | some found =>
    obtain ⟨field, rest⟩ := found
    rw [hmf] at h hfield
    rw [← hfield]
    have hbase := (applySelectors_base h).symm
    rw [moduleFieldBase] at hbase
    dsimp only [Option.map_some]
    cases hsym : b.lookupModuleField ident.name field with
    | none =>
      rw [hsym] at hbase
      cases hbase
    | some sym =>
      rw [hsym] at hbase
      obtain ⟨rfl, -⟩ := kindBase_funcRef hbase
      exact ⟨_, rfl, rfl, rfl⟩
  | none =>
    rw [hmf] at h hfield
    rw [← hfield]
    dsimp only [Option.map_none] at h ⊢
    rw [Option.or_eq_some_iff] at h
    rcases h with h | ⟨-, h⟩
    · split at h
      · obtain ⟨ws, -, h⟩ := Option.bind_eq_some_iff.1 h
        obtain ⟨field, -, h⟩ := Option.bind_eq_some_iff.1 h
        obtain ⟨⟨qs, ty'⟩, -, h⟩ := Option.map_eq_some_iff.1 h
        have hvar := (b.withBase ws).base_variable
        have hbase : (b.withBase ws).base = .funcRef sid := congrArg Place.base h
        rw [hbase] at hvar
        cases hvar
      · cases h
    · obtain ⟨base, hb, h⟩ := Option.bind_eq_some_iff.1 h
      have hbase := (applySelectors_base h).symm
      rw [resolveBase] at hb
      cases hm : ident.moduleName with
      | some m =>
        rw [hm] at hb
        obtain rfl := Option.some.inj hb
        rw [resolveModuleQualifiedBase] at hbase
        cases hsym : b.symtab.lookupQualified m ident.name with
        | none =>
          rw [hsym] at hbase
          cases hbase
        | some sym =>
          rw [hsym] at hbase
          obtain ⟨rfl, -⟩ := kindBase_funcRef hbase
          refine ⟨⟨ident.name, m, sym⟩, ?_, rfl, rfl⟩
          dsimp only
          rw [hsym]
          rfl
      | none =>
        rw [hm] at hb
        obtain ⟨base, baseTy⟩ := base
        obtain rfl : base = .funcRef sid := hbase
        obtain ⟨sym, hsym, -, hname, hmodule⟩ := resolvePlainBase_funcRef hb
        rw [hsym]
        exact ⟨_, rfl, hname, hmodule⟩

/-- The inferred type is the return type if and only if the lookups find it. -/
theorem inferReturnType_iff {c : Callee} (hname : sid.sourceName = c.name)
    (hmodule : sid.moduleName = some c.moduleName) (ret : TypeId) :
    b.SameType (b.inferReturnType sid) ret ↔ b.FoundAnywhere c ret := by
  rw [inferReturnType, FoundAnywhere, hname, hmodule, Option.bind_some]
  cases (b.symtab.lookupAny c.name).bind returnTypeOf with
  | some t => rfl
  | none =>
    cases (b.symtab.lookupQualified c.moduleName c.name).bind returnTypeOf with
    | some t => rfl
    | none => rfl

theorem isCallNode_self (h : isCallNode n = true) : n ∈ callNodes n := by
  obtain ⟨kind, ty, loc⟩ := n
  cases kind with
  | directCall target args | indirectCall callee args =>
    rw [callNodes]
    exact mem_cons_self
  | _ => cases h

/-- **One call.** The type of a call node is the declared return type if and only if the lookup
that decides it agrees. -/
theorem lowerExpr_call_iff {c : Call} (hnode : isCallNode (b.lowerExpr c.expr) = true)
    (ret : TypeId) : b.SameType (b.lowerExpr c.expr).ty ret ↔ b.CallTyped c.desig ret := by
  rw [Call.expr, lowerExpr] at hnode ⊢
  unfold lowerCall at hnode ⊢
  rw [CallTyped]
  by_cases htransfer : b.isTypeTransfer c.desig = true
  · rw [if_pos htransfer] at hnode
    unfold lowerTransfer at hnode
    split at hnode <;> cases hnode
  · rw [if_neg htransfer] at hnode ⊢
    by_cases hbuiltin : isBuiltinCall c.desig = true
    · rw [if_pos hbuiltin] at hnode ⊢
      rw [if_pos hbuiltin]
      split
      · next arg hname hargs =>
        rw [hname, hargs] at hnode
        have hnone : CallsIn (fun _ => False) (b.computeHighForArg arg c.loc) :=
          computeHighForArg_calls arg c.loc
        exact (hnone _ (isCallNode_self hnode)).elim
      · rfl
    · rw [if_neg hbuiltin] at hnode ⊢
      rw [if_neg hbuiltin]
      dsimp only at hnode ⊢
      cases hplace : b.resolveDesignator c.desig with
      | none =>
        rw [hplace] at hnode
        cases hnode
      | some p =>
        obtain ⟨base, ps, ty, loc⟩ := p
        cases base with
        | funcRef sid =>
          obtain ⟨c', hc', hname, hmodule⟩ := resolveDesignator_funcRef hplace
          rw [hc']
          constructor
          · intro h
            exact ⟨c', rfl, (inferReturnType_iff hname hmodule ret).1 h⟩
          · rintro ⟨c'', hc'', h⟩
            obtain rfl := Option.some.inj hc''
            exact (inferReturnType_iff hname hmodule ret).2 h
        | localVar sid | globalVar sid | constant v => rfl

/-- Every call node of an expression comes from a call in it, and stores the return type that the
procedure of that call declares. -/
def CallsTyped (b : HirBuilder) (e : Expr) : Prop :=
  ∀ node ∈ callNodes (b.lowerExpr e), b.FromCalls (exprCalls e) node ∧
    ∀ c ∈ exprCalls e, node = b.lowerExpr c.expr →
      ∀ ret, b.declaredReturn c.desig = some ret → b.SameType node.ty ret

end HirBuilder

open HirBuilder

/-- **Types of calls.** The call nodes of a lowered expression store the declared return types if
and only if the lookups that decide them agree. -/
theorem callsTyped_iff (b : HirBuilder) (e : Expr) :
    b.CallsTyped e ↔ ∀ c ∈ exprCalls e, b.lowerExpr c.expr ∈ callNodes (b.lowerExpr e) →
      ∀ ret, b.declaredReturn c.desig = some ret → b.CallTyped c.desig ret := by
  constructor
  · intro h c hc hnode ret hret
    have htyped := (h _ hnode).2 c hc rfl ret hret
    exact (lowerExpr_call_iff (callNodes_call _ _ hnode) ret).1 htyped
  · intro h node hnode
    refine ⟨b.lowerExpr_calls e node hnode, ?_⟩
    rintro c hc rfl ret hret
    exact (lowerExpr_call_iff (callNodes_call _ _ hnode) ret).2 (h c hc hnode ret hret)

/-- A function of a module that returns a type. -/
def areaIn (moduleName : Option String) (ret : TypeId) : Symbol where
  name := "Area"
  kind := .procedure [] (some ret) false
  typ := tyVoid
  exported := true
  moduleName := moduleName
  isVarParam := false
  isOpenArray := false

/-- The symbol of a loaded module. -/
def loadedModule (name : String) (scopeId : Nat) : String × Symbol :=
  (name, ⟨name, .modul scopeId, tyVoid, true, none, false, false⟩)

/-- The symbol table of a program that imports `Area` from `Shapes`, after another module that
exports an `Area` too. -/
def twoAreas : SymbolTable where
  scopes :=
    [⟨[loadedModule "Regions" 1, loadedModule "Shapes" 2, loadedModule "Main" 3], none, ""⟩,
      ⟨[("Area", areaIn none tyInteger)], some 0, "Regions"⟩,
      ⟨[("Area", areaIn none tyReal)], some 0, "Shapes"⟩,
      ⟨[("Area", areaIn (some "Shapes") tyReal)], some 0, "Main"⟩]
  parent_lt := by
    intro id s hs p hp
    match id, hs with
    | 0, hs =>
      obtain rfl := Option.some.inj hs
      cases hp
    | 1, hs | 2, hs | 3, hs =>
      obtain rfl := Option.some.inj hs
      obtain rfl := Option.some.inj hp
      decide

/-- The builder in the body of that program. -/
def mainBuilder : HirBuilder where
  types := ⟨[]⟩
  symtab := twoAreas
  moduleName := "Main"
  foreignModules := []
  importAliasMap := []
  importedModules := []
  varTypes := []
  localNames := []
  withStack := []
  inProcedure := false
  currentScope := some 3
  isStdlibModule _ := false
  isNativeStdlib _ := false
  mapStdlibCall _ _ := none

/-- The call `Area()`. -/
def callArea : Call := ⟨.plain "Area" SourceLoc.none, [], SourceLoc.none⟩

theorem not_callsTyped : ¬ ∀ (b : HirBuilder) (e : Expr), b.CallsTyped e := by
  intro h
  have hnode : mainBuilder.lowerExpr callArea.expr ∈
      callNodes (mainBuilder.lowerExpr callArea.expr) := isCallNode_self rfl
  have htyped := (h mainBuilder callArea.expr _ hnode).2 callArea ?_ rfl tyReal rfl
  · have hne : mainBuilder.resolveAlias (mainBuilder.lowerExpr callArea.expr).ty ≠
        mainBuilder.resolveAlias tyReal := by decide
    exact hne htyped
  · rw [Call.expr, exprCalls]
    exact mem_cons_self

end Mx.HirBuild

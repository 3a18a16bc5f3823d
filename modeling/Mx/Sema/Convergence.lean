import Mx.Sema.Constants

/-!
# When two rounds are enough

After the first round a constant has its value if no reference in its whole tree of references goes
forward. After the second round every constant has its value if forward references lead to such
constants only.
-/

namespace Mx.Sema

open Ast List

section

variable {δ : Type}

/-- The expression of a constant and the declarations behind it. -/
def constAt : List (Declaration δ) → String → Option (Expr × List (Declaration δ))
  | [], _ => none
  | .const name e :: ds, n => if n = name then some (e, ds) else constAt ds n
  | .other _ :: ds, n => constAt ds n

/-- No reference in the tree of references of a constant goes forward. -/
inductive Early (touches : δ → List String) (decls : List (Declaration δ)) : String → Prop where
  | mk {name : String} {e : Expr} {behind : List (Declaration δ)}
      (hat : constAt decls name = some (e, behind))
      (hback : ∀ m ∈ mentions e, m.name ∉ name :: declared touches behind)
      (hearly : ∀ n, .constant n ∈ mentions e → n ∈ constNames decls → Early touches decls n) :
      Early touches decls name

/-- Forward references lead to constants whose own references all go back. -/
def ForwardOnce (touches : δ → List String) (decls : List (Declaration δ)) : Prop :=
  ∀ name e behind, constAt decls name = some (e, behind) →
    ∀ n, .constant n ∈ mentions e → n ∈ name :: constNames behind → Early touches decls n

/-- A step of the analysis leaves the current scope and the constants of the block in it alone. -/
structure Keeps (names : List String) (s s' : SemanticAnalyzer) : Prop where
  currentScope : s'.currentScope = s.currentScope
  live : s.currentScope < s.symtab.scopes.length → s'.currentScope < s'.symtab.scopes.length
  direct : ∀ n ∈ names, s'.direct n = s.direct n

/-- Declarations of other kinds leave the constants of the block alone and change the reading of
the names they declare only; the analysis of an expression changes no reading. -/
structure Frame (A : Analyses δ) (touches : δ → List String) (decls : List (Declaration δ)) :
    Prop where
  placeholder : ∀ d, .other d ∈ decls → ∀ s, Keeps (constNames decls) s (A.placeholder d s)
  declaration : ∀ d, .other d ∈ decls → ∀ s, Keeps (constNames decls) s (A.declaration d s)
  declarationRead : ∀ d, .other d ∈ decls → ∀ s m, m.name ∉ touches d →
    (A.declaration d s).read m = s.read m
  expr : ∀ e s, Keeps (constNames decls) s (A.expr e s).1
  exprRead : ∀ e s m, (A.expr e s).1.read m = s.read m

/-- The current scope has no local symbol of the name yet. -/
def Definable (s : SemanticAnalyzer) (name : String) : Prop :=
  ∀ sym, s.direct name = some sym → sym.moduleName ≠ none

/-- The current scope has a constant of the name, with its value if the constant is early. -/
def Settling (touches : δ → List String) (decls : List (Declaration δ))
    (sol : String → ConstValue) (s : SemanticAnalyzer) (name : String) : Prop :=
  ∃ v, (s.direct name).map Symbol.kind = some (.constant v) ∧
    (Early touches decls name → v = sol name)

variable {s : SemanticAnalyzer} {name : String}

theorem Keeps.trans {names : List String} {s' s'' : SemanticAnalyzer} (h : Keeps names s s')
    (h' : Keeps names s' s'') : Keeps names s s'' where
  currentScope := h'.currentScope.trans h.currentScope
  live hlive := h'.live (h.live hlive)
  direct n hn := (h'.direct n hn).trans (h.direct n hn)

/-! ## Definitions -/

/-- Where the name is free, its definition is there afterwards and nothing else has changed. -/
theorem defineSym_spec {v : ConstValue} {typ : TypeId} (hfree : Definable s name) :
    ∃ sym, sym.kind = .constant v ∧ s.defineSym (constSymbol name v typ) =
      { s with symtab := s.symtab.insert s.currentScope name sym } := by
  rw [SemanticAnalyzer.defineSym, SymbolTable.define]
  cases hdirect : s.symtab.lookupInScopeDirect s.currentScope name with
  | none =>
    refine ⟨constSymbol name v typ, rfl, ?_⟩
    simp [constSymbol, hdirect]
  | some existing =>
    have himported := hfree existing hdirect
    refine ⟨{ constSymbol name v typ with exported := (existing.exported && !false) || false },
      rfl, ?_⟩
    simp [constSymbol, hdirect, himported]

/-- The scope after an insertion. -/
theorem direct_insert (hlive : s.currentScope < s.symtab.scopes.length)
    (name n : String) (sym : Symbol) :
    ({ s with symtab := s.symtab.insert s.currentScope name sym } : SemanticAnalyzer).direct n =
      if n = name then some sym else s.direct n :=
  SymbolTable.lookupInScopeDirect_insert hlive name n sym

theorem length_insert (tab : SymbolTable) (id : Nat) (name : String) (sym : Symbol) :
    (tab.insert id name sym).scopes.length = tab.scopes.length :=
  length_modify _ _ _

/-- A constant of the scope with its new value. -/
theorem setConstant_spec {v w : ConstValue}
    (h : (s.direct name).map Symbol.kind = some (.constant v)) :
    ∃ sym, sym.kind = .constant w ∧ s.setConstant name w =
      { s with symtab := s.symtab.insert s.currentScope name sym } := by
  obtain ⟨sym, hsym, -⟩ := Option.map_eq_some_iff.1 h
  refine ⟨{ sym with kind := .constant w }, rfl, ?_⟩
  rw [SemanticAnalyzer.setConstant, hsym]

variable {A : Analyses δ} {touches : δ → List String} {decls : List (Declaration δ)}
  {sol : String → ConstValue}

example : constNames ([] : List (Declaration δ)) = [] ∧ declared touches [] = [] ∧
    constAt ([] : List (Declaration δ)) name = none := by
  simp only [constNames, declared, constAt, and_self]

theorem constNames_append (pre ds : List (Declaration δ)) :
    constNames (pre ++ ds) = constNames pre ++ constNames ds := by
  induction pre with
  | nil => rfl
  | cons d pre ih => cases d <;> simp [constNames, ih]

theorem constAt_append {pre : List (Declaration δ)} {e : Expr}
    {ds : List (Declaration δ)} (h : name ∉ constNames pre) :
    constAt (pre ++ .const name e :: ds) name = some (e, ds) := by
  induction pre with
  | nil => simp [constAt]
  | cons d pre ih =>
    cases d with
    | const n e' =>
      simp only [constNames, mem_cons, not_or] at h
      rw [cons_append, constAt, if_neg h.1, ih h.2]
    | other d => exact ih h

/-- Names with distinct declarations. -/
theorem notMem_of_nodup {pre ds : List (Declaration δ)} {e : Expr}
    (hnodup : (constNames (pre ++ .const name e :: ds)).Nodup) :
    name ∉ constNames pre ∧ name ∉ constNames ds := by
  rw [constNames_append, constNames] at hnodup
  obtain ⟨-, hrest, hdisj⟩ := nodup_append.1 hnodup
  constructor
  · intro hmem
    exact hdisj name hmem name mem_cons_self rfl
  · exact (nodup_cons.1 hrest).1

theorem constNames_subset_declared (ds : List (Declaration δ)) :
    ∀ n ∈ constNames ds, n ∈ declared touches ds := by
  induction ds with
  | nil => simp [constNames]
  | cons d ds ih =>
    cases d with
    | const name e =>
      intro n hn
      rcases mem_cons.1 hn with rfl | hn
      · exact mem_cons_self
      · exact mem_cons_of_mem _ (ih n hn)
    | other d =>
      intro n hn
      exact mem_append_right _ (ih n hn)

/-! ## The first round -/

/-- A declared constant: the analyzer it is evaluated in and the one it leads to. -/
theorem analyzeDeclaration_const {e : Expr} {s' : SemanticAnalyzer} (hframe : Frame A touches decls)
    (hname : name ∈ constNames decls) (hfree : Definable s name)
    (h : analyzeDeclaration A (.const name e) s = some s') :
    ∃ v sym, (A.expr e s).1.evalConstExpr e = some v ∧ sym.kind = .constant v ∧
      s' = { (A.expr e s).1 with
        symtab := (A.expr e s).1.symtab.insert (A.expr e s).1.currentScope name sym } := by
  rw [analyzeDeclaration] at h
  obtain ⟨v, hv, rfl⟩ := Option.map_eq_some_iff.1 h
  have hfree' : Definable (A.expr e s).1 name := by
    intro sym hsym
    rw [(hframe.expr e s).direct name hname] at hsym
    exact hfree sym hsym
  obtain ⟨sym, hkind, hdef⟩ := @defineSym_spec _ _ v (A.expr e s).2 hfree'
  exact ⟨v, sym, hv, hkind, hdef⟩

/-- What the rest of the block does not declare is read as before it. -/
theorem read_analyzeDeclarations (hframe : Frame A touches decls) :
    ∀ (ds pre : List (Declaration δ)) (s s₁ : SemanticAnalyzer), decls = pre ++ ds →
      s.currentScope < s.symtab.scopes.length → (constNames decls).Nodup →
      (∀ n ∈ constNames ds, Definable s n) →
      analyzeDeclarations A ds s = some s₁ →
      ∀ m, m.name ∉ declared touches ds → s₁.read m = s.read m := by
  intro ds
  induction ds with
  | nil =>
    intro pre s s₁ _ _ _ _ hrun m _
    cases hrun
    rfl
  | cons d ds ih =>
    intro pre s s₁ hdecls hlive hnodup hfree hrun m hm
    obtain ⟨s', hstep, hrun⟩ := Option.bind_eq_some_iff.1 hrun
    have hdecls' : decls = (pre ++ [d]) ++ ds := by rw [hdecls, append_assoc]; rfl
    cases d with
    | const name e =>
      have hname : name ∈ constNames decls := by
        rw [hdecls, constNames_append]
        exact mem_append_right _ mem_cons_self
      obtain ⟨v, sym, hv, hkind, rfl⟩ := analyzeDeclaration_const hframe hname
        (hfree name mem_cons_self) hstep
      have hlive' := (hframe.expr e s).live hlive
      rw [declared, mem_cons, not_or] at hm
      rw [ih (pre ++ [.const name e]) _ s₁ hdecls' (by rw [length_insert]; exact hlive') hnodup ?_
        hrun m hm.2, SemanticAnalyzer.read_insert hm.1, hframe.exprRead]
      intro n hn sym' hsym'
      have hne : n ≠ name := by
        rintro rfl
        exact (notMem_of_nodup (hdecls ▸ hnodup)).2 hn
      have hmem : n ∈ constNames decls := by
        rw [hdecls, constNames_append]
        exact mem_append_right _ (mem_cons_of_mem _ hn)
      rw [direct_insert hlive', if_neg hne, (hframe.expr e s).direct n hmem] at hsym'
      exact hfree n (mem_cons_of_mem _ hn) sym' hsym'
    | other d =>
      cases hstep
      have hd : .other d ∈ decls := by rw [hdecls]; simp
      have hkeeps := hframe.declaration d hd s
      rw [declared, mem_append, not_or] at hm
      rw [ih (pre ++ [.other d]) _ s₁ hdecls' (hkeeps.live hlive) hnodup ?_ hrun m hm.2,
        hframe.declarationRead d hd s m hm.1]
      intro n hn sym hsym
      have hmem : n ∈ constNames decls := by
        rw [hdecls, constNames_append]
        exact mem_append_right _ hn
      rw [hkeeps.direct n hmem] at hsym
      exact hfree n hn sym hsym

/-- The first round leaves every constant of the block in the scope, an early one with its
value. -/
theorem settling_analyzeDeclarations (hframe : Frame A touches decls)
    (hnodup : (constNames decls).Nodup) :
    ∀ (ds pre : List (Declaration δ)) (s s₁ : SemanticAnalyzer), decls = pre ++ ds →
      s.currentScope < s.symtab.scopes.length → Solves decls s₁ sol →
      (∀ n ∈ constNames pre, Settling touches decls sol s n) →
      (∀ n ∈ constNames ds, Definable s n) →
      analyzeDeclarations A ds s = some s₁ →
      s₁.currentScope < s₁.symtab.scopes.length ∧
        ∀ n ∈ constNames decls, Settling touches decls sol s₁ n := by
  intro ds
  induction ds with
  | nil =>
    intro pre s s₁ hdecls hlive _ hsettling _ hrun
    cases hrun
    rw [append_nil] at hdecls
    exact ⟨hlive, hdecls ▸ hsettling⟩
  | cons d ds ih =>
    intro pre s s₁ hdecls hlive hsol hsettling hfree hrun
    have hdecls' : decls = (pre ++ [d]) ++ ds := by rw [hdecls, append_assoc]; rfl
    have hmemds : ∀ n, n ∈ constNames (d :: ds) → n ∈ constNames decls := by
      intro n hn
      rw [hdecls, constNames_append]
      exact mem_append_right _ hn
    have hmempre : ∀ n, n ∈ constNames pre → n ∈ constNames decls := by
      intro n hn
      rw [hdecls, constNames_append]
      exact mem_append_left _ hn
    have hreads := read_analyzeDeclarations hframe (d :: ds) pre s s₁ hdecls hlive hnodup hfree hrun
    obtain ⟨s', hstep, hrun⟩ := Option.bind_eq_some_iff.1 hrun
    cases d with
    | const name e =>
      obtain ⟨hpre, hds⟩ := notMem_of_nodup (hdecls ▸ hnodup)
      obtain ⟨v, sym, hv, hkind, rfl⟩ := analyzeDeclaration_const hframe
        (hmemds name mem_cons_self) (hfree name mem_cons_self) hstep
      have hlive' := (hframe.expr e s).live hlive
      -- An early constant reads what it reads at the end.
      have hvalue : Early touches decls name → v = sol name := by
        rintro ⟨hat, hback, hearly⟩
        cases (constAt_append hpre).symm.trans (hdecls ▸ hat)
        apply Option.some.inj
        rw [← hv, evalConstExpr_eq_evalWith, ← hsol name e (by rw [hdecls]; simp)]
        apply evalWith_congr
        intro m hm
        rw [hframe.exprRead]
        have hread := hreads m (hback m hm)
        cases m with
        | size n => exact hread.symm
        | constant n =>
          by_cases hn : n ∈ constNames decls
          · rw [settledRead, if_pos hn]
            have hnpre : n ∈ constNames pre := by
              have hn' := hn
              rw [hdecls, constNames_append, constNames] at hn'
              rcases mem_append.1 hn' with hn' | hn'
              · exact hn'
              · exfalso
                apply hback _ hm
                rcases mem_cons.1 hn' with rfl | hn'
                · exact mem_cons_self
                · exact mem_cons_of_mem _ (constNames_subset_declared ds n hn')
            obtain ⟨w, hw, hsolw⟩ := hsettling n hnpre
            rw [SemanticAnalyzer.read, SemanticAnalyzer.constNamed_of_direct hw]
            exact hsolw (hearly n hm hn)
          · rw [settledRead, if_neg hn]
            exact hread.symm
      apply ih (pre ++ [.const name e]) _ s₁ hdecls' (by rw [length_insert]; exact hlive') hsol ?_
        ?_ hrun
      · intro n hn
        rw [constNames_append] at hn
        rcases mem_append.1 hn with hfront | hlast
        · have hne : n ≠ name := by
            rintro rfl
            exact hpre hfront
          obtain ⟨w, hw, hsolw⟩ := hsettling n hfront
          refine ⟨w, ?_, hsolw⟩
          rw [direct_insert hlive', if_neg hne, (hframe.expr e s).direct n (hmempre n hfront)]
          exact hw
        · cases mem_singleton.1 hlast
          refine ⟨v, ?_, hvalue⟩
          rw [direct_insert hlive', if_pos rfl, Option.map_some, hkind]
      · intro n hn sym' hsym'
        have hne : n ≠ name := by
          rintro rfl
          exact hds hn
        rw [direct_insert hlive', if_neg hne,
          (hframe.expr e s).direct n (hmemds n (mem_cons_of_mem _ hn))] at hsym'
        exact hfree n (mem_cons_of_mem _ hn) sym' hsym'
    | other d =>
      cases hstep
      have hkeeps := hframe.declaration d (by rw [hdecls]; simp) s
      apply ih (pre ++ [.other d]) _ s₁ hdecls' (hkeeps.live hlive) hsol ?_ ?_ hrun
      · intro n hn
        rw [constNames_append] at hn
        have hn : n ∈ constNames pre := by simpa [constNames] using hn
        rw [Settling, hkeeps.direct n (hmempre n hn)]
        exact hsettling n hn
      · intro n hn sym hsym
        rw [hkeeps.direct n (hmemds n hn)] at hsym
        exact hfree n hn sym hsym

/-! ## The second round -/

/-- The second round gives every constant its value, where forward references lead to early
constants. -/
theorem settled_reevaluate {s₁ : SemanticAnalyzer} (hnodup : (constNames decls).Nodup)
    (hsol : Solves decls s₁ sol) (honce : ForwardOnce touches decls) :
    ∀ (ds pre : List (Declaration δ)) (t : SemanticAnalyzer), decls = pre ++ ds →
      t.currentScope < t.symtab.scopes.length →
      (∀ m, m.name ∉ constNames decls → t.read m = s₁.read m) →
      (∀ n, t.sizeNamed n = s₁.sizeNamed n) →
      (∀ n ∈ constNames pre, (t.direct n).map Symbol.kind = some (.constant (sol n))) →
      (∀ n ∈ constNames ds, Settling touches decls sol t n) →
      ∃ s₂, reevaluate ds t = some s₂ ∧
        ∀ n ∈ constNames decls, (s₂.direct n).map Symbol.kind = some (.constant (sol n)) := by
  intro ds
  induction ds with
  | nil =>
    intro pre t hdecls _ _ _ hpre _
    rw [append_nil] at hdecls
    exact ⟨t, rfl, hdecls ▸ hpre⟩
  | cons d ds ih =>
    intro pre t hdecls hlive hread hsize hpre hsettling
    have hdecls' : decls = (pre ++ [d]) ++ ds := by rw [hdecls, append_assoc]; rfl
    cases d with
    | const name e =>
      obtain ⟨hnpre, hnds⟩ := notMem_of_nodup (hdecls ▸ hnodup)
      have hname : name ∈ constNames decls := by
        rw [hdecls, constNames_append]
        exact mem_append_right _ mem_cons_self
      have hat : constAt decls name = some (e, ds) := by rw [hdecls]; exact constAt_append hnpre
      have hvalue : t.evalConstExpr e = some (sol name) := by
        rw [evalConstExpr_eq_evalWith, ← hsol name e (by rw [hdecls]; simp)]
        apply evalWith_congr
        intro m hm
        cases m with
        | size n => exact congrArg ConstValue.integer (hsize n)
        | constant n =>
          by_cases hn : n ∈ constNames decls
          · rw [settledRead, if_pos hn, SemanticAnalyzer.read]
            apply SemanticAnalyzer.constNamed_of_direct
            have hn' := hn
            rw [hdecls, constNames_append] at hn'
            rcases mem_append.1 hn' with hfront | hback
            · exact hpre n hfront
            · obtain ⟨w, hw, hsolw⟩ := hsettling n hback
              rw [hw, hsolw (honce name e ds hat n hm hback)]
          · rw [settledRead, if_neg hn]
            exact hread _ hn
      obtain ⟨v, hkind, -⟩ := hsettling name mem_cons_self
      obtain ⟨sym, hsym, hset⟩ := setConstant_spec (w := sol name) hkind
      rw [reevaluate, hvalue, Option.bind_some]
      apply ih (pre ++ [.const name e]) _ hdecls'
      · rw [hset, length_insert]
        exact hlive
      · intro m hm
        have hne : m.name ≠ name := by
          rintro rfl
          exact hm hname
        rw [hset, SemanticAnalyzer.read_insert hne, hread m hm]
      · intro n
        rw [SemanticAnalyzer.sizeNamed_setConstant hkind, hsize]
      · intro n hn
        rw [hset, direct_insert hlive]
        rw [constNames_append] at hn
        rcases mem_append.1 hn with hfront | hlast
        · have hne : n ≠ name := by
            rintro rfl
            exact hnpre hfront
          rw [if_neg hne]
          exact hpre n hfront
        · cases mem_singleton.1 hlast
          rw [if_pos rfl, Option.map_some, hsym]
      · intro n hn
        have hne : n ≠ name := by
          rintro rfl
          exact hnds hn
        rw [hset, Settling, direct_insert hlive, if_neg hne]
        exact hsettling n (mem_cons_of_mem _ hn)
    | other d =>
      apply ih (pre ++ [.other d]) t hdecls' hlive hread hsize
      · intro n hn
        rw [constNames_append] at hn
        exact hpre n (by simpa [constNames] using hn)
      · exact hsettling

/-- The placeholders leave the constants of the block alone. -/
theorem keeps_registerTypes (hframe : Frame A touches decls) :
    ∀ (ds : List (Declaration δ)), (∀ d ∈ ds, d ∈ decls) → ∀ s : SemanticAnalyzer,
      Keeps (constNames decls) s (registerTypes A ds s) := by
  intro ds
  induction ds with
  | nil =>
    intro _ s
    exact ⟨rfl, id, fun _ _ => rfl⟩
  | cons d ds ih =>
    intro hsub s
    have hrest : ∀ d ∈ ds, d ∈ decls := fun d hd => hsub d (mem_cons_of_mem _ hd)
    cases d with
    | const name e => exact ih hrest s
    | other d =>
      exact (hframe.placeholder d (hsub _ mem_cons_self) s).trans (ih hrest _)

/-- Where forward references lead to constants whose own references all go back, and no value of
the first round overflows, `analyze_block` leaves every constant with its value in dependency
order. -/
theorem constants_converge {s s₁ : SemanticAnalyzer} (hframe : Frame A touches decls)
    (hnodup : (constNames decls).Nodup) (hlive : s.currentScope < s.symtab.scopes.length)
    (hfree : ∀ n ∈ constNames decls, Definable s n)
    (hfirst : analyzeDeclarations A decls (registerTypes A decls s) = some s₁)
    (hsol : Solves decls s₁ sol) (honce : ForwardOnce touches decls) :
    ∃ s₂, analyzeBlock A decls s = some s₂ ∧
      ∀ n ∈ constNames decls, (s₂.direct n).map Symbol.kind = some (.constant (sol n)) := by
  have hkeeps := keeps_registerTypes hframe decls (fun _ hd => hd) s
  have hfree' : ∀ n ∈ constNames decls, Definable (registerTypes A decls s) n := by
    intro n hn sym hsym
    rw [hkeeps.direct n hn] at hsym
    exact hfree n hn sym hsym
  obtain ⟨hlive₁, hsettling⟩ := settling_analyzeDeclarations hframe hnodup decls [] _ s₁ rfl
    (hkeeps.live hlive) hsol nofun hfree' hfirst
  obtain ⟨s₂, hrun, hvalues⟩ := settled_reevaluate hnodup hsol honce decls [] s₁ rfl hlive₁
    (fun _ _ => rfl) (fun _ => rfl) nofun hsettling
  exact ⟨s₂, by rw [analyzeBlock, hfirst, Option.bind_some, hrun], hvalues⟩

end

/-! ## A chain of two -/

/-- Nothing but constants. -/
def onlyConstants : Analyses Empty := ⟨nofun, nofun, fun _ s => (s, tyInteger)⟩

/-- An empty scope. -/
def emptyScope : SemanticAnalyzer :=
  ⟨⟨[⟨[], none, "<global>"⟩], by
    intro id s hs p hp
    cases id with
    | zero =>
      cases hs
      exact nomatch hp
    | succ id => exact nomatch hs⟩, 0, ⟨[]⟩⟩

/-- A reference to a name. -/
def nameExpr (name : String) : Expr := ⟨.designator (.plain name .cfg), .cfg⟩

theorem frame_onlyConstants (decls : List (Declaration Empty)) :
    Frame onlyConstants nofun decls where
  placeholder := nofun
  declaration := nofun
  declarationRead := nofun
  expr _ _ := ⟨rfl, id, fun _ _ => rfl⟩
  exprRead _ _ _ := rfl

/-- `CONST A = B; B = 5`. -/
def chainOfOne : List (Declaration Empty) :=
  [.const "A" (nameExpr "B"), .const "B" ⟨.intLit 5, .cfg⟩]

/-- `CONST A = B; B = C; C = 5`. -/
def chainOfTwo : List (Declaration Empty) :=
  [.const "A" (nameExpr "B"), .const "B" (nameExpr "C"), .const "C" ⟨.intLit 5, .cfg⟩]

theorem forwardOnce_chainOfOne : ForwardOnce nofun chainOfOne := by
  intro name e behind hat n hn hfwd
  simp only [chainOfOne, constAt] at hat
  split at hat
  next hA =>
    cases hat
    have hB : n = "B" := by simpa [nameExpr, mentions, Designator.plain] using hn
    rw [hB]
    have hempty : mentions ⟨.intLit 5, .cfg⟩ = [] := by simp [mentions]
    refine @Early.mk _ _ _ _ ⟨.intLit 5, .cfg⟩ [] rfl ?_ ?_
    · rw [hempty]
      exact fun _ hm => absurd hm not_mem_nil
    · rw [hempty]
      exact fun _ hm => absurd hm not_mem_nil
  next =>
    split at hat
    next =>
      cases hat
      simp [mentions] at hn
    next => exact absurd hat.symm (Option.some_ne_none _)

/-- A chain of one converges. -/
theorem constants_converge_chainOfOne :
    ∃ s₂, analyzeBlock onlyConstants chainOfOne emptyScope = some s₂ ∧
      (s₂.direct "A").map Symbol.kind = some (.constant (.integer 5)) := by
  obtain ⟨s₁, hs₁⟩ : ∃ s₁, analyzeDeclarations onlyConstants chainOfOne
      (registerTypes onlyConstants chainOfOne emptyScope) = some s₁ :=
    Option.isSome_iff_exists.1 (by decide +kernel)
  have hsol : Solves chainOfOne s₁ fun _ => .integer 5 := by
    intro name e he
    rcases mem_pair.1 he with he | he
    · cases he
      rfl
    · cases he
      rfl
  obtain ⟨s₂, hrun, hvalues⟩ := constants_converge (frame_onlyConstants chainOfOne) (by decide)
    (by decide) (by
      intro n _ sym hsym
      exact nomatch hsym) hs₁ hsol forwardOnce_chainOfOne
  exact ⟨s₂, hrun, hvalues "A" (by decide)⟩

/-- A chain of two leaves its first constant at zero. -/
theorem not_constants_converge :
    ¬ ∀ (decls : List (Declaration Empty)) (s s₁ : SemanticAnalyzer) (sol : String → ConstValue),
      (constNames decls).Nodup → s.currentScope < s.symtab.scopes.length →
      (∀ n ∈ constNames decls, Definable s n) → Acyclic decls →
      analyzeDeclarations onlyConstants decls (registerTypes onlyConstants decls s) = some s₁ →
      Solves decls s₁ sol →
      ∃ s₂, analyzeBlock onlyConstants decls s = some s₂ ∧
        ∀ n ∈ constNames decls, (s₂.direct n).map Symbol.kind = some (.constant (sol n)) := by
  intro h
  obtain ⟨s₁, hs₁⟩ : ∃ s₁, analyzeDeclarations onlyConstants chainOfTwo
      (registerTypes onlyConstants chainOfTwo emptyScope) = some s₁ :=
    Option.isSome_iff_exists.1 (by decide +kernel)
  have hacyclic : Acyclic chainOfTwo := by
    refine ⟨fun n => if n = "A" then 2 else if n = "B" then 1 else 0, ?_⟩
    intro name e he n hn _
    simp only [chainOfTwo, mem_cons, not_mem_nil, or_false] at he
    rcases he with he | he | he <;> cases he
    · simp only [nameExpr, mentions, Designator.plain, mem_singleton, Mention.constant.injEq] at hn
      subst hn
      decide
    · simp only [nameExpr, mentions, Designator.plain, mem_singleton, Mention.constant.injEq] at hn
      subst hn
      decide
    · simp [mentions] at hn
  have hsol : Solves chainOfTwo s₁ fun _ => .integer 5 := by
    intro name e he
    simp only [chainOfTwo, mem_cons, not_mem_nil, or_false] at he
    rcases he with he | he | he <;> cases he <;> rfl
  obtain ⟨s₂, hrun, hvalues⟩ := h chainOfTwo emptyScope s₁ _ (by decide) (by decide) (by
    intro n _ sym hsym
    exact absurd hsym.symm (Option.some_ne_none _)) hacyclic hs₁ hsol
  have hzero : ((analyzeBlock onlyConstants chainOfTwo emptyScope).bind fun s =>
      (s.direct "A").map Symbol.kind) = some (.constant (.integer 0)) := by decide +kernel
  rw [hrun, Option.bind_some, hvalues "A" (by decide)] at hzero
  exact absurd hzero (by decide)

example : checked 5 = some 5 := by decide +kernel

end Mx.Sema

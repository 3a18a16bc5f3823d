import Mx.HirBuild.CaptureLists
import Mx.HirBuild.OwnDecl

/-!
# Nested procedures capture what they use

The captures of both backends for every nested procedure of a module. `build_nested_recursive`
collects with `collect_hir_var_refs`, which skips assignment targets and whole kinds of statements
and expressions; `gen_proc_by_name` collects the body of the procedure with the other collector, but
what it forwards to the procedures nested in that with the first one, whoever declares it.
-/

namespace Mx.HirBuild

open List

/-- The captures of a nested procedure are right: every variable around it that it or a procedure
in it mentions is captured with its type, and the list of the C backend has no name of the
procedure itself and none from outside the procedures around it. -/
structure CapturesRight (list : List String) (captures : List CapturedVar)
    (chain : List HirProcDecl) (np : HirProcDecl) : Prop where
  captured : ∀ v ty, enclosingVar chain v = some ty → np.MentionsFree v →
    ⟨v, ty, false⟩ ∈ captures ∧ v ∈ list
  not_own : ∀ v ∈ np.ownNames, v ∉ list
  not_global : ∀ v, (∀ q ∈ chain, v ∉ q.ownNames ∧ v ∉ q.highNames) → v ∉ list

/-- The captures of all nested procedures are right. -/
def CapturesAllRight (m : HirModule) (c : EmitContext) : Prop :=
  ∃ n, ∀ fuel ≥ n, ∃ out, genProcs m c fuel = some out ∧
    ∀ chain p np, PathTo m (p :: chain) np →
      (∃ e ∈ out, e.path = np.name :: (p :: chain).map HirProcDecl.name) ∧
      ∀ e ∈ out, e.path = np.name :: (p :: chain).map HirProcDecl.name →
        CapturesRight (e.envAccess.getD []) (nestedCaptures c.lookupAny np) (p :: chain) np

/-- A name stands for the bound of an open array that a nested procedure captures. -/
def HighOfCaptured (m : HirModule) (c : EmitContext) (chain : List HirProcDecl)
    (p np : HirProcDecl) (v : String) : Prop :=
  ∃ w, (ownNestedParts np).Uses c w ∧ InScope m c chain p w ∧ v = w ++ "_high"

/-- The collectors reach what has to be captured, and nothing else. -/
structure CapturesReached (m : HirModule) (c : EmitContext) (chain : List HirProcDecl)
    (p np : HirProcDecl) : Prop where
  /-- Every mentioned variable is read where `collect_hir_var_refs` looks, and `lookup_any` finds
  its type. -/
  read : ∀ v ty, enclosingVar (p :: chain) v = some ty → np.MentionsFree v →
    np.ReadsFree v ∧ (c.lookupAny v).getD tyInteger = ty
  /-- It is in the scope around, and used where `collect_hir_refs_in_stmts` looks, or read in a
  nested procedure where `collect_hir_var_refs` looks. -/
  used : ∀ v ty, enclosingVar (p :: chain) v = some ty → np.MentionsFree v →
    InScope m c chain p v ∧ ((ownNestedParts np).Uses c v ∨ HighOfCaptured m c chain p np v ∨
      v ∈ nestedRefs np.nestedProcs)
  /-- No variable of the procedure that a procedure in it reads has the name of one around it. -/
  apart : ∀ v ∈ np.ownNames, InScope m c chain p v →
    ¬ HighOfCaptured m c chain p np v ∧ v ∉ nestedRefs np.nestedProcs
  /-- No variable found for the last segment of a name is taken for one of a procedure around. -/
  around : ∀ v, (∀ q ∈ p :: chain, v ∉ q.ownNames ∧ v ∉ q.highNames) → InScope m c chain p v →
    ¬ (ownNestedParts np).Uses c v ∧ ¬ HighOfCaptured m c chain p np v ∧
      v ∉ nestedRefs np.nestedProcs

variable {np p : HirProcDecl} {chain : List HirProcDecl}

theorem not_uses_own {c : EmitContext} {v : String} (h : v ∈ np.ownNames) :
    ¬ (ownNestedParts np).Uses c v :=
  fun huses => huses.2.1 (mem_append_left _ h)

section Module

variable {m : HirModule} {c : EmitContext} (hd : m.DistinctNames) (hb : m.Built)
  (hc : c.moduleName = m.name)

include hd hb hc

/-- The captures of one nested procedure are right if and only if the collectors reach them. -/
theorem capturesRight_iff (hpath : PathTo m (p :: chain) np) :
    CapturesRight (captureList m c (p :: chain) np) (nestedCaptures c.lookupAny np) (p :: chain)
      np ↔ CapturesReached m c chain p np := by
  have hnodup := childNames_nodup hd (hpath.mem_preorder p (by simp))
  have hlist : ∀ v, v ∈ captureList m c (p :: chain) np ↔ InScope m c chain p v ∧
      ((ownNestedParts np).Uses c v ∨ HighOfCaptured m c chain p np v ∨
        v ∈ nestedRefs np.nestedProcs) := by
    intro v
    rw [mem_captureList hnodup hpath.mem_nested]
    simp only [contains_scopeAt_iff hd hb hc hpath.parent, HighOfCaptured]
  have hcaptures : ∀ v ty, (⟨v, ty, false⟩ : CapturedVar) ∈ nestedCaptures c.lookupAny np ↔
      np.ReadsFree v ∧ (c.lookupAny v).getD tyInteger = ty := by
    intro v ty
    rw [mem_nestedCaptures p.nestedProcs np hpath.mem_nested, foundVar, CapturedVar.mk.injEq]
    constructor
    · rintro ⟨⟨-, hty, -⟩, hreads⟩
      exact ⟨hreads, hty.symm⟩
    · rintro ⟨hreads, hty⟩
      exact ⟨⟨rfl, hty.symm, rfl⟩, hreads⟩
  constructor
  · intro h
    constructor
    · intro v ty hv hmention
      exact (hcaptures v ty).mp (h.captured v ty hv hmention).1
    · intro v ty hv hmention
      exact (hlist v).mp (h.captured v ty hv hmention).2
    · intro v hv hscope
      have hnot := h.not_own v hv
      rw [hlist, not_and] at hnot
      have hnot := hnot hscope
      rw [not_or, not_or] at hnot
      exact hnot.2
    · intro v hv hscope
      have hnot := h.not_global v hv
      rw [hlist, not_and] at hnot
      have hnot := hnot hscope
      rwa [not_or, not_or] at hnot
  · intro h
    constructor
    · intro v ty hv hmention
      exact ⟨(hcaptures v ty).mpr (h.read v ty hv hmention),
        (hlist v).mpr (h.used v ty hv hmention)⟩
    · intro v hv hmem
      obtain ⟨hscope, huses | hhigh | hrefs⟩ := (hlist v).mp hmem
      · exact not_uses_own hv huses
      · exact (h.apart v hv hscope).1 hhigh
      · exact (h.apart v hv hscope).2 hrefs
    · intro v hv hmem
      obtain ⟨hscope, hreached⟩ := (hlist v).mp hmem
      obtain ⟨huses, hhigh, hrefs⟩ := h.around v hv hscope
      obtain h | h | h := hreached
      · exact huses h
      · exact hhigh h
      · exact hrefs h

theorem capturesReached_of_allRight (h : CapturesAllRight m c)
    (hpath : PathTo m (p :: chain) np) : CapturesReached m c chain p np := by
  obtain ⟨n, hn⟩ := genProcs_eq_genTrees hd hb hc
  obtain ⟨n', hn'⟩ := h
  obtain ⟨out, hout, hright⟩ := hn' (max n n') (le_max_right _ _)
  have heq : out = genTrees m c (.found m c) :=
    Option.some.inj (hout.symm.trans (hn (max n n') (le_max_left _ _)))
  obtain ⟨⟨e, he, hepath⟩, hall⟩ := hright chain p np hpath
  have hlist := envAccess_of_path hd hpath (heq ▸ he) hepath
  have hcaptures := hall e he hepath
  rw [hlist] at hcaptures
  exact (capturesRight_iff hd hb hc hpath).mp hcaptures

theorem capturesAllRight_of_reached
    (h : ∀ chain p np, PathTo m (p :: chain) np → CapturesReached m c chain p np) :
    CapturesAllRight m c := by
  obtain ⟨n, hn⟩ := genProcs_eq_genTrees hd hb hc
  refine ⟨n, fun fuel hfuel => ⟨_, hn fuel hfuel, ?_⟩⟩
  intro chain p np hpath
  refine ⟨exists_emission_of_path hb hpath, ?_⟩
  intro e he hepath
  rw [envAccess_of_path hd hpath he hepath]
  exact (capturesRight_iff hd hb hc hpath).mpr (h chain p np hpath)

end Module

/-- The captures of all nested procedures are right if and only if the collectors reach what has
to be captured, and nothing else. -/
theorem capturesAllRight_iff {m : HirModule} {c : EmitContext} (hd : m.DistinctNames)
    (hb : m.Built) (hc : c.moduleName = m.name) :
    CapturesAllRight m c ↔
      ∀ chain p np, PathTo m (p :: chain) np → CapturesReached m c chain p np :=
  ⟨fun h _ _ _ hpath => capturesReached_of_allRight hd hb hc h hpath,
    capturesAllRight_of_reached hd hb hc⟩

/-- A place that is the variable `x`. -/
def placeX : Place :=
  ⟨.localVar ⟨"x", "x", none, tyInteger, false, false⟩, [], tyInteger, ⟨"", 0, 0⟩⟩

/-- `RETURN x`. -/
def returnX : HirStmt := ⟨.ret (some ⟨.place placeX, tyInteger, ⟨"", 0, 0⟩⟩), ⟨"", 0, 0⟩⟩

/-- `x := 1`. -/
def assignX : HirStmt :=
  ⟨.assign placeX ⟨.intLit 1, tyInteger, ⟨"", 0, 0⟩⟩, ⟨"", 0, 0⟩⟩

/-- A procedure `N` with one statement. -/
def procN (s : HirStmt) : HirProcDecl := { bareProc "N" [] [] with body := some [s] }

/-- A procedure `P` with a variable `x` and the procedure `N`. -/
def procP (s : HirStmt) : HirProcDecl :=
  { bareProc "P" [] [procN s] with locals := [.var "x" tyInteger] }

theorem built_procP (s : HirStmt) : (bareModule [procP s]).Built := by
  apply built_bareModule <;> simp [procP, procN, preorder, bareProc]

theorem distinctNames_procP (s : HirStmt) : (bareModule [procP s]).DistinctNames := by
  simp [HirModule.DistinctNames, bareModule, procP, procN, preorder, bareProc, HirProcDecl.name]

theorem pathTo_procN (s : HirStmt) : PathTo (bareModule [procP s]) [procP s] (procN s) :=
  .nested (.top (by simp [bareModule])) (by simp [procP, bareProc])

theorem preorder_procP (s : HirStmt) :
    preorder (bareModule [procP s]).procDecls = [procP s, procN s] := by
  simp [bareModule, preorder_cons, preorder, procP, procN, bareProc]

theorem eq_of_pathTo_procP {s : HirStmt} (h : PathTo (bareModule [procP s]) (p :: chain) np) :
    chain = [] ∧ p = procP s ∧ np = procN s := by
  have hparent : ∀ {chain : List HirProcDecl} {p np : HirProcDecl},
      PathTo (bareModule [procP s]) (p :: chain) np → p = procP s ∧ np = procN s := by
    intro chain p np h
    have hp := h.mem_preorder p (by simp)
    have hnp := h.mem_nested
    rw [preorder_procP] at hp
    simp only [mem_cons, not_mem_nil, or_false] at hp
    obtain rfl | rfl := hp
    · exact ⟨rfl, by simpa [procP, bareProc] using hnp⟩
    · exact absurd hnp (by simp [procN, bareProc])
  obtain ⟨rfl, rfl⟩ := hparent h
  refine ⟨?_, rfl, rfl⟩
  cases h with
  | nested hp _ =>
    cases hp with
    | top _ => rfl
    | nested hp hnested =>
      obtain ⟨-, heq⟩ := hparent (.nested hp hnested)
      have hnames := congrArg HirProcDecl.name heq
      simp [procP, procN, bareProc, HirProcDecl.name] at hnames

theorem enclosingVar_procP {s : HirStmt} {v : String} {ty : TypeId}
    (h : enclosingVar [procP s] v = some ty) : v = "x" ∧ ty = tyInteger := by
  have hvars : (procP s).vars = [("x", tyInteger)] := rfl
  rw [enclosingVar, enclosingVar, hvars, lookup_cons, lookup_nil] at h
  by_cases hv : v = "x"
  · subst hv
    split_ifs at h
    exact ⟨rfl, (Option.some.inj h).symm⟩
  · have hbeq : (v == "x") = false := by simpa using hv
    rw [hbeq] at h
    split_ifs at h

theorem inScope_procP {s : HirStmt} {v : String} :
    InScope (bareModule [procP s]) bareContext [] (procP s) v ↔ v = "x" := by
  simp [InScope, procP, bareProc, HirProcDecl.ownNames, HirProcDecl.highNames, localVars]

theorem capturesAllRight_returnX :
    CapturesAllRight (bareModule [procP returnX]) bareContext := by
  refine (capturesAllRight_iff (distinctNames_procP _) (built_procP _) rfl).mpr ?_
  intro chain p np hpath
  obtain ⟨rfl, rfl, rfl⟩ := eq_of_pathTo_procP hpath
  have hown : (procN returnX).ownNames = [] := rfl
  constructor
  · intro v ty hvar _
    obtain ⟨rfl, rfl⟩ := enclosingVar_procP hvar
    refine ⟨UsesFree.own (by simp [hown]) ?_, by simp [bareContext]⟩
    simp [procN, collectHirVarRefs, stmtVarRefs, returnX, placeX, exprVarRefs, baseVar,
      indexVarRefs]
  · intro v ty hvar _
    obtain ⟨rfl, rfl⟩ := enclosingVar_procP hvar
    refine ⟨inScope_procP.mpr rfl,
      .inl ⟨⟨[returnX], rfl, ?_⟩, ?_, rfl, by simp [bareContext], by simp [bareContext]⟩⟩
    · simp [collectHirRefs, stmtRefs, returnX, placeX, optionalExprRefs, exprRefs, placeRefs,
        baseName, indexRefs]
    · simp [ownNestedParts, procN, bareProc, HirProcDecl.name, localVars]
  · simp [hown]
  · intro v hv hscope
    obtain rfl := inScope_procP.mp hscope
    exact absurd (hv (procP returnX) (by simp)).1
      (by simp [procP, bareProc, HirProcDecl.ownNames, localVars])

/-- An assignment target is skipped. -/
theorem not_capturesAllRight_assignX :
    (bareModule [procP assignX]).Built ∧ (bareModule [procP assignX]).DistinctNames ∧
      ¬ CapturesAllRight (bareModule [procP assignX]) bareContext := by
  refine ⟨built_procP _, distinctNames_procP _, fun h => ?_⟩
  have hreached := capturesReached_of_allRight (distinctNames_procP _) (built_procP _) rfl h
    (pathTo_procN assignX)
  have hvar : enclosingVar [procP assignX] "x" = some tyInteger := by
    simp [enclosingVar, HirProcDecl.declared, procP, HirLocalDecl.name, HirProcDecl.vars,
      localVars, bareProc]
  have hmention : (procN assignX).MentionsFree "x" := by
    apply UsesFree.own
    · simp [HirProcDecl.declared, procN, bareProc, HirProcDecl.childNames]
    · simp [procN, bodyMentions, stmtMentions, assignX, placeMentions, placeX, baseVar]
  have hreads := (hreached.read "x" tyInteger hvar hmention).1
  obtain ⟨-, hread | ⟨np, hnp, -⟩⟩ := usesFree_iff.mp hreads
  · exact absurd hread
      (by simp [procN, collectHirVarRefs, stmtVarRefs, assignX, exprVarRefs])
  · exact absurd hnp (by simp [procN, bareProc])

end Mx.HirBuild

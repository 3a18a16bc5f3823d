import Mx.Core.Except
import Mx.HirBuild.GenOwn

/-!
# When the C backend emits procedures from their own declarations

A search for a bare name has one answer. So the emission by name is right if the names are apart,
and only if procedures of one name do not differ in what is searched.
-/

namespace Mx.HirBuild

open List

/-! ## Searches for a bare name -/

/-- The searches by bare name give every procedure its own signature, local declarations and
nested procedures. -/
def HirModule.SearchesOwn (m : HirModule) : Prop :=
  ∀ pd ∈ preorder m.procDecls, m.findNestedProcSig pd.name m.name = some pd.sig ∧
    m.findLocals m.name pd.name = some pd.locals ∧ m.findChildren m.name pd.name = pd.childNames

/-- Procedures of one name have the same signature, local declarations and nested procedures. -/
def HirModule.SameDataOfName (m : HirModule) : Prop :=
  ∀ p ∈ preorder m.procDecls, ∀ q ∈ preorder m.procDecls, p.name = q.name →
    p.sig = q.sig ∧ p.locals = q.locals ∧ p.childNames = q.childNames

section Searches

variable {m : HirModule} {pd : HirProcDecl} (hb : m.Built) (hpd : pd ∈ preorder m.procDecls)

include hb hpd

/-- The first steps of a search find something for every procedure of the module. -/
theorem top_or_nested_isSome {β : Type} (g : HirProcDecl → β) :
    ((m.procDecls.find? fun q => q.sig.name = pd.name ∧ q.sig.module = m.name).bind
        fun q => some (g q)).isSome ∨
      (firstNested (fun q => some (g q)) pd.name m.procDecls).isSome := by
  obtain htop | ⟨top, htop, hnested⟩ := mem_preorder_iff.mp hpd
  · obtain ⟨q, hq⟩ := Option.isSome_iff_exists.mp (top_complete (hb.module_eq pd hpd) htop)
    exact .inl (by rw [hq]; rfl)
  · exact .inr (firstNested_isSome_of_total g htop hnested)

theorem findNestedProcSig_found :
    ∃ q ∈ preorder m.procDecls, q.name = pd.name ∧
      m.findNestedProcSig pd.name m.name = some q.sig := by
  have hsome : (m.findNestedProcSig pd.name m.name).isSome := by
    unfold HirModule.findNestedProcSig
    simp only [Option.isSome_or, Bool.or_eq_true]
    obtain h | h := top_or_nested_isSome hb hpd HirProcDecl.sig
    · exact .inl h
    · exact .inr (.inr (.inl h))
  obtain ⟨sig, hsig⟩ := Option.isSome_iff_exists.mp hsome
  obtain ⟨q, hq, hname, heq⟩ := findNestedProcSig_sound hb hsig
  exact ⟨q, hq, hname, hsig.trans heq.symm⟩

theorem findLocals_found :
    ∃ q ∈ preorder m.procDecls, q.name = pd.name ∧
      m.findLocals m.name pd.name = some q.locals := by
  unfold HirModule.findLocals
  dsimp only
  rw [← Option.or_assoc]
  have hsome : (((m.procDecls.find? fun q => q.sig.name = pd.name ∧ q.sig.module = m.name).bind
      fun q => some q.locals).or
        (firstNested (fun q => some q.locals) pd.name m.procDecls)).isSome := by
    rw [Option.isSome_or, Bool.or_eq_true]
    exact top_or_nested_isSome hb hpd HirProcDecl.locals
  obtain ⟨locals, hlocals⟩ := Option.isSome_iff_exists.mp hsome
  have hfound : ∃ q ∈ preorder m.procDecls, q.name = pd.name ∧ some q.locals = some locals := by
    obtain h | ⟨-, h⟩ := Option.or_eq_some_iff.mp hlocals
    · exact top_found h
    · exact firstNested_found h
  obtain ⟨q, hq, hname, heq⟩ := hfound
  exact ⟨q, hq, hname, by rw [hlocals, heq, Option.some_or]⟩

omit hb in
theorem findChildren_found :
    ∃ q ∈ preorder m.procDecls, q.name = pd.name ∧
      m.findChildren m.name pd.name = q.childNames := by
  have hsome : ((preorder m.procDecls).find? fun q => q.name = pd.name).isSome := by
    rw [find?_isSome]
    exact ⟨pd, hpd, by simp⟩
  obtain ⟨q, hq⟩ := Option.isSome_iff_exists.mp hsome
  refine ⟨q, mem_of_find?_eq_some hq, by simpa using find?_some hq, ?_⟩
  rw [HirModule.findChildren, searchProcs_eq_find, hq]
  rfl

end Searches

/-- A search for a bare name has one answer, so it is right for all procedures of the name only if
they do not differ. -/
theorem searchesOwn_iff {m : HirModule} (hb : m.Built) : m.SearchesOwn ↔ m.SameDataOfName := by
  constructor
  · intro h p hp q hq hname
    obtain ⟨hsig, hlocals, hchildren⟩ := h p hp
    obtain ⟨hsig', hlocals', hchildren'⟩ := h q hq
    rw [hname] at hsig hlocals hchildren
    exact ⟨Option.some.inj (hsig.symm.trans hsig'), Option.some.inj (hlocals.symm.trans hlocals'),
      hchildren.symm.trans hchildren'⟩
  · intro h pd hpd
    obtain ⟨q, hq, hname, hsig⟩ := findNestedProcSig_found hb hpd
    obtain ⟨r, hr, hname', hlocals⟩ := findLocals_found hb hpd
    obtain ⟨t, ht, hname'', hchildren⟩ := findChildren_found hpd
    rw [hsig, hlocals, hchildren, (h q hq pd hpd hname).1, (h r hr pd hpd hname').2.1,
      (h t ht pd hpd hname'').2.2]
    exact ⟨rfl, rfl, rfl⟩

/-! ## What a correct emission needs -/

/-- The parts of an emitted function are those that the searches find for its name. -/
def FoundByName (m : HirModule) (module : String) (e : ProcEmission) : Prop :=
  ∃ name, e.path.head? = some name ∧ e.sig = m.findNestedProcSig name module ∧
    e.locals = m.findLocals module name ∧ e.children = m.findChildren module name

section FoundByName

variable {m : HirModule} {c : EmitContext}

/-- `gen_proc_by_name` writes every function from what it finds for a name. -/
theorem foundByName_of_genProcByName {fuel : Nat} : ∀ {st st' : GenState} {name : String}
    {out : List ProcEmission}, genProcByName m c fuel st name = some (st', out) →
    ∀ e ∈ out, FoundByName m c.moduleName e := by
  induction fuel with
  | zero => exact fun h => absurd h (by simp [genProcByName])
  | succ fuel ih =>
    intro st st' name out h
    rw [genProcByName] at h
    obtain ⟨⟨st₁, nested⟩, hfold, h⟩ := Option.bind_eq_some_iff.mp h
    obtain ⟨-, rfl⟩ := Prod.mk.inj (Option.some.inj h)
    have hnested : ∀ e ∈ nested, FoundByName m c.moduleName e := by
      refine Core.foldlM_some_induct (fun acc => ∀ e ∈ acc.2, FoundByName m c.moduleName e) hfold
        (by simp) ?_
      intro acc npName acc' hacc hstep
      rw [genNested] at hstep
      obtain ⟨⟨st₂, emitted⟩, hgen, hstep⟩ := Option.bind_eq_some_iff.mp hstep
      rw [← Option.some.inj hstep]
      intro e he
      obtain he | he := mem_append.mp he
      · exact hacc e he
      · exact ih hgen e he
    intro e he
    obtain he | he := mem_append.mp he
    · exact hnested e he
    · rw [mem_singleton.mp he]
      exact ⟨name, rfl, rfl, rfl, rfl⟩

theorem foundByName_of_genProcs {fuel : Nat} {out : List ProcEmission}
    (h : genProcs m c fuel = some out) : ∀ e ∈ out, FoundByName m c.moduleName e := by
  rw [genProcs] at h
  obtain ⟨⟨st, emitted⟩, hfold, h⟩ := Option.bind_eq_some_iff.mp h
  rw [← Option.some.inj h]
  refine Core.foldlM_some_induct (fun acc => ∀ e ∈ acc.2, FoundByName m c.moduleName e) hfold
    (by simp) ?_
  intro acc name acc' hacc hstep
  rw [genNext] at hstep
  obtain ⟨⟨st₂, emitted⟩, hgen, hstep⟩ := Option.bind_eq_some_iff.mp hstep
  rw [← Option.some.inj hstep]
  intro e he
  obtain he | he := mem_append.mp he
  · exact hacc e he
  · exact foundByName_of_genProcByName hgen e he

end FoundByName

/-- An emitted function has the parts of the procedure. -/
def ProcEmission.HasPartsOf (e : ProcEmission) (pd : HirProcDecl) : Prop :=
  e.path.head? = some pd.name ∧ e.sig = some pd.sig ∧ e.locals = some pd.locals ∧
    e.children = pd.childNames

/-- The emission by declaration has a function for every procedure. -/
theorem exists_mem_genOwns (c : EmitContext) (view : Outlook) : ∀ (pds : List HirProcDecl)
    (chain : List (String × ScopeParts)) (procName : String) (scope : NameMap String)
    (closures : Closures), ∀ pd ∈ preorder pds,
      ∃ e ∈ genOwns c view chain procName scope closures pds, e.HasPartsOf pd
  | [], _, _, _, _, pd, hpd => by simp [preorder] at hpd
  | ⟨sig, body, locals, nested, captures, cfg⟩ :: pds, chain, procName, scope, closures, pd,
    hpd => by
    have ihn := fun chain procName scope closures =>
      exists_mem_genOwns c view nested chain procName scope closures pd
    have ihs := exists_mem_genOwns c view pds chain procName scope closures pd
    rw [genOwns, genOwn]
    rw [preorder, mem_cons, mem_append] at hpd
    obtain rfl | hpd | hpd := hpd
    · exact ⟨_, mem_append_left _ (mem_append_right _ mem_cons_self),
        rfl, rfl, rfl, rfl⟩
    · obtain ⟨e, he, hparts⟩ := ihn _ _ _ _ hpd
      exact ⟨e, mem_append_left _ (mem_append_left _ he), hparts⟩
    · obtain ⟨e, he, hparts⟩ := ihs hpd
      exact ⟨e, mem_append_right _ he, hparts⟩

theorem exists_mem_genOwnProcs {m : HirModule} {c : EmitContext} (hb : m.Built) {pd : HirProcDecl}
    (hpd : pd ∈ preorder m.procDecls) : ∃ e ∈ genOwnProcs m c, e.HasPartsOf pd := by
  have htops : m.procDecls.filter (fun pd => !pd.sig.isNested) = m.procDecls := by
    rw [filter_eq_self]
    intro top htop
    rw [hb.not_nested top htop]
    rfl
  have hmem : ∀ top ∈ m.procDecls, ∀ e ∈ genOwn c (.declared c) [] none top,
      e ∈ genOwnProcs m c := by
    intro top htop e he
    rw [genOwnProcs, genTrees, htops]
    exact mem_flatMap.mpr ⟨top, htop, he⟩
  obtain htop | ⟨top, htop, hnested⟩ := mem_preorder_iff.mp hpd
  · have hown : ∃ e ∈ genOwn c (.declared c) [] none pd, e.HasPartsOf pd := by
      rw [genOwn_eq]
      exact ⟨_, mem_append_right _ mem_cons_self, rfl, rfl, rfl, rfl⟩
    obtain ⟨e, he, hparts⟩ := hown
    exact ⟨e, hmem pd htop e he, hparts⟩
  · obtain ⟨e, he, hparts⟩ := exists_mem_genOwns c (.declared c) top.nestedProcs _ _ _ _ pd hnested
    refine ⟨e, hmem top htop e ?_, hparts⟩
    rw [genOwn_eq]
    exact mem_append_left _ he

/-- If every function comes from its own declaration, the searches by bare name are right. -/
theorem searchesOwn_of_emitsFromOwnDecls {m : HirModule} {c : EmitContext} (hb : m.Built)
    (hc : c.moduleName = m.name) (h : EmitsFromOwnDecls m c) : m.SearchesOwn := by
  intro pd hpd
  obtain ⟨n, hn⟩ := h
  obtain ⟨e, he, hhead, hsig, hlocals, hchildren⟩ := exists_mem_genOwnProcs (c := c) hb hpd
  obtain ⟨name, hhead', hsig', hlocals', hchildren'⟩ :=
    foundByName_of_genProcs (hn n le_rfl) e he
  have hname : name = pd.name := Option.some.inj (hhead'.symm.trans hhead)
  rw [hname, hc] at hsig' hlocals' hchildren'
  exact ⟨hsig'.symm.trans hsig, hlocals'.symm.trans hlocals, hchildren'.symm.trans hchildren⟩

/-- Every C function that `gen_proc_by_name` writes comes from its own declaration if the names are
apart; and it does only if procedures of one name do not differ in their signatures, local
declarations and nested procedures. -/
theorem genProcByName_own_declaration {m : HirModule} {c : EmitContext} (hb : m.Built)
    (hc : c.moduleName = m.name) :
    (m.NamesApart → EmitsFromOwnDecls m c) ∧ (EmitsFromOwnDecls m c → m.SameDataOfName) :=
  ⟨fun ha => emitsFromOwnDecls_of_namesApart ha hb hc,
    fun h => (searchesOwn_iff hb).mp (searchesOwn_of_emitsFromOwnDecls hb hc h)⟩

/-- A procedure without body for a module `M`. -/
def bareProc (name : String) (params : List HirParamDecl) (nested : List HirProcDecl) :
    HirProcDecl where
  sig := {
    name := name
    mangled := "M_" ++ name
    module := "M"
    params := params
    returnType := none
    exported := false
    isForeign := false
    exportCName := none
    isNested := false
    parentProc := none
    hasClosureEnv := false }
  body := none
  locals := []
  nestedProcs := nested
  closureCaptures := []
  cfg := none

/-- A module `M` with the given procedures. -/
def bareModule (procs : List HirProcDecl) : HirModule where
  name := "M"
  procDecls := procs
  procedures := []
  embeddedModules := []

/-- The rest of the compiler for a module `M` without imports, with an integer variable `x`. -/
def bareContext : EmitContext where
  captures := { importMap := [], importedModules := [], isBuiltinProc := fun _ => false }
  moduleName := "M"
  mangle name := "M_" ++ name
  typeIdToC _ := "int32_t"
  lookupAny name := if name = "x" then some tyInteger else none

/-- A value parameter of type `INTEGER`. -/
def intParam (name : String) : HirParamDecl where
  name := name
  typeId := tyInteger
  isVar := false
  isOpenArray := false
  isProcType := false
  isChar := false
  needsHigh := false

/-- `Helper` in `A`, and `Visit` in `B`. -/
def helperAndVisit : HirModule :=
  bareModule [bareProc "A" [] [bareProc "Helper" [intParam "x"] []],
    bareProc "B" [] [bareProc "Visit" [] []]]

/-- `Helper` in `A` and another `Helper` in `B`. -/
def twoHelpers : HirModule :=
  bareModule [bareProc "A" [] [bareProc "Helper" [intParam "x"] []],
    bareProc "B" [] [bareProc "Helper" [] []]]

theorem built_bareModule {procs : List HirProcDecl}
    (hnested : ∀ pd ∈ procs, pd.sig.isNested = false)
    (hmodule : ∀ pd ∈ preorder procs, pd.sig.module = "M") : (bareModule procs).Built where
  not_nested := hnested
  module_eq := hmodule
  embedded_ne := by simp [bareModule]

theorem emitsFromOwnDecls_helperAndVisit : EmitsFromOwnDecls helperAndVisit bareContext := by
  have hb : helperAndVisit.Built := by
    apply built_bareModule <;> simp [preorder, bareProc]
  have ha : helperAndVisit.NamesApart := by
    constructor
    · simp [HirModule.DistinctNames, helperAndVisit, bareModule, preorder, bareProc,
        HirProcDecl.name]
    · simp [helperAndVisit, bareModule, preorder, bareProc, HirProcDecl.name]
    · simp [helperAndVisit, bareModule, embeddedNames]
  exact (genProcByName_own_declaration hb rfl).1 ha

/-- The second `Helper` is written with the parameters of the first. -/
theorem not_emitsFromOwnDecls_twoHelpers :
    twoHelpers.Built ∧ ¬ EmitsFromOwnDecls twoHelpers bareContext := by
  have hb : twoHelpers.Built := by
    apply built_bareModule <;> simp [preorder, bareProc]
  refine ⟨hb, fun h => ?_⟩
  have hsame := (searchesOwn_iff hb).mp (searchesOwn_of_emitsFromOwnDecls hb rfl h)
  have hsig := (hsame (bareProc "Helper" [intParam "x"] [])
    (by simp [twoHelpers, bareModule, preorder, bareProc]) (bareProc "Helper" [] [])
    (by simp [twoHelpers, bareModule, preorder, bareProc]) rfl).1
  simp [bareProc] at hsig

end Mx.HirBuild

import Mx.HirBuild.ProcByName

/-!
# Emission of a tree of declarations

What `gen_proc_by_name` is for: every procedure of the tree is emitted from its own declaration,
with an environment from the procedure directly around it. If the names of the procedures are
pairwise distinct, the emission by name is this one.
-/

namespace Mx.HirBuild

open List

/-! ## Emission by declaration -/

/-- The environment that a procedure receives. -/
structure OwnEnv where
  type : String
  fields : List (String × String)
  access : List String

/-- The scope of a procedure. -/
def ownScope (c : EmitContext) (own : ScopeParts) (ancestors : List ScopeParts)
    (env : Option OwnEnv) : NameMap String :=
  match env with
  | some env => addEnvVars env.fields env.access (scopeVars c own ancestors)
  | none => scopeVars c own ancestors

/-- What the closure analysis reads of a nested procedure. -/
def ownNestedParts (np : HirProcDecl) : NestedParts where
  name := np.name
  body := np.body
  params := np.sig.params.map HirParamDecl.name
  localNames := (localVars np.locals).map Prod.fst
  grandchildRefs := nestedRefs np.nestedProcs

/-- The environment of a nested procedure that captures something. -/
def ownEnv (c : EmitContext) (procName : String) (scope : NameMap String) (closures : Closures)
    (np : NestedParts) : Option OwnEnv :=
  (closures.children.lookup np.name).map fun recorded =>
    ⟨envTypeName procName, closures.fields, accessNames (directCaptures c scope np) recorded⟩

/-- How a procedure sees the ones around it: the parts of their scopes, by its name and the chain
of them, and the C name of an outermost procedure. -/
structure Outlook where
  around : String → List (String × ScopeParts) → List ScopeParts
  topName : String → String

/-- Every procedure around is seen with its own declarations. -/
def Outlook.declared (c : EmitContext) : Outlook where
  around _ chain := chain.map Prod.snd
  topName := c.mangle

/-- What `gen_proc_by_name` sees: a procedure around is searched by what follows the last underscore
of its name, and a C name that an embedded module has left is taken. -/
def Outlook.found (m : HirModule) (c : EmitContext) : Outlook where
  around name chain :=
    ((chain.map fun q => lastSegment q.1).filter (· ≠ name)).map (ancestorParts m c)
  topName name := ((initialState m).nestedProcNames.get name).getD (c.mangle name)

/-- The C name of a procedure. -/
def ownName (view : Outlook) (chain : List (String × ScopeParts)) (sig : HirProcSig) : String :=
  sig.exportCName.getD <| match chain with
    | [] => view.topName sig.name
    | parent :: _ => parent.1 ++ "_" ++ sig.name

mutual

/-- The functions of a procedure and of the ones nested in it. The chain holds the procedures
around it. -/
def genOwn (c : EmitContext) (view : Outlook) (chain : List (String × ScopeParts))
    (env : Option OwnEnv) : HirProcDecl → List ProcEmission
  | ⟨sig, _, locals, nested, _, cfg⟩ =>
    let own : ScopeParts := (some sig, some locals)
    let scope := ownScope c own (view.around sig.name chain) env
    let closures := analyzeClosures c scope (nested.map ownNestedParts)
    genOwns c view ((sig.name, own) :: chain) sig.name scope closures nested ++
      [{ path := sig.name :: chain.map Prod.fst
         cName := some (ownName view chain sig)
         sig := some sig
         envType := env.map OwnEnv.type
         envAccess := env.map OwnEnv.access
         locals := some locals
         children := nested.map HirProcDecl.name
         closures := closures
         cfg := cfg }]

/-- The functions of the procedures nested in one. -/
def genOwns (c : EmitContext) (view : Outlook) (chain : List (String × ScopeParts))
    (procName : String) (scope : NameMap String) (closures : Closures) :
    List HirProcDecl → List ProcEmission
  | [] => []
  | np :: nps =>
    genOwn c view chain (ownEnv c procName scope closures (ownNestedParts np)) np ++
      genOwns c view chain procName scope closures nps

end

/-- The functions of a module, by its declarations. -/
def genTrees (m : HirModule) (c : EmitContext) (view : Outlook) : List ProcEmission :=
  (m.procDecls.filter fun pd => !pd.sig.isNested).flatMap (genOwn c view [] none)

/-- The functions of a module, each from its own declaration. -/
def genOwnProcs (m : HirModule) (c : EmitContext) : List ProcEmission :=
  genTrees m c (.declared c)

/-! ## Searches for a name that only one procedure has -/

/-- What `build_module` sees to: every procedure has the name of its module, the outermost ones
are not marked as nested, and no module embeds itself. -/
structure HirModule.Built (m : HirModule) : Prop where
  not_nested : ∀ pd ∈ m.procDecls, pd.sig.isNested = false
  module_eq : ∀ pd ∈ preorder m.procDecls, pd.sig.module = m.name
  embedded_ne : ∀ e ∈ m.embeddedModules, e.name ≠ m.name

/-- The procedures have pairwise distinct names. -/
def HirModule.DistinctNames (m : HirModule) : Prop :=
  ((preorder m.procDecls).map HirProcDecl.name).Nodup

variable {pds : List HirProcDecl} {top : HirProcDecl}

theorem mem_preorder_iff {pd : HirProcDecl} :
    pd ∈ preorder pds ↔ pd ∈ pds ∨ ∃ top ∈ pds, pd ∈ preorder top.nestedProcs := by
  induction pds with
  | nil => simp [preorder]
  | cons q pds ih =>
    rw [preorder_cons, mem_cons, mem_append, ih]
    simp only [mem_cons, exists_eq_or_imp]
    tauto

theorem searchProcs_sound {β : Type} {f : HirProcDecl → Option β} {name : String} {x : β} :
    ∀ {pds : List HirProcDecl}, searchProcs f name pds = some x →
      ∃ pd ∈ preorder pds, pd.name = name ∧ f pd = some x
  | [], h => by simp [searchProcs] at h
  | ⟨sig, body, locals, nested, captures, cfg⟩ :: pds, h => by
    have ihn := @searchProcs_sound β f name x nested
    have ihs := @searchProcs_sound β f name x pds
    rw [searchProcs] at h
    rw [preorder]
    split_ifs at h with hname
    · exact ⟨_, mem_cons_self, hname, h⟩
    · obtain h | h := Option.or_eq_some_iff.mp h
      · obtain ⟨pd, hpd, hrest⟩ := ihn h
        exact ⟨pd, by simp [hpd], hrest⟩
      · obtain ⟨pd, hpd, hrest⟩ := ihs h.2
        exact ⟨pd, by simp [hpd], hrest⟩

theorem preorder_nested_sublist (h : top ∈ pds) :
    (preorder top.nestedProcs).Sublist (preorder pds) := by
  induction pds with
  | nil => exact absurd h (by simp)
  | cons q pds ih =>
    rw [preorder_cons]
    obtain rfl | h := mem_cons.mp h
    · exact ((sublist_append_left _ _).cons _)
    · exact ((ih h).trans (sublist_append_right _ _)).cons _

theorem preorder_append (ps qs : List HirProcDecl) :
    preorder (ps ++ qs) = preorder ps ++ preorder qs := by
  induction ps with
  | nil => simp [preorder]
  | cons p ps ih => simp [preorder_cons, ih]

/-- The procedures nested at any depth, without the roots. -/
theorem preorder_flatMap_sublist (pds : List HirProcDecl) :
    (preorder (pds.flatMap HirProcDecl.nestedProcs)).Sublist (preorder pds) := by
  induction pds with
  | nil => simp [preorder]
  | cons p pds ih =>
    rw [flatMap_cons, preorder_append, preorder_cons]
    exact ((List.Sublist.refl _).append ih).cons _

/-! ### Every search finds a procedure of the name -/

section Found

variable {m : HirModule} {β : Type} {f : HirProcDecl → Option β} {name : String} {x : β}

theorem top_found {module : String}
    (h : (m.procDecls.find? fun q => q.sig.name = name ∧ q.sig.module = module).bind f = some x) :
    ∃ q ∈ preorder m.procDecls, q.name = name ∧ f q = some x := by
  obtain ⟨q, hq, hx⟩ := Option.bind_eq_some_iff.mp h
  have hfound : q.sig.name = name ∧ q.sig.module = module := by
    simpa using find?_some hq
  exact ⟨q, mem_preorder (mem_of_find?_eq_some hq), hfound.1, hx⟩

theorem search_found (hpds : preorder pds ⊆ preorder m.procDecls)
    (h : searchProcs f name pds = some x) :
    ∃ q ∈ preorder m.procDecls, q.name = name ∧ f q = some x := by
  obtain ⟨q, hq, hrest⟩ := searchProcs_sound h
  exact ⟨q, hpds hq, hrest⟩

theorem firstNested_found (h : firstNested f name m.procDecls = some x) :
    ∃ q ∈ preorder m.procDecls, q.name = name ∧ f q = some x := by
  obtain ⟨top, htop, hx⟩ := mem_filterMap.mp (mem_of_head? h)
  exact search_found (preorder_nested_sublist htop).subset hx

theorem firstNested_isSome_of_total (g : HirProcDecl → β) {pd : HirProcDecl}
    (htop : top ∈ m.procDecls) (hnested : pd ∈ preorder top.nestedProcs) :
    (firstNested (fun q => some (g q)) pd.name m.procDecls).isSome := by
  have hfind : ((preorder top.nestedProcs).find? fun q => q.name = pd.name).isSome := by
    rw [find?_isSome]
    exact ⟨pd, hnested, by simp⟩
  obtain ⟨q, hq⟩ := Option.isSome_iff_exists.mp hfind
  have hmem : g q ∈ m.procDecls.filterMap fun top =>
      searchProcs (fun q => some (g q)) pd.name top.nestedProcs :=
    mem_filterMap.mpr ⟨top, htop, by rw [searchProcs_eq_find, hq, Option.map_some]⟩
  rw [firstNested, isSome_head?]
  exact ne_nil_of_mem hmem

end Found

section Unique

variable {m : HirModule} {β : Type} {f : HirProcDecl → Option β} {pd : HirProcDecl}

theorem HirModule.DistinctNames.eq_of_name (h : m.DistinctNames) {p q : HirProcDecl}
    (hp : p ∈ preorder m.procDecls) (hq : q ∈ preorder m.procDecls) (heq : p.name = q.name) :
    p = q :=
  inj_on_of_nodup_map h hp hq heq

theorem searchProcs_nested (hd : m.DistinctNames) (htop : top ∈ m.procDecls)
    (hpd : pd ∈ preorder top.nestedProcs) : searchProcs f pd.name top.nestedProcs = f pd :=
  searchProcs_of_mem _ (List.Nodup.sublist ((preorder_nested_sublist htop).map _) hd) hpd

/-- A result that comes from the procedure and exists if the procedure has one. -/
theorem eq_of_found {o : Option β} (hsound : ∀ x, o = some x → f pd = some x)
    (hcomplete : ∀ x, f pd = some x → o.isSome) : o = f pd := by
  cases hf : f pd with
  | none =>
    cases ho : o with
    | none => rfl
    | some x => rw [hsound x ho] at hf; exact absurd hf (by simp)
  | some x =>
    obtain ⟨y, hy⟩ := Option.isSome_iff_exists.mp (hcomplete x hf)
    rw [hy, ← hf, hsound y hy]

variable (hd : m.DistinctNames) (hpd : pd ∈ preorder m.procDecls)

include hd hpd

theorem eq_of_found_name {x : β}
    (h : ∃ q ∈ preorder m.procDecls, q.name = pd.name ∧ f q = some x) : f pd = some x := by
  obtain ⟨q, hq, hname, hx⟩ := h
  rwa [hd.eq_of_name hq hpd hname] at hx

theorem firstNested_complete {x : β} (h : f pd = some x)
    (htop : top ∈ m.procDecls) (hnested : pd ∈ preorder top.nestedProcs) :
    (firstNested f pd.name m.procDecls).isSome := by
  have hmem : x ∈ m.procDecls.filterMap fun q => searchProcs f pd.name q.nestedProcs :=
    mem_filterMap.mpr ⟨top, htop, by rw [searchProcs_nested hd htop hnested, h]⟩
  rw [firstNested, isSome_head?]
  exact ne_nil_of_mem hmem

omit hd hpd in
theorem top_complete {module : String} (hmodule : pd.sig.module = module)
    (htop : pd ∈ m.procDecls) :
    (m.procDecls.find? fun q => q.sig.name = pd.name ∧ q.sig.module = module).isSome := by
  rw [find?_isSome]
  exact ⟨pd, htop, by simp [hmodule, HirProcDecl.name]⟩

omit hd hpd in
theorem top_bind_complete {module : String} (hmodule : pd.sig.module = module)
    (htop : pd ∈ m.procDecls) (hd : m.DistinctNames) {x : β} (hx : f pd = some x) :
    ((m.procDecls.find? fun q => q.sig.name = pd.name ∧ q.sig.module = module).bind f).isSome := by
  obtain ⟨q, hq⟩ := Option.isSome_iff_exists.mp (top_complete hmodule htop)
  have hfound : q.sig.name = pd.name ∧ q.sig.module = module := by
    simpa using find?_some hq
  have hqpd : q = pd :=
    hd.eq_of_name (mem_preorder (mem_of_find?_eq_some hq)) (mem_preorder htop) hfound.1
  rw [hq, Option.bind_some, hqpd, hx]
  rfl

omit hd hpd in
theorem embedded_eq_none (hb : m.Built) : m.embedded m.name = none := by
  rw [HirModule.embedded, find?_eq_none]
  intro e he
  simpa using hb.embedded_ne e he

omit hd hpd in
/-- What the search for a signature finds is one of a procedure of the name. -/
theorem findNestedProcSig_sound (hb : m.Built) {name : String} {sig : HirProcSig}
    (h : m.findNestedProcSig name m.name = some sig) :
    ∃ q ∈ preorder m.procDecls, q.name = name ∧ some q.sig = some sig := by
  unfold HirModule.findNestedProcSig at h
  dsimp only at h
  rw [embedded_eq_none hb, Option.bind_none, Option.or_none] at h
  obtain h | ⟨-, h⟩ := Option.or_eq_some_iff.mp h
  · exact top_found h
  · obtain h | ⟨-, h⟩ := Option.or_eq_some_iff.mp h
    · exact search_found (preorder_flatMap_sublist _).subset h
    · exact firstNested_found h

/-- A search for the body or the graph finds the one of the procedure. -/
theorem findNestedProc_of_mem (hb : m.Built) (parent : Option String) :
    HirModule.findNestedProc f m m.name pd.name parent = f pd := by
  have hmodule := hb.module_eq pd hpd
  unfold HirModule.findNestedProc
  rw [embedded_eq_none hb, Option.bind_none, Option.or_none]
  apply eq_of_found
  · intro x hx
    simp only [Option.or_eq_some_iff] at hx
    obtain hx | ⟨-, hx | ⟨-, hx⟩⟩ := hx
    · exact eq_of_found_name hd hpd (top_found hx)
    · obtain ⟨p, -, hx⟩ := Option.bind_eq_some_iff.mp hx
      obtain ⟨top, htop, hx⟩ := Option.bind_eq_some_iff.mp hx
      have hsub := (preorder_nested_sublist (mem_of_find?_eq_some htop)).subset
      exact eq_of_found_name hd hpd (search_found hsub hx)
    · exact eq_of_found_name hd hpd (firstNested_found hx)
  · intro x hx
    simp only [Option.isSome_or, Bool.or_eq_true]
    obtain htop | ⟨top, htop, hnested⟩ := mem_preorder_iff.mp hpd
    · exact .inl (top_bind_complete hmodule htop hd hx)
    · exact .inr (.inr (firstNested_complete hd hpd hx htop hnested))

theorem findNestedProcSig_of_mem (hb : m.Built) :
    m.findNestedProcSig pd.name m.name = some pd.sig := by
  have hmodule := hb.module_eq pd hpd
  unfold HirModule.findNestedProcSig
  dsimp only
  rw [embedded_eq_none hb, Option.bind_none, Option.or_none]
  apply eq_of_found (f := fun q => some q.sig)
  · intro x hx
    simp only [Option.or_eq_some_iff] at hx
    obtain hx | ⟨-, hx | ⟨-, hx⟩⟩ := hx
    · exact eq_of_found_name hd hpd (top_found hx)
    · exact eq_of_found_name hd hpd (search_found (preorder_flatMap_sublist _).subset hx)
    · exact eq_of_found_name hd hpd (firstNested_found hx)
  · intro x hx
    simp only [Option.isSome_or, Bool.or_eq_true]
    obtain htop | ⟨top, htop, hnested⟩ := mem_preorder_iff.mp hpd
    · exact .inl (top_bind_complete hmodule htop hd hx)
    · exact .inr (.inr (firstNested_complete hd hpd hx htop hnested))

theorem findLocals_of_mem (hb : m.Built) : m.findLocals m.name pd.name = some pd.locals := by
  have hmodule := hb.module_eq pd hpd
  have hfound : ((m.procDecls.find? fun q => q.sig.name = pd.name ∧ q.sig.module = m.name).bind
      fun q => some q.locals).or (firstNested (fun q => some q.locals) pd.name m.procDecls) =
      some pd.locals := by
    apply eq_of_found (f := fun q => some q.locals)
    · intro x hx
      obtain hx | ⟨-, hx⟩ := Option.or_eq_some_iff.mp hx
      · exact eq_of_found_name hd hpd (top_found hx)
      · exact eq_of_found_name hd hpd (firstNested_found hx)
    · intro x hx
      simp only [Option.isSome_or, Bool.or_eq_true]
      obtain htop | ⟨top, htop, hnested⟩ := mem_preorder_iff.mp hpd
      · exact .inl (top_bind_complete hmodule htop hd hx)
      · exact .inr (firstNested_complete hd hpd hx htop hnested)
  unfold HirModule.findLocals
  dsimp only
  rw [← Option.or_assoc, hfound, Option.some_or]

theorem findChildren_of_mem : m.findChildren m.name pd.name = pd.childNames := by
  rw [HirModule.findChildren, searchProcs_of_mem _ hd hpd]
  rfl

theorem findScopeLocals_of_mem : m.findScopeLocals pd.name = some pd.locals := by
  rw [HirModule.findScopeLocals, searchProcs_of_mem _ hd hpd]
  rfl

theorem findLocalNames_of_mem : m.findLocalNames pd.name = (localVars pd.locals).map Prod.fst := by
  rw [HirModule.findLocalNames, searchProcs_of_mem _ hd hpd]
  rfl

end Unique

theorem findProcAndScan_eq_nil {name : String} : ∀ (pds : List HirProcDecl),
    (∀ pd ∈ preorder pds, pd.name ≠ name) → findProcAndScan name pds = []
  | [], _ => by rw [findProcAndScan]
  | ⟨sig, body, locals, nested, captures, cfg⟩ :: pds, h => by
    rw [preorder, forall_mem_cons] at h
    have ihn := findProcAndScan_eq_nil nested fun pd hpd => h.2 pd (mem_append_left _ hpd)
    have ihs := findProcAndScan_eq_nil pds fun pd hpd => h.2 pd (mem_append_right _ hpd)
    have hroot : sig.name ≠ name := h.1
    simp [findProcAndScan, hroot, ihn, ihs]

/-- The scan of the nested procedures finds those of the procedure. -/
theorem findProcAndScan_of_mem : ∀ (pds : List HirProcDecl) {pd : HirProcDecl},
    ((preorder pds).map HirProcDecl.name).Nodup → pd ∈ preorder pds →
    findProcAndScan pd.name pds = nestedRefs pd.nestedProcs
  | [], pd, _, h => by simp [preorder] at h
  | ⟨sig, body, locals, nested, captures, cfg⟩ :: pds, pd, hnodup, h => by
    have ihn := @findProcAndScan_of_mem nested pd
    have ihs := @findProcAndScan_of_mem pds pd
    rw [preorder] at h hnodup
    rw [map_cons, nodup_cons, map_append, nodup_append] at hnodup
    obtain ⟨hroot, hnested, hrest, hdisjoint⟩ := hnodup
    obtain rfl | h := mem_cons.mp h
    · simp [findProcAndScan, HirProcDecl.name]
    · have hne : sig.name ≠ pd.name := by
        intro heq
        apply hroot
        rw [← map_append]
        exact mem_map.mpr ⟨pd, h, heq.symm⟩
      rw [findProcAndScan, if_neg hne]
      obtain h | h := mem_append.mp h
      · have hnil : findProcAndScan pd.name pds = [] := by
          apply findProcAndScan_eq_nil
          intro q hq heq
          exact hdisjoint _ (mem_map_of_mem h) _ (mem_map_of_mem hq) heq.symm
        simp only [ihn hnested h, hnil]
        split_ifs with hempty
        · rfl
        · exact (not_not.mp hempty).symm
      · have hnil : findProcAndScan pd.name nested = [] := by
          apply findProcAndScan_eq_nil
          intro q hq heq
          exact hdisjoint _ (mem_map_of_mem hq) _ (mem_map_of_mem h) heq
        simp [hnil, ihs hrest h]

theorem nestedParts_of_mem {m : HirModule} {c : EmitContext} (hd : m.DistinctNames) (hb : m.Built)
    (hc : c.moduleName = m.name) {np : HirProcDecl} (hnp : np ∈ preorder m.procDecls)
    (procName : String) : nestedParts m c procName np.name = ownNestedParts np := by
  simp only [nestedParts, ownNestedParts, HirModule.findNestedProcBody, hc,
    findNestedProc_of_mem hd hnp hb, findNestedProcSig_of_mem hd hnp hb,
    findLocalNames_of_mem hd hnp, findProcAndScan_of_mem _ hd hnp, Option.map_some,
    Option.getD_some]

theorem lastSegment_of_plain {name : String} (h : '_' ∉ name.toList) : lastSegment name = name := by
  have hall : ∀ c ∈ name.toList.reverse, decide (c ≠ '_') = true := by
    intro c hc
    rw [mem_reverse] at hc
    exact decide_eq_true fun heq => h (heq ▸ hc)
  rw [lastSegment, takeWhile_eq_self_iff.mpr hall, reverse_reverse, String.ofList_toList]

/-! ## The tables of the generator -/

theorem NameMap.get_insert {β : Type} (t : NameMap β) (key name : String) (v : β) :
    (t.insert key v).get name = if name = key then some v else t.get name := by
  by_cases h : name = key
  · simp [NameMap.insert, NameMap.get, h]
  · have hbeq : (name == key) = false := by simpa using h
    simp [NameMap.insert, NameMap.get, List.lookup, hbeq, h]

theorem get_foldl_insert_of_not_mem {β : Type} (v : String × β → String)
    (entries : List (String × β)) (t : NameMap String) {name : String}
    (h : name ∉ entries.map Prod.fst) :
    (entries.foldl (fun t entry => t.insert entry.1 (v entry)) t).get name = t.get name := by
  induction entries generalizing t with
  | nil => rfl
  | cons entry entries ih =>
    rw [map_cons, mem_cons, not_or] at h
    rw [foldl_cons, ih _ h.2, NameMap.get_insert, if_neg h.1]

theorem get_foldl_insert_of_mem {β : Type} (v : String) (entries : List (String × β))
    (t : NameMap String) {name : String} (h : name ∈ entries.map Prod.fst) :
    (entries.foldl (fun t entry => t.insert entry.1 v) t).get name = some v := by
  induction entries generalizing t with
  | nil => simp at h
  | cons entry entries ih =>
    rw [foldl_cons]
    by_cases hmem : name ∈ entries.map Prod.fst
    · exact ih _ hmem
    · have hname : name = entry.1 := by
        rw [map_cons, mem_cons] at h
        exact h.resolve_right hmem
      rw [get_foldl_insert_of_not_mem (fun _ => v) _ _ hmem, NameMap.get_insert, if_pos hname]

theorem keys_addTo (proc name : String) (children : List (String × List String)) :
    ∀ k ∈ (Closures.addTo proc name children).map Prod.fst,
      k = proc ∨ k ∈ children.map Prod.fst := by
  induction children with
  | nil => simp [Closures.addTo]
  | cons ch children ih =>
    intro k hk
    rw [Closures.addTo] at hk
    by_cases hproc : ch.1 = proc
    · rw [if_pos hproc] at hk
      exact .inr hk
    · rw [if_neg hproc, map_cons, mem_cons] at hk
      rw [map_cons, mem_cons]
      obtain hk | hk := hk
      · exact .inr (.inl hk)
      · exact (ih k hk).imp_right .inr

theorem children_addField (scope : NameMap String) (cl : Closures) (name : String) :
    (cl.addField scope name).children = cl.children := by
  unfold Closures.addField
  split_ifs <;> rfl

theorem keys_addChild (c : EmitContext) (scope : NameMap String) (cl : Closures)
    (np : NestedParts) :
    ∀ k ∈ (cl.addChild c scope np).children.map Prod.fst,
      k = np.name ∨ k ∈ cl.children.map Prod.fst := by
  have hforward : ∀ (names : List String) (cl : Closures),
      ∀ k ∈ (names.foldl (fun cl name => (cl.addField scope name).addCapture np.name name)
        cl).children.map Prod.fst, k = np.name ∨ k ∈ cl.children.map Prod.fst := by
    intro names
    induction names with
    | nil => exact fun cl k hk => .inr hk
    | cons name names ih =>
      intro cl k hk
      obtain hk | hk := ih _ k hk
      · exact .inl hk
      · have hkeys := keys_addTo np.name name (cl.addField scope name).children k hk
        rwa [children_addField] at hkeys
  intro k hk
  obtain hk | hk := hforward _ _ k hk
  · exact .inl hk
  · split_ifs at hk
    · exact .inr hk
    · rw [map_append, mem_append] at hk
      obtain hk | hk := hk
      · exact .inr hk
      · exact .inl (by simpa using hk)

/-- Only nested procedures have captures. -/
theorem keys_analyzeClosures (c : EmitContext) (scope : NameMap String)
    (nested : List NestedParts) :
    ∀ k ∈ (analyzeClosures c scope nested).children.map Prod.fst,
      k ∈ nested.map NestedParts.name := by
  have hfold : ∀ (nps : List NestedParts) (cl : Closures),
      ∀ k ∈ (nps.foldl (Closures.addChild c scope) cl).children.map Prod.fst,
        k ∈ nps.map NestedParts.name ∨ k ∈ cl.children.map Prod.fst := by
    intro nps
    induction nps with
    | nil => exact fun cl k hk => .inr hk
    | cons np nps ih =>
      intro cl k hk
      obtain hk | hk := ih _ k hk
      · exact .inl (mem_cons_of_mem _ hk)
      · obtain hk | hk := keys_addChild c scope cl np k hk
        · exact .inl (by simp [hk])
        · exact .inr hk
  intro k hk
  obtain hk | hk := hfold nested {} k hk
  · exact hk
  · exact absurd hk (by simp)

end Mx.HirBuild

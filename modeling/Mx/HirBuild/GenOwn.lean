import Mx.HirBuild.OwnProcs

/-!
# The emission by name is the emission by declaration

The tables of the code generator are keyed by bare names. As long as the names of the procedures
are pairwise distinct, the entries that a procedure needs stay as they are while the ones nested
in it and next to it are emitted; so every function is written from its own declaration.
-/

namespace Mx.HirBuild

open List

/-- The names of the procedures of a forest. -/
def procNames (pds : List HirProcDecl) : List String := (preorder pds).map HirProcDecl.name

theorem procNames_cons (pd : HirProcDecl) (pds : List HirProcDecl) :
    procNames (pd :: pds) = pd.name :: (procNames pd.nestedProcs ++ procNames pds) := by
  simp [procNames, preorder_cons]

@[simp]
theorem procNames_nil : procNames [] = [] := by
  simp [procNames, preorder]

/-- The chain of procedures around one, as the emission by declaration has it. -/
def chainParts (chain : List HirProcDecl) : List (String × ScopeParts) :=
  chain.map fun q => (q.name, (some q.sig, some q.locals))

/-! ## What emission leaves alone -/

/-- The stacks are as before, and so are the tables at all names but the given ones. -/
structure Unchanged (names fieldNames : List String) (st st' : GenState) : Prop where
  closureEnvType : ∀ n ∉ names, st'.closureEnvType.get n = st.closureEnvType.get n
  nestedProcNames : ∀ n ∉ names, st'.nestedProcNames.get n = st.nestedProcNames.get n
  closureEnvFields : ∀ n ∉ fieldNames,
    st'.closureEnvFields.get (envTypeName n) = st.closureEnvFields.get (envTypeName n)
  envAccessNames : st'.envAccessNames = st.envAccessNames
  parentProcStack : st'.parentProcStack = st.parentProcStack

theorem Unchanged.refl (names fieldNames : List String) (st : GenState) :
    Unchanged names fieldNames st st where
  closureEnvType _ _ := rfl
  nestedProcNames _ _ := rfl
  closureEnvFields _ _ := rfl
  envAccessNames := rfl
  parentProcStack := rfl

variable {st' : GenState} {np : HirProcDecl} {nps tops : List HirProcDecl}

theorem Unchanged.trans {names fieldNames names' fieldNames' : List String} {st st'' : GenState}
    (h : Unchanged names fieldNames st st') (h' : Unchanged names' fieldNames' st' st'') :
    Unchanged (names ++ names') (fieldNames ++ fieldNames') st st'' where
  closureEnvType n hn := by
    rw [mem_append, not_or] at hn
    rw [h'.closureEnvType n hn.2, h.closureEnvType n hn.1]
  nestedProcNames n hn := by
    rw [mem_append, not_or] at hn
    rw [h'.nestedProcNames n hn.2, h.nestedProcNames n hn.1]
  closureEnvFields n hn := by
    rw [mem_append, not_or] at hn
    rw [h'.closureEnvFields n hn.2, h.closureEnvFields n hn.1]
  envAccessNames := h'.envAccessNames.trans h.envAccessNames
  parentProcStack := h'.parentProcStack.trans h.parentProcStack

/-- What the emission of a procedure finds: its own entries, and none for the ones in it. -/
structure Ready (m : HirModule) (st : GenState) (chain : List HirProcDecl) (env : Option OwnEnv)
    (pd : HirProcDecl) : Prop where
  mem : pd ∈ preorder m.procDecls
  chain_mem : ∀ q ∈ chain, q ∈ preorder m.procDecls
  nodup : (chain.map HirProcDecl.name ++ procNames [pd]).Nodup
  parentProcStack : st.parentProcStack = chain.map HirProcDecl.name
  envType : st.closureEnvType.get pd.name = env.map OwnEnv.type
  envType_nested : ∀ n ∈ procNames pd.nestedProcs, st.closureEnvType.get n = none
  cName : st.nestedProcNames.get pd.name =
    (chain.head?.map fun q => q.name ++ "_" ++ pd.name).or
      ((initialState m).nestedProcNames.get pd.name)
  access : ∀ e ∈ env, st.envAccessNames.head? = some e.access
  fields : ∀ e ∈ env, (st.closureEnvFields.get e.type).getD [] = e.fields
  fields_fresh : ∀ n ∈ procNames [pd], st.closureEnvFields.get (envTypeName n) = none

/-- With enough fuel, the procedure is emitted from its own declaration. -/
def EmitsOwn (m : HirModule) (c : EmitContext) (n : Nat) (pd : HirProcDecl) : Prop :=
  ∀ fuel ≥ n, ∀ st chain env, Ready m st chain env pd →
    ∃ st', genProcByName m c fuel st pd.name =
        some (st', genOwn c (.found m c) (chainParts chain) env pd) ∧
      Unchanged (procNames pd.nestedProcs) (procNames [pd]) st st'

/-- What the loop over the nested procedures finds for those that are still to come. -/
structure SiblingsReady (m : HirModule) (st : GenState) (parent : HirProcDecl)
    (chain : List HirProcDecl) (closures : Closures) (nps : List HirProcDecl) : Prop where
  mem : ∀ np ∈ nps, np ∈ preorder m.procDecls
  chain_mem : ∀ q ∈ parent :: chain, q ∈ preorder m.procDecls
  nodup : ((parent :: chain).map HirProcDecl.name ++ procNames nps).Nodup
  parentProcStack : st.parentProcStack = (parent :: chain).map HirProcDecl.name
  envType : ∀ np ∈ nps, st.closureEnvType.get np.name =
    (closures.children.lookup np.name).map fun _ => envTypeName parent.name
  envType_nested : ∀ np ∈ nps, ∀ n ∈ procNames np.nestedProcs, st.closureEnvType.get n = none
  fields : (st.closureEnvFields.get (envTypeName parent.name)).getD [] = closures.fields
  fields_fresh : ∀ n ∈ procNames nps, st.closureEnvFields.get (envTypeName n) = none

/-- With enough fuel, the loop emits the nested procedures from their own declarations. -/
def EmitsOwns (m : HirModule) (c : EmitContext) (n : Nat) (nps : List HirProcDecl) : Prop :=
  ∀ fuel ≥ n, ∀ acc parent chain scope closures,
    SiblingsReady m acc.1 parent chain closures nps →
    ∃ st', (nps.map HirProcDecl.name).foldlM
        (genNested m c (genProcByName m c fuel) parent.name scope closures) acc =
        some (st', acc.2 ++
          genOwns c (.found m c) (chainParts (parent :: chain)) parent.name scope closures nps) ∧
      Unchanged (procNames nps) (procNames nps) acc.1 st'

/-! ## The tables at one procedure -/

theorem envTypeName_inj {a b : String} : envTypeName a = envTypeName b ↔ a = b := by
  simp [envTypeName]

theorem lookup_isSome_iff {β : Type} {name : String} {entries : List (String × β)} :
    (entries.lookup name).isSome ↔ name ∈ entries.map Prod.fst := by
  simp only [List.lookup_isSome_iff, beq_iff_eq, mem_map, @eq_comm _ name]

section Enter

variable {st : GenState} {name : String} {closures : Closures}

variable {n : String}

theorem closureEnvType_enter (hfresh : st.closureEnvType.get n = none) :
    (st.enter name closures).closureEnvType.get n =
      (closures.children.lookup n).map fun _ => envTypeName name := by
  by_cases hmem : n ∈ closures.children.map Prod.fst
  · obtain ⟨names, hnames⟩ := Option.isSome_iff_exists.mp (lookup_isSome_iff.mpr hmem)
    rw [GenState.enter, get_foldl_insert_of_mem _ _ _ hmem, hnames]
    rfl
  · have hnone : closures.children.lookup n = none := by
      rw [← Option.not_isSome_iff_eq_none, lookup_isSome_iff]
      exact hmem
    rw [GenState.enter, get_foldl_insert_of_not_mem (fun _ => envTypeName name) _ _ hmem, hfresh,
      hnone]
    rfl

theorem closureEnvType_enter_of_not_mem (h : n ∉ closures.children.map Prod.fst) :
    (st.enter name closures).closureEnvType.get n = st.closureEnvType.get n :=
  get_foldl_insert_of_not_mem (fun _ => envTypeName name) _ _ h

theorem closureEnvFields_enter (hfresh : st.closureEnvFields.get (envTypeName name) = none) :
    ((st.enter name closures).closureEnvFields.get (envTypeName name)).getD [] =
      closures.fields := by
  unfold GenState.enter
  dsimp only
  split_ifs with hempty
  · rw [hfresh, List.isEmpty_iff.mp hempty]
    rfl
  · rw [NameMap.get_insert, if_pos rfl]
    rfl

theorem closureEnvFields_enter_of_ne (h : n ≠ name) :
    (st.enter name closures).closureEnvFields.get (envTypeName n) =
      st.closureEnvFields.get (envTypeName n) := by
  unfold GenState.enter
  dsimp only
  split_ifs
  · rfl
  · rw [NameMap.get_insert, if_neg (envTypeName_inj.not.mpr h)]

end Enter

/-! ## One procedure -/

variable {pd : HirProcDecl}

theorem mem_procNames {pds : List HirProcDecl} (h : pd ∈ pds) : pd.name ∈ procNames pds :=
  mem_map_of_mem (mem_preorder h)

theorem procNames_nested_subset {pds : List HirProcDecl} (h : pd ∈ pds) :
    procNames pd.nestedProcs ⊆ procNames pds :=
  ((preorder_nested_sublist h).map _).subset

/-- A procedure nested in one of the list has another name than those of the list. -/
theorem not_mem_names_of_nested (hnodup : (procNames nps).Nodup)
    (hnp : np ∈ nps) {n : String} (hn : n ∈ procNames np.nestedProcs) :
    n ∉ nps.map HirProcDecl.name := by
  induction nps with
  | nil => exact absurd hnp (by simp)
  | cons q nps ih =>
    have hroots : nps.map HirProcDecl.name ⊆ procNames nps := by
      intro k hk
      obtain ⟨p, hp, rfl⟩ := mem_map.mp hk
      exact mem_procNames hp
    rw [procNames_cons, nodup_cons, nodup_append, mem_append, not_or] at hnodup
    obtain ⟨⟨hq, hq'⟩, -, hrest, hdisjoint⟩ := hnodup
    rw [map_cons, mem_cons, not_or]
    obtain rfl | hnp := mem_cons.mp hnp
    · exact ⟨fun heq => hq (heq ▸ hn), fun hk => hdisjoint n hn n (hroots hk) rfl⟩
    · have hn' := procNames_nested_subset hnp hn
      exact ⟨fun heq => hq' (heq ▸ hn'), ih hrest hnp⟩

theorem genOwn_eq (c : EmitContext) (view : Outlook) (chain : List (String × ScopeParts))
    (env : Option OwnEnv) (pd : HirProcDecl) :
    genOwn c view chain env pd =
      let own : ScopeParts := (some pd.sig, some pd.locals)
      let scope := ownScope c own (view.around pd.name chain) env
      let closures := analyzeClosures c scope (pd.nestedProcs.map ownNestedParts)
      genOwns c view ((pd.name, own) :: chain) pd.name scope closures pd.nestedProcs ++
        [{ path := pd.name :: chain.map Prod.fst
           cName := some (ownName view chain pd.sig)
           sig := some pd.sig
           envType := env.map OwnEnv.type
           envAccess := env.map OwnEnv.access
           locals := some pd.locals
           children := pd.childNames
           closures := closures
           cfg := pd.cfg }] := by
  cases pd
  rw [genOwn]
  rfl

section Emits

variable {m : HirModule} {c : EmitContext} (hd : m.DistinctNames) (hb : m.Built)
  (hc : c.moduleName = m.name)

include hd hb hc

variable {st : GenState} {env : Option OwnEnv} {pd : HirProcDecl}

variable {chain : List HirProcDecl} {parent : HirProcDecl}

/-- The scope is made of the variables of the procedure and of those found for the ones around. -/
theorem buildScopeVars_of_ready (h : Ready m st chain env pd) :
    buildScopeVars m c st pd.name =
      ownScope c (some pd.sig, some pd.locals)
        ((Outlook.found m c).around pd.name (chainParts chain)) env := by
  have hsegments : st.parentProcStack.map lastSegment =
      (chainParts chain).map fun q => lastSegment q.1 := by
    rw [h.parentProcStack, chainParts, map_map, map_map]
    rfl
  have hown : scopeParts m c pd.name = (some pd.sig, some pd.locals) := by
    rw [scopeParts, hc, findNestedProcSig_of_mem hd h.mem hb, findScopeLocals_of_mem hd h.mem]
  rw [buildScopeVars, hsegments, hown, h.envType]
  cases env with
  | none => cases st.envAccessNames.head? <;> rfl
  | some e =>
    rw [h.access e rfl, Option.map_some]
    dsimp only
    rw [h.fields e rfl]
    rfl

omit hd hb hc in
/-- The loop over the nested procedures starts with the entries of each of them. -/
theorem siblingsReady_enter (h : Ready m st chain env pd) (scope : NameMap String) :
    SiblingsReady m (st.enter pd.name (analyzeClosures c scope (pd.nestedProcs.map ownNestedParts)))
      pd chain (analyzeClosures c scope (pd.nestedProcs.map ownNestedParts)) pd.nestedProcs := by
  set closures := analyzeClosures c scope (pd.nestedProcs.map ownNestedParts) with hclosures
  have hkeys : ∀ k ∈ closures.children.map Prod.fst, k ∈ pd.nestedProcs.map HirProcDecl.name := by
    intro k hk
    have hname := keys_analyzeClosures c scope _ k hk
    rwa [map_map] at hname
  have hnodup := h.nodup
  rw [procNames_cons, procNames_nil, append_nil] at hnodup
  constructor
  · exact fun np hnp => nested_subset_preorder _ h.mem hnp
  · exact forall_mem_cons.mpr ⟨h.mem, h.chain_mem⟩
  · rw [map_cons, cons_append]
    exact perm_middle.nodup_iff.mp hnodup
  · rw [GenState.enter, h.parentProcStack]
    rfl
  · exact fun np hnp => closureEnvType_enter (h.envType_nested _ (mem_procNames hnp))
  · intro np hnp n hn
    have hnot : n ∉ closures.children.map Prod.fst := by
      have hnested := (nodup_cons.mp (nodup_append.mp hnodup).2.1).2
      exact fun hk => not_mem_names_of_nested hnested hnp hn (hkeys n hk)
    rw [closureEnvType_enter_of_not_mem hnot]
    exact h.envType_nested n (procNames_nested_subset hnp hn)
  · exact closureEnvFields_enter (h.fields_fresh _ (mem_procNames mem_cons_self))
  · intro n hn
    have hne : n ≠ pd.name := by
      rintro rfl
      exact (nodup_cons.mp (nodup_append.mp hnodup).2.1).1 hn
    rw [closureEnvFields_enter_of_ne hne]
    exact h.fields_fresh n (procNames_nested_subset mem_cons_self hn)

/-- A procedure is emitted from its own declaration if the ones in it are. -/
theorem emitsOwn_of_nested {n : Nat} (h : EmitsOwns m c n pd.nestedProcs) :
    EmitsOwn m c (n + 1) pd := by
  intro fuel hfuel st chain env hready
  obtain ⟨fuel, rfl⟩ : ∃ k, fuel = k + 1 := ⟨fuel - 1, by omega⟩
  have hsig : m.findNestedProcSig pd.name c.moduleName = some pd.sig := by
    rw [hc, findNestedProcSig_of_mem hd hready.mem hb]
  have hchildren : m.findChildren c.moduleName pd.name = pd.childNames := by
    rw [hc, findChildren_of_mem hd hready.mem]
  have hparts : pd.childNames.map (nestedParts m c pd.name) =
      pd.nestedProcs.map ownNestedParts := by
    rw [HirProcDecl.childNames, map_map]
    exact map_congr_left fun np hnp =>
      nestedParts_of_mem hd hb hc (nested_subset_preorder _ hready.mem hnp) pd.name
  have hlocals : m.findLocals c.moduleName pd.name = some pd.locals := by
    rw [hc, findLocals_of_mem hd hready.mem hb]
  have hcfg : ∀ parent, m.findNestedProcCfg c.moduleName pd.name parent = pd.cfg := by
    intro parent
    rw [hc, HirModule.findNestedProcCfg, findNestedProc_of_mem hd hready.mem hb]
  set scope := ownScope c (some pd.sig, some pd.locals)
    ((Outlook.found m c).around pd.name (chainParts chain)) env with hscope
  set closures := analyzeClosures c scope (pd.nestedProcs.map ownNestedParts) with hclosures
  obtain ⟨st', hfold, hunchanged⟩ := h fuel (by omega) (st.enter pd.name closures, []) pd chain
    scope closures (siblingsReady_enter hready scope)
  have hself : pd.name ∉ procNames pd.nestedProcs := by
    have hnodup := (nodup_append.mp hready.nodup).2.1
    rw [procNames_cons, procNames_nil, append_nil] at hnodup
    exact (nodup_cons.mp hnodup).1
  have hkeys : ∀ n ∉ procNames pd.nestedProcs, n ∉ closures.children.map Prod.fst := by
    intro n hn hk
    have hname := keys_analyzeClosures c scope _ n hk
    rw [map_map] at hname
    obtain ⟨np, hnp, rfl⟩ := mem_map.mp hname
    exact hn (mem_procNames hnp)
  have henv : st'.closureEnvType.get pd.name = env.map OwnEnv.type := by
    rw [hunchanged.closureEnvType _ hself, closureEnvType_enter_of_not_mem (hkeys _ hself),
      hready.envType]
  have hscope' : buildScopeVars m c st pd.name = scope := buildScopeVars_of_ready hd hb hc hready
  refine ⟨{ st' with parentProcStack := st.parentProcStack }, ?_, ?_⟩
  · rw [genProcByName, hsig, hchildren, hparts, hscope', ← hclosures, hlocals,
      HirProcDecl.childNames]
    dsimp only
    rw [hfold, genOwn_eq]
    dsimp only
    rw [← hscope, ← hclosures]
    have hname : protoName c st' pd.sig =
        ownName (.found m c) (chainParts chain) pd.sig := by
      have hc' := hunchanged.nestedProcNames _ hself
      have hcName : st'.nestedProcNames.get pd.sig.name =
          (chain.head?.map fun q => q.name ++ "_" ++ pd.name).or
            ((initialState m).nestedProcNames.get pd.name) := hc'.trans hready.cName
      rw [protoName, hcName]
      cases chain <;> rfl
    have haccess : (if st'.closureEnvType.contains pd.name then st'.envAccessNames.head?
        else none) =
        env.map OwnEnv.access := by
      rw [NameMap.contains, henv]
      cases henv' : env with
      | none => rfl
      | some e =>
        rw [hunchanged.envAccessNames]
        exact hready.access e henv'
    have hpath : st.parentProcStack = (chainParts chain).map Prod.fst := by
      rw [hready.parentProcStack, chainParts, map_map]
      rfl
    have henv' : st'.closureEnvType.get pd.sig.name = env.map OwnEnv.type := henv
    simp only [Option.bind_eq_bind, Option.bind_some, Option.map_some, nil_append, hname,
      haccess, hcfg, hpath, henv']
    rfl
  · constructor
    · intro n hn
      rw [hunchanged.closureEnvType n hn, closureEnvType_enter_of_not_mem (hkeys n hn)]
    · intro n hn
      rw [hunchanged.nestedProcNames n hn]
      rfl
    · intro n hn
      rw [procNames_cons, mem_cons, not_or, procNames_nil, append_nil] at hn
      rw [hunchanged.closureEnvFields n hn.2, closureEnvFields_enter_of_ne hn.1]
    · exact hunchanged.envAccessNames
    · rfl

omit hd hb hc in
/-- The first of the procedures still to come has its entries once its C name is recorded and the
names that it reaches through its environment are pushed. -/
theorem ready_of_siblingsReady
    {closures : Closures}
    (h : SiblingsReady m st parent chain closures (np :: nps))
    (henv : env.map OwnEnv.type =
      (closures.children.lookup np.name).map fun _ => envTypeName parent.name)
    (hfields : ∀ e ∈ env, e.fields = closures.fields)
    (hst' : st' = { st with
      nestedProcNames := st.nestedProcNames.insert np.name (parent.name ++ "_" ++ np.name)
      envAccessNames := (env.map OwnEnv.access).toList ++ st.envAccessNames }) :
    Ready m st' (parent :: chain) env np := by
  subst hst'
  have hnodup := h.nodup
  rw [procNames_cons] at hnodup
  constructor
  · exact h.mem np mem_cons_self
  · exact h.chain_mem
  · refine List.Nodup.sublist (List.Sublist.append (List.Sublist.refl _) ?_) hnodup
    rw [procNames_cons, procNames_nil, append_nil]
    exact (sublist_append_left _ _).cons_cons _
  · exact h.parentProcStack
  · rw [henv]
    exact h.envType np mem_cons_self
  · exact h.envType_nested np mem_cons_self
  · rw [NameMap.get_insert, if_pos rfl]
    rfl
  · rintro e rfl
    rfl
  · rintro e he
    have htype : e.type = envTypeName parent.name := by
      rw [Option.mem_def.mp he] at henv
      obtain ⟨-, -, htype⟩ := Option.map_eq_some_iff.mp henv.symm
      exact htype.symm
    rw [htype, hfields e he]
    exact h.fields
  · intro n hn
    rw [procNames_cons, procNames_nil, append_nil] at hn
    apply h.fields_fresh n
    rw [procNames_cons]
    simp only [mem_cons, mem_append] at hn ⊢
    tauto

omit hd hb hc in
/-- The emission of a procedure leaves the entries of those after it. -/
theorem SiblingsReady.tail {st : GenState} {closures : Closures}
    (h : SiblingsReady m st parent chain closures (np :: nps))
    (hunchanged : Unchanged (procNames [np]) (procNames [np]) st st') :
    SiblingsReady m st' parent chain closures nps := by
  have hnodup := h.nodup
  rw [show procNames (np :: nps) = procNames [np] ++ procNames nps by
    simp [procNames_cons]] at hnodup
  have hrest : ∀ n ∈ procNames nps, n ∉ procNames [np] := by
    intro n hn hn'
    exact (nodup_append.mp (nodup_append.mp hnodup).2.1).2.2 n hn' n hn rfl
  have hparent : parent.name ∉ procNames [np] := by
    intro hn
    exact (nodup_append.mp hnodup).2.2 parent.name (by simp) parent.name
      (mem_append_left _ hn) rfl
  constructor
  · exact fun np' hnp' => h.mem np' (mem_cons_of_mem _ hnp')
  · exact h.chain_mem
  · exact List.Nodup.sublist
      (List.Sublist.append (List.Sublist.refl _) (sublist_append_right _ _)) hnodup
  · rw [hunchanged.parentProcStack, h.parentProcStack]
  · intro np' hnp'
    rw [hunchanged.closureEnvType _ (hrest _ (mem_procNames hnp')),
      h.envType np' (mem_cons_of_mem _ hnp')]
  · intro np' hnp' n hn
    rw [hunchanged.closureEnvType _ (hrest _ (procNames_nested_subset hnp' hn)),
      h.envType_nested np' (mem_cons_of_mem _ hnp') n hn]
  · rw [hunchanged.closureEnvFields _ hparent, h.fields]
  · intro n hn
    rw [hunchanged.closureEnvFields _ (hrest n hn)]
    apply h.fields_fresh
    simp only [procNames_cons, mem_cons, mem_append]
    exact .inr (.inr hn)

/-- One nested procedure in the loop is emitted from its own declaration. -/
theorem genNested_of_ready {n : Nat} (hnp : EmitsOwn m c n np) {fuel : Nat}
    (hfuel : n ≤ fuel) {acc : GenState × List ProcEmission}
    {closures : Closures}
    (h : SiblingsReady m acc.1 parent chain closures (np :: nps)) (scope : NameMap String) :
    ∃ st', genNested m c (genProcByName m c fuel) parent.name scope closures acc np.name =
        some (st', acc.2 ++ genOwn c (.found m c) (chainParts (parent :: chain))
          (ownEnv c parent.name scope closures (ownNestedParts np)) np) ∧
      Unchanged (procNames [np]) (procNames [np]) acc.1 st' := by
  set env := ownEnv c parent.name scope closures (ownNestedParts np) with henv
  have htype : env.map OwnEnv.type =
      (closures.children.lookup np.name).map fun _ => envTypeName parent.name := by
    rw [henv, ownEnv, Option.map_map]
    rfl
  have hfields : ∀ e ∈ env, e.fields = closures.fields := by
    intro e he
    rw [henv, ownEnv] at he
    obtain ⟨_, -, rfl⟩ := Option.map_eq_some_iff.mp (Option.mem_def.mp he)
    rfl
  have hready := ready_of_siblingsReady h htype hfields rfl
  obtain ⟨st', hgen, hunchanged⟩ := hnp fuel hfuel _ _ _ hready
  have hmem : np ∈ preorder m.procDecls := h.mem np mem_cons_self
  have hcontains : acc.1.closureEnvType.contains np.name = env.isSome := by
    rw [NameMap.contains, h.envType np mem_cons_self, ← htype, Option.isSome_map]
  have hself : np.name ∉ procNames np.nestedProcs := by
    have hnodup := (nodup_append.mp hready.nodup).2.1
    rw [procNames_cons, procNames_nil, append_nil] at hnodup
    exact (nodup_cons.mp hnodup).1
  have hcontains' : st'.closureEnvType.contains np.name = env.isSome := by
    rw [← hcontains, NameMap.contains, hunchanged.closureEnvType _ hself]
    rfl
  have hpushed : (if acc.1.closureEnvType.contains np.name then
      { acc.1 with
        nestedProcNames := acc.1.nestedProcNames.insert np.name (parent.name ++ "_" ++ np.name)
        envAccessNames := accessNames (directCaptures c scope (nestedParts m c parent.name np.name))
          ((closures.children.lookup np.name).getD []) :: acc.1.envAccessNames }
      else { acc.1 with
        nestedProcNames :=
          acc.1.nestedProcNames.insert np.name (parent.name ++ "_" ++ np.name) } : GenState) =
      { acc.1 with
        nestedProcNames := acc.1.nestedProcNames.insert np.name (parent.name ++ "_" ++ np.name)
        envAccessNames := (env.map OwnEnv.access).toList ++ acc.1.envAccessNames } := by
    rw [hcontains, nestedParts_of_mem hd hb hc hmem]
    rw [henv, ownEnv]
    cases hlookup : closures.children.lookup (ownNestedParts np).name with
    | none => rfl
    | some recorded =>
      rw [show closures.children.lookup np.name = some recorded from hlookup]
      rfl
  have hpopped : (if env.isSome then { st' with envAccessNames := st'.envAccessNames.tail }
      else st') = { st' with envAccessNames := acc.1.envAccessNames } := by
    have haccess : st'.envAccessNames = (env.map OwnEnv.access).toList ++ acc.1.envAccessNames :=
      hunchanged.envAccessNames
    obtain hnone | ⟨e, hsome⟩ := env.eq_none_or_eq_some
    · rw [hnone] at haccess ⊢
      exact congrArg (fun names => { st' with envAccessNames := names }) haccess
    · rw [hsome] at haccess ⊢
      rw [haccess]
      rfl
  refine ⟨{ st' with envAccessNames := acc.1.envAccessNames }, ?_, ?_⟩
  · unfold genNested
    dsimp only
    rw [hpushed, hgen]
    simp only [Option.bind_eq_bind, Option.bind_some, hcontains', hpopped]
    rfl
  · have hsub : procNames np.nestedProcs ⊆ procNames [np] :=
      procNames_nested_subset mem_cons_self
    constructor
    · exact fun n hn => hunchanged.closureEnvType n fun hn' => hn (hsub hn')
    · intro n hn
      rw [hunchanged.nestedProcNames n fun hn' => hn (hsub hn'), NameMap.get_insert, if_neg]
      rintro rfl
      exact hn (mem_procNames mem_cons_self)
    · exact hunchanged.closureEnvFields
    · rfl
    · exact hunchanged.parentProcStack

/-- Every forest of nested procedures is emitted from its own declarations. -/
theorem emitsOwns : ∀ (nps : List HirProcDecl), ∃ n, EmitsOwns m c n nps
  | [] => by
    refine ⟨0, fun fuel _ acc parent chain scope closures _ => ⟨acc.1, ?_, .refl _ _ _⟩⟩
    simp [genOwns]
  | ⟨sig, body, locals, nested, captures, cfg⟩ :: nps => by
    obtain ⟨n, hn⟩ := emitsOwns nested
    obtain ⟨n', hn'⟩ := emitsOwns nps
    set np : HirProcDecl := ⟨sig, body, locals, nested, captures, cfg⟩ with hnp
    refine ⟨max (n + 1) n', fun fuel hfuel acc parent chain scope closures hready => ?_⟩
    have hown : EmitsOwn m c (n + 1) np := emitsOwn_of_nested hd hb hc hn
    have hfuel' : n + 1 ≤ fuel ∧ n' ≤ fuel := by omega
    obtain ⟨st, hfirst, hunchanged⟩ := genNested_of_ready hd hb hc hown hfuel'.1 hready scope
    obtain ⟨st', hrest, hunchanged'⟩ := hn' fuel hfuel'.2
      (st, acc.2 ++ genOwn c (.found m c) (chainParts (parent :: chain))
        (ownEnv c parent.name scope closures (ownNestedParts np)) np)
      parent chain scope closures (hready.tail hunchanged)
    refine ⟨st', ?_, ?_⟩
    · rw [map_cons, foldlM_cons, hfirst, genOwns, ← append_assoc]
      exact hrest
    · have htrans := hunchanged.trans hunchanged'
      rwa [show procNames [np] ++ procNames nps = procNames (np :: nps) by
        simp [procNames_cons]] at htrans

theorem emitsOwn (pd : HirProcDecl) : ∃ n, EmitsOwn m c n pd := by
  obtain ⟨n, hn⟩ := emitsOwns hd hb hc pd.nestedProcs
  exact ⟨n + 1, emitsOwn_of_nested hd hb hc hn⟩

end Emits

/-! ## The module -/

theorem preorder_sublist {ps qs : List HirProcDecl} (h : ps.Sublist qs) :
    (preorder ps).Sublist (preorder qs) := by
  induction h with
  | slnil => exact List.Sublist.refl _
  | cons q _ ih =>
    rw [preorder_cons]
    exact (ih.trans (sublist_append_right _ _)).cons _
  | cons_cons q _ ih =>
    rw [preorder_cons, preorder_cons]
    exact ((List.Sublist.refl _).append ih).cons_cons _

/-- What the loop over the procedures of the module finds for those that are still to come. -/
structure TopsReady (m : HirModule) (st : GenState) (tops : List HirProcDecl) : Prop where
  mem : ∀ pd ∈ tops, pd ∈ m.procDecls
  nodup : (procNames tops).Nodup
  parentProcStack : st.parentProcStack = []
  envType : ∀ n ∈ procNames tops, st.closureEnvType.get n = none
  cName : ∀ pd ∈ tops,
    st.nestedProcNames.get pd.name = (initialState m).nestedProcNames.get pd.name
  fields : ∀ n ∈ procNames tops, st.closureEnvFields.get (envTypeName n) = none

variable {m : HirModule}

theorem TopsReady.ready {st : GenState}
    (h : TopsReady m st (pd :: tops)) : Ready m st [] none pd := by
  have hself : procNames [pd] ⊆ procNames (pd :: tops) := by
    intro n hn
    simp only [procNames_cons, procNames_nil, append_nil, mem_cons, mem_append]
      at hn ⊢
    tauto
  have hnodup := h.nodup
  rw [show procNames (pd :: tops) = procNames [pd] ++ procNames tops by simp [procNames_cons]]
    at hnodup
  constructor
  · exact mem_preorder (h.mem pd mem_cons_self)
  · simp
  · exact (nodup_append.mp hnodup).1
  · exact h.parentProcStack
  · exact h.envType _ (mem_procNames mem_cons_self)
  · exact fun n hn => h.envType n (procNames_nested_subset mem_cons_self hn)
  · exact h.cName pd mem_cons_self
  · simp
  · simp
  · exact fun n hn => h.fields n (hself hn)

theorem TopsReady.tail {m : HirModule} {st : GenState} {pd : HirProcDecl}
    (h : TopsReady m st (pd :: tops))
    (hunchanged : Unchanged (procNames pd.nestedProcs) (procNames [pd]) st st') :
    TopsReady m st' tops := by
  have hnodup := h.nodup
  rw [procNames_cons, nodup_cons, nodup_append, mem_append, not_or] at hnodup
  obtain ⟨⟨-, hpd⟩, -, hrest, hdisjoint⟩ := hnodup
  have hmem : ∀ n ∈ procNames tops, n ∈ procNames (pd :: tops) := by
    intro n hn
    rw [procNames_cons]
    exact mem_cons_of_mem _ (mem_append_right _ hn)
  have hnested : ∀ n ∈ procNames tops, n ∉ procNames pd.nestedProcs :=
    fun n hn hn' => hdisjoint n hn' n hn rfl
  constructor
  · exact fun q hq => h.mem q (mem_cons_of_mem _ hq)
  · exact hrest
  · rw [hunchanged.parentProcStack, h.parentProcStack]
  · intro n hn
    rw [hunchanged.closureEnvType n (hnested n hn), h.envType n (hmem n hn)]
  · intro q hq
    rw [hunchanged.nestedProcNames _ (hnested _ (mem_procNames hq)),
      h.cName q (mem_cons_of_mem _ hq)]
  · intro n hn
    rw [hunchanged.closureEnvFields n, h.fields n (hmem n hn)]
    rw [procNames_cons, procNames_nil, append_nil, mem_cons, not_or]
    exact ⟨fun heq => hpd (heq ▸ hn), hnested n hn⟩

/-- The procedures of the module are emitted in order. -/
theorem genTops_eq_genOwn {c : EmitContext} (hd : m.DistinctNames) (hb : m.Built)
    (hc : c.moduleName = m.name) (tops : List HirProcDecl) :
    ∃ n, ∀ fuel ≥ n, ∀ acc : GenState × List ProcEmission, TopsReady m acc.1 tops →
      ∃ st', (tops.map HirProcDecl.name).foldlM (genNext m c fuel) acc =
        some (st', acc.2 ++ tops.flatMap (genOwn c (.found m c) [] none)) := by
  induction tops with
  | nil => exact ⟨0, fun fuel _ acc _ => ⟨acc.1, by simp⟩⟩
  | cons pd tops ih =>
    obtain ⟨n, hn⟩ := emitsOwn hd hb hc pd
    obtain ⟨n', hn'⟩ := ih
    refine ⟨max n n', fun fuel hfuel acc hready => ?_⟩
    have hfuel' : n ≤ fuel ∧ n' ≤ fuel := by omega
    obtain ⟨st, hfirst, hunchanged⟩ := hn fuel hfuel'.1 _ _ _ hready.ready
    obtain ⟨st', hrest⟩ := hn' fuel hfuel'.2 (st, acc.2 ++ genOwn c (.found m c) [] none pd)
      (hready.tail hunchanged)
    refine ⟨st', ?_⟩
    have hnext : genNext m c fuel acc pd.name =
        some (st, acc.2 ++ genOwn c (.found m c) [] none pd) := by
      rw [genNext, hfirst]
      rfl
    rw [map_cons, foldlM_cons, hnext, flatMap_cons, ← append_assoc]
    exact hrest

theorem topsReady_initialState (hd : m.DistinctNames)
    (htops : tops.Sublist m.procDecls) : TopsReady m (initialState m) tops where
  mem pd hpd := htops.subset hpd
  nodup := List.Nodup.sublist ((preorder_sublist htops).map _) hd
  parentProcStack := rfl
  envType _ _ := rfl
  cName _ _ := rfl
  fields _ _ := rfl

/-- If the names are distinct, the functions are those of the declarations, as `gen_proc_by_name`
sees the procedures around each. -/
theorem genProcs_eq_genTrees {c : EmitContext} (hd : m.DistinctNames) (hb : m.Built)
    (hc : c.moduleName = m.name) :
    ∃ n, ∀ fuel ≥ n, genProcs m c fuel = some (genTrees m c (.found m c)) := by
  obtain ⟨n, hn⟩ := genTops_eq_genOwn hd hb hc (m.procDecls.filter fun pd => !pd.sig.isNested)
  refine ⟨n, fun fuel hfuel => ?_⟩
  obtain ⟨st', hfold⟩ := hn fuel hfuel (initialState m, [])
    (topsReady_initialState hd filter_sublist)
  rw [genProcs, hfold]
  rfl

/-! ## Names apart -/

/-- The names of the procedures are pairwise distinct, a procedure with procedures two levels below
it has no underscore in its name, and no outermost procedure without an `EXPORTC` name has the name
of one that is nested in a procedure of an embedded module. -/
structure HirModule.NamesApart (m : HirModule) : Prop where
  distinct : m.DistinctNames
  plain : ∀ pd ∈ preorder m.procDecls, ∀ np ∈ pd.nestedProcs, np.nestedProcs ≠ [] →
    '_' ∉ pd.name.toList
  embedded : ∀ pd ∈ m.procDecls, pd.sig.exportCName = none →
    pd.name ∉ (embeddedNames m).map Prod.fst

/-- The procedures around those of a forest can be found by what follows the last underscore. -/
structure FoundAround (m : HirModule) (chain nps : List HirProcDecl) : Prop where
  mem : ∀ np ∈ nps, np ∈ preorder m.procDecls
  chain_mem : ∀ q ∈ chain, q ∈ preorder m.procDecls
  plain : ∀ np ∈ nps, np.nestedProcs ≠ [] → ∀ q ∈ chain, '_' ∉ q.name.toList
  nodup : (chain.map HirProcDecl.name ++ procNames nps).Nodup

variable {c : EmitContext} {chain : List HirProcDecl}

theorem FoundAround.head (h : FoundAround m chain (np :: nps)) : FoundAround m chain [np] where
  mem := by simpa using h.mem np mem_cons_self
  chain_mem := h.chain_mem
  plain := by simpa using h.plain np mem_cons_self
  nodup := by
    refine List.Nodup.sublist (List.Sublist.append (List.Sublist.refl _) ?_) h.nodup
    rw [procNames_cons, procNames_cons, procNames_nil, append_nil]
    exact (sublist_append_left _ _).cons_cons _

theorem FoundAround.tail (h : FoundAround m chain (np :: nps)) : FoundAround m chain nps where
  mem q hq := h.mem q (mem_cons_of_mem _ hq)
  chain_mem := h.chain_mem
  plain q hq := h.plain q (mem_cons_of_mem _ hq)
  nodup := by
    refine List.Nodup.sublist (List.Sublist.append (List.Sublist.refl _) ?_) h.nodup
    rw [procNames_cons]
    exact (sublist_append_right _ _).cons _

theorem FoundAround.nested (ha : m.NamesApart) (h : FoundAround m chain [pd]) :
    FoundAround m (pd :: chain) pd.nestedProcs where
  mem np hnp := nested_subset_preorder _ (h.mem pd mem_cons_self) hnp
  chain_mem := forall_mem_cons.mpr ⟨h.mem pd mem_cons_self, h.chain_mem⟩
  plain np hnp hne := forall_mem_cons.mpr ⟨ha.plain pd (h.mem pd mem_cons_self) np hnp hne,
    h.plain pd mem_cons_self (ne_nil_of_mem hnp)⟩
  nodup := by
    have hnodup := h.nodup
    rw [procNames_cons, procNames_nil, append_nil] at hnodup
    rw [map_cons, cons_append]
    exact perm_middle.nodup_iff.mp hnodup

theorem around_found (ha : m.NamesApart) (hb : m.Built) (hc : c.moduleName = m.name)
    (h : FoundAround m chain [pd]) (hnested : pd.nestedProcs ≠ []) :
    (Outlook.found m c).around pd.name (chainParts chain) =
      (Outlook.declared c).around pd.name (chainParts chain) := by
  have hsegments : (chainParts chain).map (fun q => lastSegment q.1) =
      chain.map HirProcDecl.name := by
    rw [chainParts, map_map]
    exact map_congr_left fun q hq =>
      lastSegment_of_plain (h.plain pd mem_cons_self hnested q hq)
  have hnames : (chain.map HirProcDecl.name).filter (· ≠ pd.name) =
      chain.map HirProcDecl.name := by
    rw [filter_eq_self]
    intro n hn
    have hdisjoint := (nodup_append.mp h.nodup).2.2 n hn pd.name (mem_procNames mem_cons_self)
    simpa using hdisjoint
  change (((chainParts chain).map fun q => lastSegment q.1).filter _).map _ =
    (chainParts chain).map Prod.snd
  rw [hsegments, hnames, chainParts, map_map, map_map]
  apply map_congr_left
  intro q hq
  have hq := h.chain_mem q hq
  simp only [Function.comp_apply, ancestorParts, hc, findNestedProcSig_of_mem ha.distinct hq hb,
    searchProcs_of_mem _ ha.distinct hq]

/-- A procedure is seen with its own declarations if the ones in it are. -/
theorem genOwn_found_of_nested (ha : m.NamesApart) (hb : m.Built) (hc : c.moduleName = m.name)
    (h : FoundAround m chain [pd])
    (hname : ownName (.found m c) (chainParts chain) pd.sig =
      ownName (.declared c) (chainParts chain) pd.sig)
    (hnested : ∀ scope closures,
      genOwns c (.found m c) (chainParts (pd :: chain)) pd.name scope closures pd.nestedProcs =
        genOwns c (.declared c) (chainParts (pd :: chain)) pd.name scope closures pd.nestedProcs)
    (env : Option OwnEnv) :
    genOwn c (.found m c) (chainParts chain) env pd =
      genOwn c (.declared c) (chainParts chain) env pd := by
  rw [genOwn_eq, genOwn_eq]
  dsimp only
  rw [hname]
  -- without nested procedures nothing depends on the scope
  obtain hnil | hne := eq_or_ne pd.nestedProcs []
  · rw [hnil]
    rfl
  · rw [around_found ha hb hc h hne]
    exact congrArg (· ++ _) (hnested _ _)

theorem genOwns_found {m : HirModule} {c : EmitContext} (ha : m.NamesApart) (hb : m.Built)
    (hc : c.moduleName = m.name) : ∀ (nps chain : List HirProcDecl) (parent : HirProcDecl)
    (scope : NameMap String) (closures : Closures), FoundAround m (parent :: chain) nps →
    genOwns c (.found m c) (chainParts (parent :: chain)) parent.name scope closures nps =
      genOwns c (.declared c) (chainParts (parent :: chain)) parent.name scope closures nps
  | [], _, _, _, _, _ => by
    rw [genOwns, genOwns]
  | ⟨sig, body, locals, nested, captures, cfg⟩ :: nps, chain, parent, scope, closures, h => by
    have hrest := genOwns_found ha hb hc nps chain parent scope closures h.tail
    have hnested := fun scope closures => genOwns_found ha hb hc nested (parent :: chain)
      ⟨sig, body, locals, nested, captures, cfg⟩ scope closures (h.head.nested ha)
    rw [genOwns, genOwns, hrest, genOwn_found_of_nested ha hb hc h.head rfl hnested]

/-- If the names are apart, every procedure around is seen with its own declarations. -/
theorem genTrees_found (ha : m.NamesApart) (hb : m.Built) (hc : c.moduleName = m.name) :
    genTrees m c (.found m c) = genOwnProcs m c := by
  refine congrArg List.flatten (map_congr_left fun pd hpd => ?_)
  have hmem : pd ∈ m.procDecls := (mem_filter.mp hpd).1
  have hfound : FoundAround m [] [pd] := by
    constructor
    · simpa using mem_preorder hmem
    · simp
    · simp
    · exact List.Nodup.sublist
        ((preorder_sublist (singleton_sublist.mpr hmem)).map _) ha.distinct
  have hname : ownName (.found m c) [] pd.sig = ownName (.declared c) [] pd.sig := by
    cases hexport : pd.sig.exportCName with
    | some name => rw [ownName, ownName, hexport, Option.getD_some, Option.getD_some]
    | none =>
      have hfresh := ha.embedded pd hmem hexport
      rw [ownName, ownName, hexport, Option.getD_none, Option.getD_none]
      change ((initialState m).nestedProcNames.get pd.name).getD _ = _
      rw [initialState, get_foldl_insert_of_not_mem _ _ _ hfresh]
      rfl
  exact genOwn_found_of_nested ha hb hc hfound hname
    (fun scope closures => genOwns_found ha hb hc _ _ _ scope closures (hfound.nested ha)) none

/-- Every C function comes from its own declaration, with all of its parts. -/
def EmitsFromOwnDecls (m : HirModule) (c : EmitContext) : Prop :=
  ∃ n, ∀ fuel ≥ n, genProcs m c fuel = some (genOwnProcs m c)

theorem emitsFromOwnDecls_of_namesApart (ha : m.NamesApart) (hb : m.Built)
    (hc : c.moduleName = m.name) : EmitsFromOwnDecls m c := by
  obtain ⟨n, hn⟩ := genProcs_eq_genTrees ha.distinct hb hc
  exact ⟨n, fun fuel hfuel => genTrees_found ha hb hc ▸ hn fuel hfuel⟩

end Mx.HirBuild

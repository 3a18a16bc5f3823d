import Mx.HirBuild.Captures
import Mx.HirBuild.GenOwn

/-!
# The capture lists of the C backend

What `gen_proc_by_name` lets a nested procedure reach through its environment, in terms of the
collectors and of the scope of the procedure around it.
-/

namespace Mx.HirBuild

open List

/-! ## The entries of the closure analysis -/

/-- The captured names recorded for a procedure. -/
def Closures.recorded (cl : Closures) (proc : String) : List String :=
  (cl.children.lookup proc).getD []

section Closures

variable {c : EmitContext} {scope : NameMap String}

theorem mem_recorded_addTo (proc name : String) (children : List (String × List String))
    (p v : String) :
    v ∈ ((Closures.addTo proc name children).lookup p).getD [] ↔
      v ∈ (children.lookup p).getD [] ∨ p = proc ∧ v = name := by
  induction children with
  | nil =>
    by_cases hp : p = proc
    · simp [Closures.addTo, hp]
    · have hbeq : (p == proc) = false := by simpa using hp
      simp [Closures.addTo, List.lookup, hbeq, hp]
  | cons ch children ih =>
    obtain ⟨q, names⟩ := ch
    rw [Closures.addTo]
    by_cases hproc : q = proc
    · rw [if_pos hproc]
      by_cases hp : p = q
      · have hbeq : (p == q) = true := by simpa using hp
        simp only [lookup_cons, hbeq, Option.getD_some]
        split_ifs with hmem
        · constructor
          · exact .inl
          · rintro (h | ⟨-, rfl⟩)
            · exact h
            · exact hmem
        · rw [mem_append, mem_singleton]
          simp [hp, hproc]
      · have hbeq : (p == q) = false := by simpa using hp
        have hne : p ≠ proc := fun h => hp (h.trans hproc.symm)
        simp [lookup_cons, hbeq, hne]
    · rw [if_neg hproc]
      by_cases hp : p = q
      · have hbeq : (p == q) = true := by simpa using hp
        have hne : p ≠ proc := fun h => hproc (hp.symm.trans h)
        simp [lookup_cons, hbeq, hne]
      · have hbeq : (p == q) = false := by simpa using hp
        simpa only [lookup_cons, hbeq] using ih

theorem mem_recorded_forward (np : String) (names : List String) (cl : Closures) (p v : String) :
    v ∈ (names.foldl (fun cl name => (cl.addField scope name).addCapture np name) cl).recorded p ↔
      v ∈ cl.recorded p ∨ p = np ∧ v ∈ names := by
  induction names generalizing cl with
  | nil => simp
  | cons name names ih =>
    rw [foldl_cons, ih]
    have hone : v ∈ ((cl.addField scope name).addCapture np name).recorded p ↔
        v ∈ cl.recorded p ∨ p = np ∧ v = name := by
      rw [Closures.recorded, Closures.addCapture, mem_recorded_addTo, children_addField]
      rfl
    rw [hone, mem_cons]
    tauto

/-- What one nested procedure adds: its own captures and the names that it forwards. -/
theorem mem_recorded_addChild {cl : Closures} {np : NestedParts}
    (hfresh : np.name ∉ cl.children.map Prod.fst) (p v : String) :
    v ∈ (cl.addChild c scope np).recorded p ↔
      v ∈ cl.recorded p ∨ p = np.name ∧
        (v ∈ directCaptures c scope np ∨ v ∈ np.grandchildRefs ∧ scope.contains v) := by
  rw [Closures.addChild]
  dsimp only
  rw [mem_recorded_forward, mem_filter]
  have hnone : cl.children.lookup np.name = none := by
    rw [← Option.not_isSome_iff_eq_none, lookup_isSome_iff]
    exact hfresh
  have hdirect : v ∈ (if (directCaptures c scope np).isEmpty then cl
      else { (directCaptures c scope np).foldl (Closures.addField scope) cl with
        children := cl.children ++ [(np.name, directCaptures c scope np)] } : Closures).recorded p ↔
      v ∈ cl.recorded p ∨ p = np.name ∧ v ∈ directCaptures c scope np := by
    split_ifs with hempty
    · rw [List.isEmpty_iff.mp hempty]
      simp
    · rw [Closures.recorded, Closures.recorded, lookup_append]
      by_cases hp : p = np.name
      · simp [hp, hnone]
      · have hbeq : (p == np.name) = false := by simpa using hp
        simp [hp, List.lookup, hbeq]
  rw [hdirect]
  tauto

/-- The entry of a nested procedure holds its own captures and the names that it forwards. -/
theorem mem_recorded_analyzeClosures {nps : List NestedParts}
    (hnodup : (nps.map NestedParts.name).Nodup) {np : NestedParts} (hnp : np ∈ nps) (v : String) :
    v ∈ (analyzeClosures c scope nps).recorded np.name ↔
      v ∈ directCaptures c scope np ∨ v ∈ np.grandchildRefs ∧ scope.contains v := by
  have hfold : ∀ (nps : List NestedParts) (cl : Closures), (nps.map NestedParts.name).Nodup →
      (∀ n ∈ nps.map NestedParts.name, n ∉ cl.children.map Prod.fst) → ∀ p,
      (v ∈ (nps.foldl (Closures.addChild c scope) cl).recorded p ↔
        v ∈ cl.recorded p ∨ ∃ np ∈ nps, p = np.name ∧
          (v ∈ directCaptures c scope np ∨ v ∈ np.grandchildRefs ∧ scope.contains v)) := by
    intro nps
    induction nps with
    | nil => simp
    | cons first nps ih =>
      intro cl hnodup hfresh p
      rw [map_cons, nodup_cons] at hnodup
      have hfirst := hfresh first.name (by simp)
      have hrest : ∀ n ∈ nps.map NestedParts.name,
          n ∉ (cl.addChild c scope first).children.map Prod.fst := by
        intro n hn hmem
        obtain rfl | hmem := keys_addChild c scope cl first n hmem
        · exact hnodup.1 hn
        · exact hfresh n (by simp [mem_map.mp hn]) hmem
      rw [foldl_cons, ih _ hnodup.2 hrest, mem_recorded_addChild hfirst]
      simp only [mem_cons, exists_eq_or_imp, or_assoc]
  have hall := hfold nps {} hnodup (by simp) np.name
  rw [analyzeClosures, hall]
  constructor
  · rintro (h | ⟨np', hnp', hname, h⟩)
    · exact absurd h (by simp [Closures.recorded])
    · rwa [inj_on_of_nodup_map hnodup hnp hnp' hname]
  · exact fun h => .inr ⟨np, hnp, rfl, h⟩

theorem mem_accessNames (direct recorded : List String) (v : String) :
    v ∈ accessNames direct recorded ↔ v ∈ direct ∨ v ∈ recorded := by
  induction recorded generalizing direct with
  | nil => simp [accessNames]
  | cons name recorded ih =>
    rw [accessNames, foldl_cons, ← accessNames, ih, mem_cons]
    split_ifs with hmem
    · constructor
      · tauto
      · rintro (h | rfl | h)
        · exact .inl h
        · exact .inl hmem
        · exact .inr h
    · rw [mem_append, mem_singleton]
      tauto

end Closures

/-! ## Captures of a procedure itself -/

/-- A procedure uses a name that is not its own, where `collect_hir_refs_in_stmts` looks for it,
and the name is not taken for one of the rest of the program. -/
def NestedParts.Uses (c : EmitContext) (np : NestedParts) (name : String) : Prop :=
  (∃ body, np.body = some body ∧ name ∈ collectHirRefs body) ∧
    name ∉ np.params ++ np.localNames ++ [np.name] ∧ c.captures.isBuiltinProc name = false ∧
    name ∉ c.captures.importMap ∧ name ∉ c.captures.importedModules

theorem contains_outer (c : EmitContext) (scope : NameMap String) (name : String) :
    NameMap.contains (scope.map fun v => (v.1, (c.lookupAny v.1).getD tyInteger)) name =
      scope.contains name := by
  rw [Bool.eq_iff_iff, NameMap.contains, NameMap.contains, NameMap.get, NameMap.get,
    lookup_isSome_iff, lookup_isSome_iff, map_map]
  rfl

theorem mem_names_computeCapturesHir {c : CaptureContext} {procName : String} {body : List HirStmt}
    {params localNames : List String} {outer : NameMap TypeId} (v : String) :
    v ∈ (computeCapturesHir c procName body params localNames outer).map CapturedVar.name ↔
      v ∈ capturedNames c procName body params localNames outer ∨
        v ∈ highCompanions outer (capturedNames c procName body params localNames outer) := by
  have hname : ∀ high, CapturedVar.name ∘ capturedVar outer high = id := fun _ => rfl
  have hperm := (mergeSort_perm
    ((capturedNames c procName body params localNames outer).map (capturedVar outer false) ++
      (highCompanions outer (capturedNames c procName body params localNames outer)).map
        (capturedVar outer true)) fun a b => a.name ≤ b.name).map CapturedVar.name
  rw [computeCapturesHir, hperm.mem_iff, map_append, map_map, map_map, hname, hname,
    map_id, map_id, mem_append]

variable {c : EmitContext}

theorem mem_capturedNames {scope : NameMap String} {np : NestedParts}
    {body : List HirStmt} (hbody : np.body = some body) (v : String) :
    v ∈ capturedNames c.captures np.name body np.params np.localNames
        (scope.map fun v => (v.1, (c.lookupAny v.1).getD tyInteger)) ↔
      np.Uses c v ∧ scope.contains v := by
  have hrefs : (∃ b, np.body = some b ∧ v ∈ collectHirRefs b) ↔ v ∈ collectHirRefs body := by
    rw [hbody]
    simp
  rw [capturedNames, mem_filter, mem_dedup, NestedParts.Uses, hrefs, contains_outer]
  simp only [Bool.and_eq_true, Bool.not_eq_true', contains_eq_mem, decide_eq_false_iff_not]
  tauto

/-- A procedure captures what it uses of the scope around it, and the bounds of open arrays. -/
theorem mem_directCaptures {scope : NameMap String} {np : NestedParts} (v : String) :
    v ∈ directCaptures c scope np ↔ scope.contains v ∧
      (np.Uses c v ∨ ∃ w, np.Uses c w ∧ scope.contains w ∧ v = w ++ "_high") := by
  unfold directCaptures
  dsimp only
  split
  · next body hbody =>
    rw [mem_names_computeCapturesHir, mem_capturedNames hbody, highCompanions, mem_filter,
      mem_map, contains_outer]
    simp only [mem_capturedNames hbody, Bool.and_eq_true, Bool.not_eq_true', contains_eq_mem,
      decide_eq_false_iff_not]
    constructor
    · rintro (⟨huses, hv⟩ | ⟨⟨w, ⟨huses, hw⟩, rfl⟩, hv, -⟩)
      · exact ⟨hv, .inl huses⟩
      · exact ⟨hv, .inr ⟨w, huses, hw, rfl⟩⟩
    · rintro ⟨hv, huses | ⟨w, huses, hw, rfl⟩⟩
      · exact .inl ⟨huses, hv⟩
      · by_cases hown : np.Uses c (w ++ "_high") ∧ scope.contains (w ++ "_high") = true
        · exact .inl hown
        · exact .inr ⟨⟨w, ⟨huses, hw⟩, rfl⟩, hv, hown⟩
  · next hbody =>
    have hnone : ∀ w, ¬ np.Uses c w := by
      rintro w ⟨⟨body, hsome, -⟩, -⟩
      rw [hbody] at hsome
      exact absurd hsome (by simp)
    simp [hnone]

/-! ## Scopes of procedures -/

theorem contains_insert {β : Type} (t : NameMap β) (key : String) (x : β) (name : String) :
    (t.insert key x).contains name ↔ name = key ∨ t.contains name := by
  rw [NameMap.contains, NameMap.get_insert, NameMap.contains]
  by_cases h : name = key
  · simp [h]
  · simp [h]

theorem contains_orInsert {β : Type} (t : NameMap β) (key : String) (x : β) (name : String) :
    (t.orInsert key x).contains name ↔ name = key ∨ t.contains name := by
  rw [NameMap.orInsert]
  split_ifs with h
  · constructor
    · exact .inr
    · rintro (rfl | hname)
      · exact h
      · exact hname
  · exact contains_insert t key x name

theorem contains_addOuter (c : EmitContext) (outer : List (String × TypeId)) (t : NameMap String)
    (name : String) :
    (addOuter c outer t).contains name ↔ t.contains name ∨ name ∈ outer.map Prod.fst := by
  induction outer generalizing t with
  | nil => simp [addOuter]
  | cons v outer ih =>
    rw [addOuter, foldl_cons, ← addOuter, ih, contains_orInsert, map_cons, mem_cons]
    tauto

theorem contains_addParams (c : EmitContext) (params : List HirParamDecl) (t : NameMap String)
    (name : String) :
    (addParams c params t).contains name ↔ t.contains name ∨
      name ∈ params.map HirParamDecl.name ∨
      name ∈ (params.filter HirParamDecl.isOpenArray).map fun p => p.name ++ "_high" := by
  induction params generalizing t with
  | nil => simp [addParams]
  | cons p params ih =>
    rw [addParams, foldl_cons, ← addParams, ih, map_cons, mem_cons, filter_cons]
    split_ifs with hopen
    · rw [contains_insert, contains_insert, map_cons, mem_cons]
      tauto
    · rw [contains_insert]
      tauto

theorem contains_addEnvVars (fields : List (String × String)) (access : List String)
    (t : NameMap String) (name : String) :
    (addEnvVars fields access t).contains name ↔ t.contains name ∨
      name ∈ access ∧ (fields.lookup name).isSome := by
  induction access generalizing t with
  | nil => simp [addEnvVars]
  | cons a access ih =>
    rw [addEnvVars, foldl_cons, ← addEnvVars, ih, mem_cons]
    by_cases ha : t.contains a
    · rw [if_pos ha]
      constructor
      · tauto
      · rintro (h | ⟨rfl | h, hsome⟩)
        · exact .inl h
        · exact .inl ha
        · exact .inr ⟨h, hsome⟩
    · rw [if_neg ha]
      cases hlookup : fields.lookup a with
      | none =>
        dsimp only
        constructor
        · tauto
        · rintro (h | ⟨rfl | h, hsome⟩)
          · exact .inl h
          · rw [hlookup] at hsome
            exact absurd hsome (by simp)
          · exact .inr ⟨h, hsome⟩
      | some ty =>
        dsimp only
        rw [contains_insert]
        constructor
        · rintro ((rfl | h) | h)
          · exact .inr ⟨.inl rfl, by rw [hlookup]; rfl⟩
          · exact .inl h
          · exact .inr ⟨.inr h.1, h.2⟩
        · tauto

/-- The names of the parameters and variables among the parts of a scope. -/
def scopeNames (parts : ScopeParts) : List String :=
  ((parts.1.map HirProcSig.params).getD []).map HirParamDecl.name ++
    (localVars (parts.2.getD [])).map Prod.fst

theorem contains_scopeVars (c : EmitContext) (pd : HirProcDecl) (ancestors : List ScopeParts)
    (name : String) :
    (scopeVars c (some pd.sig, some pd.locals) ancestors).contains name ↔
      name ∈ pd.ownNames ∨ name ∈ pd.highNames ∨ ∃ a ∈ ancestors, name ∈ scopeNames a := by
  have hlocals : ∀ (locals : List (String × TypeId)) (t : NameMap String),
      NameMap.contains (locals.foldl (fun vars v => vars.insert v.1 (c.typeIdToC v.2)) t) name ↔
        t.contains name ∨ name ∈ locals.map Prod.fst := by
    intro locals
    induction locals with
    | nil => simp
    | cons v locals ih =>
      intro t
      rw [foldl_cons, ih, contains_insert, map_cons, mem_cons]
      tauto
  have hancestors : ∀ (ancestors : List ScopeParts) (t : NameMap String),
      NameMap.contains (ancestors.foldl (fun vars (a : ScopeParts) =>
        addOuter c (localVars (a.2.getD []))
          (addOuter c (((a.1.map HirProcSig.params).getD []).map fun p => (p.name, p.typeId)) vars))
        t) name ↔ t.contains name ∨ ∃ a ∈ ancestors, name ∈ scopeNames a := by
    intro ancestors
    induction ancestors with
    | nil => simp
    | cons a ancestors ih =>
      intro t
      rw [foldl_cons, ih, contains_addOuter, contains_addOuter]
      simp only [map_map, mem_cons, exists_eq_or_imp, scopeNames, mem_append, or_assoc]
      rfl
  rw [scopeVars]
  dsimp only
  rw [hancestors, hlocals, contains_addParams, HirProcDecl.ownNames, HirProcDecl.highNames]
  simp only [Option.map_some, Option.getD_some, mem_append]
  have hempty : NameMap.contains ([] : NameMap String) name = false := rfl
  rw [hempty]
  tauto

/-- The environment of a nested procedure, by the procedures around it. -/
def ownEnvAt (m : HirModule) (c : EmitContext) : List HirProcDecl → HirProcDecl → Option OwnEnv
  | [], _ => none
  | p :: chain, np =>
    let scope := ownScope c (some p.sig, some p.locals)
      ((Outlook.found m c).around p.name (chainParts chain)) (ownEnvAt m c chain p)
    ownEnv c p.name scope (analyzeClosures c scope (p.nestedProcs.map ownNestedParts))
      (ownNestedParts np)

/-- The scope of a procedure, by the procedures around it. -/
def scopeAt (m : HirModule) (c : EmitContext) (chain : List HirProcDecl) (p : HirProcDecl) :
    NameMap String :=
  ownScope c (some p.sig, some p.locals)
    ((Outlook.found m c).around p.name (chainParts chain)) (ownEnvAt m c chain p)

/-- The closure analysis of a procedure, by the procedures around it. -/
def closuresAt (m : HirModule) (c : EmitContext) (chain : List HirProcDecl) (p : HirProcDecl) :
    Closures :=
  analyzeClosures c (scopeAt m c chain p) (p.nestedProcs.map ownNestedParts)

/-- The names that a nested procedure reaches through its environment. -/
def captureList (m : HirModule) (c : EmitContext) (chain : List HirProcDecl) (np : HirProcDecl) :
    List String :=
  ((ownEnvAt m c chain np).map OwnEnv.access).getD []

variable {m : HirModule} {chain : List HirProcDecl} {p np : HirProcDecl}

theorem contains_scopeAt (m : HirModule) (c : EmitContext) (chain : List HirProcDecl)
    (p : HirProcDecl) (name : String) :
    (scopeAt m c chain p).contains name ↔
      (name ∈ p.ownNames ∨ name ∈ p.highNames ∨
        ∃ a ∈ (Outlook.found m c).around p.name (chainParts chain), name ∈ scopeNames a) ∨
      ∃ e ∈ ownEnvAt m c chain p, name ∈ e.access ∧ (e.fields.lookup name).isSome := by
  rw [scopeAt]
  cases ownEnvAt m c chain p with
  | none => simp [ownScope, contains_scopeVars]
  | some e => simp [ownScope, contains_addEnvVars, contains_scopeVars]

/-- The access names of a nested procedure are those recorded for it. -/
theorem mem_captureList_iff_recorded (hnodup : p.childNames.Nodup) (hnp : np ∈ p.nestedProcs)
    (v : String) :
    v ∈ captureList m c (p :: chain) np ↔ v ∈ (closuresAt m c chain p).recorded np.name := by
  have hnames : ((p.nestedProcs.map ownNestedParts).map NestedParts.name).Nodup := by
    rw [map_map]
    exact hnodup
  have hrecorded : v ∈ (closuresAt m c chain p).recorded np.name ↔ _ ∨ _ :=
    mem_recorded_analyzeClosures hnames (mem_map_of_mem hnp) v
  rw [captureList, ownEnvAt]
  change v ∈ ((ownEnv c p.name (scopeAt m c chain p) (closuresAt m c chain p)
    (ownNestedParts np)).map OwnEnv.access).getD [] ↔ _
  have hname : (ownNestedParts np).name = np.name := rfl
  rw [ownEnv, hname, Option.map_map]
  rw [Closures.recorded] at hrecorded ⊢
  cases hlookup : (closuresAt m c chain p).children.lookup np.name with
  | none => simp
  | some recorded =>
    rw [hlookup] at hrecorded
    rw [Option.map_some, Option.getD_some, Option.getD_some, Function.comp_apply, mem_accessNames]
    constructor
    · rintro (h | h)
      · exact hrecorded.mpr (.inl h)
      · exact h
    · exact .inr

/-- A nested procedure reaches what it uses of the scope around it, the bounds of the open arrays
among that, and what the procedures nested in it read. -/
theorem mem_captureList (hnodup : p.childNames.Nodup) (hnp : np ∈ p.nestedProcs) (v : String) :
    v ∈ captureList m c (p :: chain) np ↔ (scopeAt m c chain p).contains v ∧
      ((ownNestedParts np).Uses c v ∨
        (∃ w, (ownNestedParts np).Uses c w ∧ (scopeAt m c chain p).contains w ∧
          v = w ++ "_high") ∨
        v ∈ nestedRefs np.nestedProcs) := by
  have hnames : ((p.nestedProcs.map ownNestedParts).map NestedParts.name).Nodup := by
    rw [map_map]
    exact hnodup
  have hrecorded : v ∈ (closuresAt m c chain p).recorded np.name ↔
      v ∈ directCaptures c (scopeAt m c chain p) (ownNestedParts np) ∨
        v ∈ nestedRefs np.nestedProcs ∧ (scopeAt m c chain p).contains v :=
    mem_recorded_analyzeClosures hnames (mem_map_of_mem hnp) v
  rw [mem_captureList_iff_recorded hnodup hnp, hrecorded, mem_directCaptures]
  constructor
  · rintro (⟨hv, huses | hhigh⟩ | ⟨hrefs, hv⟩)
    · exact ⟨hv, .inl huses⟩
    · exact ⟨hv, .inr (.inl hhigh)⟩
    · exact ⟨hv, .inr (.inr hrefs)⟩
  · rintro ⟨hv, huses | hhigh | hrefs⟩
    · exact .inl ⟨hv, .inl huses⟩
    · exact .inl ⟨hv, .inr hhigh⟩
    · exact .inr ⟨hrefs, hv⟩

/-! ## Fields of an environment -/

section Fields

variable {scope : NameMap String}

theorem mem_fields_addField (cl : Closures) (name v : String) :
    v ∈ (cl.addField scope name).fields.map Prod.fst ↔
      v ∈ cl.fields.map Prod.fst ∨ v = name := by
  unfold Closures.addField
  split_ifs with hany
  · constructor
    · exact .inl
    · rintro (h | rfl)
      · exact h
      · simpa using hany
  · rw [map_append, mem_append, map_singleton, mem_singleton]

theorem mem_fields_foldl (names : List String) (cl : Closures) (v : String) :
    v ∈ (names.foldl (Closures.addField scope) cl).fields.map Prod.fst ↔
      v ∈ cl.fields.map Prod.fst ∨ v ∈ names := by
  induction names generalizing cl with
  | nil => simp
  | cons name names ih =>
    rw [foldl_cons, ih, mem_fields_addField, mem_cons, or_assoc]

theorem mem_fields_forward (np : String) (names : List String) (cl : Closures) (v : String) :
    v ∈ (names.foldl (fun cl name => (cl.addField scope name).addCapture np name)
        cl).fields.map Prod.fst ↔ v ∈ cl.fields.map Prod.fst ∨ v ∈ names := by
  induction names generalizing cl with
  | nil => simp
  | cons name names ih =>
    rw [foldl_cons, ih]
    have hone : v ∈ ((cl.addField scope name).addCapture np name).fields.map Prod.fst ↔ _ ∨ _ :=
      mem_fields_addField cl name v
    rw [hone, mem_cons, or_assoc]

theorem mem_fields_addChild (cl : Closures) (np : NestedParts) (v : String) :
    v ∈ (cl.addChild c scope np).fields.map Prod.fst ↔
      v ∈ cl.fields.map Prod.fst ∨ v ∈ directCaptures c scope np ∨
        v ∈ np.grandchildRefs ∧ scope.contains v := by
  rw [Closures.addChild]
  dsimp only
  rw [mem_fields_forward, mem_filter, ← or_assoc]
  refine or_congr_left ?_
  split_ifs with hempty
  · rw [List.isEmpty_iff.mp hempty]
    simp
  · exact mem_fields_foldl _ cl v

/-- The environment has a field for every recorded name. -/
theorem mem_fields_of_recorded {nps : List NestedParts} (hnodup : (nps.map NestedParts.name).Nodup)
    {np : NestedParts} (hnp : np ∈ nps) {v : String}
    (hv : v ∈ (analyzeClosures c scope nps).recorded np.name) :
    v ∈ (analyzeClosures c scope nps).fields.map Prod.fst := by
  have hfold : ∀ (nps : List NestedParts) (cl : Closures),
      v ∈ (nps.foldl (Closures.addChild c scope) cl).fields.map Prod.fst ↔
        v ∈ cl.fields.map Prod.fst ∨ ∃ np ∈ nps, v ∈ directCaptures c scope np ∨
          v ∈ np.grandchildRefs ∧ scope.contains v := by
    intro nps
    induction nps with
    | nil => simp
    | cons first nps ih =>
      intro cl
      rw [foldl_cons, ih, mem_fields_addChild]
      simp only [mem_cons, exists_eq_or_imp, or_assoc]
  exact (hfold nps {}).mpr (.inr ⟨np, hnp, (mem_recorded_analyzeClosures hnodup hnp v).mp hv⟩)

end Fields

/-! ## The variables of a scope -/

/-- A variable or parameter of a procedure whose name is what follows the last underscore in the
name of the given one. -/
def SegmentVar (m : HirModule) (q : HirProcDecl) (v : String) : Prop :=
  ∃ r ∈ preorder m.procDecls, r.name = lastSegment q.name ∧ v ∈ r.ownNames

/-- The variables that are in scope in a procedure: its own, the bounds of its open arrays, those
found for the procedures around it, and those it reaches through its environment. -/
def InScope (m : HirModule) (c : EmitContext) : List HirProcDecl → HirProcDecl → String → Prop
  | [], p, v => v ∈ p.ownNames ∨ v ∈ p.highNames
  | q :: chain, p, v =>
    v ∈ p.ownNames ∨ v ∈ p.highNames ∨ (∃ a ∈ q :: chain, SegmentVar m a v) ∨
      InScope m c chain q v ∧ ((ownNestedParts p).Uses c v ∨
        (∃ w, (ownNestedParts p).Uses c w ∧ InScope m c chain q w ∧ v = w ++ "_high") ∨
        v ∈ nestedRefs p.nestedProcs)

theorem PathTo.mem_preorder
    (h : PathTo m chain p) : ∀ q ∈ p :: chain, q ∈ preorder m.procDecls := by
  induction h with
  | top hpd => simpa using HirBuild.mem_preorder hpd
  | nested _ hnp ih =>
    exact forall_mem_cons.mpr
      ⟨nested_subset_preorder _ (ih _ mem_cons_self) hnp, ih⟩

theorem PathTo.mem_nested (h : PathTo m (p :: chain) np) : np ∈ p.nestedProcs := by
  cases h with
  | nested _ hnp => exact hnp

theorem PathTo.parent (h : PathTo m (p :: chain) np) : PathTo m chain p := by
  cases h with
  | nested hp _ => exact hp

theorem sublist_preorder (pds : List HirProcDecl) : pds.Sublist (preorder pds) := by
  induction pds with
  | nil => exact nil_sublist _
  | cons pd pds ih =>
    rw [preorder_cons]
    exact (ih.trans (sublist_append_right _ _)).cons_cons _

theorem nested_sublist_preorder : ∀ (pds : List HirProcDecl) {pd : HirProcDecl},
    pd ∈ preorder pds → (preorder pd.nestedProcs).Sublist (preorder pds)
  | [], pd, h => by simp [preorder] at h
  | ⟨sig, body, locals, nested, captures, cfg⟩ :: pds, pd, h => by
    have ihn := @nested_sublist_preorder nested pd
    have ihs := @nested_sublist_preorder pds pd
    rw [preorder] at h ⊢
    rw [mem_cons, mem_append] at h
    obtain rfl | h | h := h
    · exact (sublist_append_left _ _).cons _
    · exact ((ihn h).trans (sublist_append_left _ _)).cons _
    · exact ((ihs h).trans (sublist_append_right _ _)).cons _

theorem childNames_nodup {m : HirModule} (hd : m.DistinctNames)
    (hp : p ∈ preorder m.procDecls) : p.childNames.Nodup := by
  have hsub := (sublist_preorder p.nestedProcs).trans (nested_sublist_preorder _ hp)
  exact List.Nodup.sublist (hsub.map _) hd

section InScope

variable (hd : m.DistinctNames) (hb : m.Built) (hc : c.moduleName = m.name)

include hd hb hc

/-- The search for a procedure around finds the variables of the one procedure of that name. -/
theorem mem_scopeNames_ancestorParts (segment v : String) :
    v ∈ scopeNames (ancestorParts m c segment) ↔
      ∃ r ∈ preorder m.procDecls, r.name = segment ∧ v ∈ r.ownNames := by
  by_cases hfound : ∃ r ∈ preorder m.procDecls, r.name = segment
  · obtain ⟨r, hr, rfl⟩ := hfound
    have hparts : ancestorParts m c r.name = (some r.sig, some r.locals) := by
      rw [ancestorParts, hc, findNestedProcSig_of_mem hd hr hb, searchProcs_of_mem _ hd hr]
    rw [hparts]
    constructor
    · exact fun h => ⟨r, hr, rfl, h⟩
    · rintro ⟨r', hr', hname, h⟩
      rwa [hd.eq_of_name hr' hr hname] at h
  · have hsig : m.findNestedProcSig segment m.name = none := by
      rw [Option.eq_none_iff_forall_ne_some]
      intro sig hsome
      obtain ⟨r, hr, hname, -⟩ := findNestedProcSig_sound hb hsome
      exact hfound ⟨r, hr, hname⟩
    have hlocals : searchProcs (fun pd => some pd.locals) segment m.procDecls = none := by
      rw [Option.eq_none_iff_forall_ne_some]
      intro locals hsome
      obtain ⟨r, hr, hname, -⟩ := searchProcs_sound hsome
      exact hfound ⟨r, hr, hname⟩
    rw [ancestorParts, hc, hsig, hlocals]
    constructor
    · exact fun h => absurd h (by simp [scopeNames, localVars])
    · rintro ⟨r, hr, hname, -⟩
      exact absurd ⟨r, hr, hname⟩ hfound

theorem exists_around_iff (hp : p ∈ preorder m.procDecls) (v : String) :
    (v ∈ p.ownNames ∨ v ∈ p.highNames ∨
      ∃ a ∈ (Outlook.found m c).around p.name (chainParts chain), v ∈ scopeNames a) ↔
      (v ∈ p.ownNames ∨ v ∈ p.highNames ∨ ∃ q ∈ chain, SegmentVar m q v) := by
  have haround : (Outlook.found m c).around p.name (chainParts chain) =
      ((chain.map fun q => lastSegment q.name).filter (· ≠ p.name)).map (ancestorParts m c) := by
    simp only [Outlook.found, chainParts, map_map]
    rfl
  rw [haround]
  simp only [mem_map, mem_filter, exists_exists_and_eq_and, SegmentVar]
  constructor
  · rintro (h | h | ⟨segment, ⟨⟨q, hq, rfl⟩, -⟩, h⟩)
    · exact .inl h
    · exact .inr (.inl h)
    · exact .inr (.inr ⟨q, hq, (mem_scopeNames_ancestorParts hd hb hc _ v).mp h⟩)
  · rintro (h | h | ⟨q, hq, r, hr, hname, h⟩)
    · exact .inl h
    · exact .inr (.inl h)
    · -- the procedure itself is passed over, but its variables are there already
      by_cases hself : lastSegment q.name = p.name
      · rw [hd.eq_of_name hr hp (hname.trans hself)] at h
        exact .inl h
      · exact .inr (.inr ⟨lastSegment q.name, ⟨⟨q, hq, rfl⟩, by simpa using hself⟩,
          (mem_scopeNames_ancestorParts hd hb hc _ v).mpr ⟨r, hr, hname, h⟩⟩)

/-- What a scope contains. -/
theorem contains_scopeAt_iff (h : PathTo m chain p) (v : String) :
    (scopeAt m c chain p).contains v ↔ InScope m c chain p v := by
  induction chain generalizing p v with
  | nil =>
    rw [contains_scopeAt, exists_around_iff hd hb hc (h.mem_preorder p mem_cons_self), InScope]
    simp [ownEnvAt]
  | cons q chain ih =>
    have hq := h.parent
    have hnodup := childNames_nodup hd (hq.mem_preorder q mem_cons_self)
    have haccess : (∃ e ∈ ownEnvAt m c (q :: chain) p,
        v ∈ e.access ∧ (e.fields.lookup v).isSome) ↔ v ∈ captureList m c (q :: chain) p := by
      constructor
      · rintro ⟨e, he, hmem, -⟩
        rw [captureList, Option.mem_def.mp he]
        exact hmem
      · intro hmem
        have hrecorded := (mem_captureList_iff_recorded hnodup h.mem_nested v).mp hmem
        have hnames : ((q.nestedProcs.map ownNestedParts).map NestedParts.name).Nodup := by
          rw [map_map]
          exact hnodup
        have hfield : v ∈ (closuresAt m c chain q).fields.map Prod.fst :=
          mem_fields_of_recorded hnames (mem_map_of_mem h.mem_nested) hrecorded
        rw [captureList] at hmem
        cases henv : ownEnvAt m c (q :: chain) p with
        | none => exact absurd hmem (by simp [henv])
        | some e =>
          rw [henv] at hmem
          refine ⟨e, rfl, hmem, lookup_isSome_iff.mpr ?_⟩
          obtain ⟨_, -, rfl⟩ := Option.map_eq_some_iff.mp henv
          exact hfield
    rw [contains_scopeAt, exists_around_iff hd hb hc (h.mem_preorder p mem_cons_self), haccess,
      mem_captureList hnodup h.mem_nested, InScope]
    simp only [ih hq, or_assoc]

end InScope

/-! ## The lists that are emitted -/

theorem genOwn_subset_genOwns {view : Outlook} {chain : List (String × ScopeParts)}
    {procName : String} {scope : NameMap String} {closures : Closures} {np : HirProcDecl}
    {nps : List HirProcDecl} (h : np ∈ nps) :
    genOwn c view chain (ownEnv c procName scope closures (ownNestedParts np)) np ⊆
      genOwns c view chain procName scope closures nps := by
  induction nps with
  | nil => exact absurd h (by simp)
  | cons q nps ih =>
    rw [genOwns]
    obtain rfl | h := mem_cons.mp h
    · exact subset_append_left _ _
    · exact List.Subset.trans (ih h) (subset_append_right _ _)

variable {pd : HirProcDecl}

/-- The functions of every procedure of the module are emitted. -/
theorem genOwn_subset_genTrees (hb : m.Built) (h : PathTo m chain pd) :
    genOwn c (.found m c) (chainParts chain) (ownEnvAt m c chain pd) pd ⊆
      genTrees m c (.found m c) := by
  induction h with
  | top hpd =>
    intro e he
    refine mem_flatMap.mpr ⟨_, mem_filter.mpr ⟨hpd, ?_⟩, he⟩
    rw [hb.not_nested _ hpd]
    rfl
  | @nested chain p np _ hnp ih =>
    refine List.Subset.trans ?_ ih
    rw [genOwn_eq c _ _ _ p]
    exact List.Subset.trans (genOwn_subset_genOwns hnp) (subset_append_left _ _)

/-- An emitted function is one of a procedure of the module, with the capture list of that. -/
def EmittedOnPath (m : HirModule) (c : EmitContext) (e : ProcEmission) : Prop :=
  ∃ chain pd, PathTo m chain pd ∧ e.path = pd.name :: chain.map HirProcDecl.name ∧
    e.envAccess.getD [] = captureList m c chain pd

theorem emittedOnPath_last (hpath : PathTo m chain pd)
    (hnested : ∀ e ∈ genOwns c (.found m c) (chainParts (pd :: chain)) pd.name
      (scopeAt m c chain pd)
      (closuresAt m c chain pd) pd.nestedProcs, EmittedOnPath m c e) :
    ∀ e ∈ genOwn c (.found m c) (chainParts chain) (ownEnvAt m c chain pd) pd,
      EmittedOnPath m c e := by
  intro e he
  rw [genOwn_eq] at he
  obtain he | he := mem_append.mp he
  · exact hnested e he
  · rw [mem_singleton.mp he]
    refine ⟨chain, pd, hpath, ?_, rfl⟩
    dsimp only
    rw [chainParts, map_map]
    rfl

theorem emittedOnPath_genOwns {m : HirModule} {c : EmitContext} : ∀ (pds : List HirProcDecl)
    (chain : List HirProcDecl) (p : HirProcDecl), PathTo m chain p → pds ⊆ p.nestedProcs →
    ∀ e ∈ genOwns c (.found m c) (chainParts (p :: chain)) p.name (scopeAt m c chain p)
      (closuresAt m c chain p) pds, EmittedOnPath m c e
  | [], _, _, _, _, e, he => absurd he (by simp [genOwns])
  | ⟨sig, body, locals, nested, captures, cfg⟩ :: pds, chain, p, hpath, hsub, e, he => by
    have ihn := emittedOnPath_genOwns (m := m) (c := c) nested
    have ihs := emittedOnPath_genOwns (c := c) pds chain p hpath
    rw [genOwns] at he
    obtain he | he := mem_append.mp he
    · have hnp := hpath.nested (hsub mem_cons_self)
      exact emittedOnPath_last hnp (ihn _ _ hnp (fun _ h => h)) e he
    · exact ihs (fun q hq => hsub (mem_cons_of_mem _ hq)) e he

theorem emittedOnPath_genTrees : ∀ e ∈ genTrees m c (.found m c), EmittedOnPath m c e := by
  intro e he
  obtain ⟨pd, hpd, he⟩ := mem_flatMap.mp he
  have hpath : PathTo m [] pd := .top (mem_filter.mp hpd).1
  exact emittedOnPath_last hpath
    (emittedOnPath_genOwns pd.nestedProcs [] pd hpath fun _ h => h) e he

/-- If the names are distinct, a path of names belongs to one procedure. -/
theorem PathTo.eq_of_names (hd : m.DistinctNames) {chain' : List HirProcDecl}
    {pd' : HirProcDecl} (h : PathTo m chain pd) (h' : PathTo m chain' pd')
    (hnames : (pd :: chain).map HirProcDecl.name = (pd' :: chain').map HirProcDecl.name) :
    pd = pd' ∧ chain = chain' := by
  have hinj : ∀ ps qs : List HirProcDecl, (∀ p ∈ ps, p ∈ preorder m.procDecls) →
      (∀ q ∈ qs, q ∈ preorder m.procDecls) →
      ps.map HirProcDecl.name = qs.map HirProcDecl.name → ps = qs := by
    intro ps
    induction ps with
    | nil =>
      intro qs _ _ heq
      exact (map_eq_nil_iff.mp heq.symm).symm
    | cons p ps ih =>
      intro qs hps hqs heq
      cases qs with
      | nil => exact absurd heq (by simp)
      | cons q qs =>
        rw [map_cons, map_cons, List.cons.injEq] at heq
        rw [forall_mem_cons] at hps hqs
        rw [hd.eq_of_name hps.1 hqs.1 heq.1, ih qs hps.2 hqs.2 heq.2]
  have heq := hinj _ _ h.mem_preorder h'.mem_preorder hnames
  exact List.cons.inj heq

/-- The emission of a procedure is there, and it has the capture list of the procedure. -/
theorem envAccess_of_path (hd : m.DistinctNames) (h : PathTo m chain pd) {e : ProcEmission}
    (he : e ∈ genTrees m c (.found m c)) (hpath : e.path = pd.name :: chain.map HirProcDecl.name) :
    e.envAccess.getD [] = captureList m c chain pd := by
  obtain ⟨chain', pd', h', hpath', haccess⟩ := emittedOnPath_genTrees e he
  obtain ⟨rfl, rfl⟩ := h.eq_of_names hd h' (hpath.symm.trans hpath')
  exact haccess

theorem exists_emission_of_path (hb : m.Built) (h : PathTo m chain pd) :
    ∃ e ∈ genTrees m c (.found m c), e.path = pd.name :: chain.map HirProcDecl.name := by
  have hlast : ∃ e ∈ genOwn c (.found m c) (chainParts chain) (ownEnvAt m c chain pd) pd,
      e.path = pd.name :: chain.map HirProcDecl.name := by
    rw [genOwn_eq]
    refine ⟨_, mem_append_right _ mem_cons_self, ?_⟩
    dsimp only
    rw [chainParts, map_map]
    rfl
  obtain ⟨e, he, hpath⟩ := hlast
  exact ⟨e, genOwn_subset_genTrees hb h he, hpath⟩

end Mx.HirBuild

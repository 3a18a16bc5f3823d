import Mx.Codegen.LlvmProcs

/-!
# The globals of a program

What the map of globals holds when a procedure is emitted. A captured variable whose name is used
for nothing else in the program is promoted when its procedure is entered, and found under its name
in the procedures nested in that.
-/

namespace Mx.CodeGen

open HirBuild List

/-! ## Declared names -/

/-- A name under which a declaration in a procedure enters a global into the map. -/
def LocalKey (module : String) (d : HirBuild.HirLocalDecl) (k : String) : Prop :=
  match d with
  | .var .. | .type .. => False
  | .const d => k = d.name ∨ k = llvmMangle module d.name ∨
    ∃ n : Nat, k = llvmMangle module d.name ++ "_" ++ toString n
  | .exception name mangled _ => k = name ∨ k = mangled

/-- A name under which a declaration of a module enters a global into the map. -/
def ModuleKey (module : String) (d : HirBuild.HirLocalDecl) (k : String) : Prop :=
  match d with
  | .var name _ => k = name ∨ k = llvmMangle module name
  | d => LocalKey module d k

/-- A name that a declaration of the program enters into the map of globals. -/
def GlobalKey (ms : List LlvmModule) (k : String) : Prop :=
  ∃ m ∈ ms, (∃ d ∈ m.decls, ModuleKey m.hir.name d k) ∨
    ∃ pd ∈ preorder m.hir.procDecls, ∃ d ∈ pd.locals, LocalKey m.hir.name d k

section Declarations

variable {c : LlvmContext} {module : String} {k : String}

theorem get_declareConst (globals : NameMap LlvmGlobal) {name ty : String} (h : k ≠ name)
    (hm : k ≠ llvmMangle module name)
    (hs : ¬ ∃ n : Nat, k = llvmMangle module name ++ "_" ++ toString n) :
    (declareConst c module globals name ty).get k = globals.get k := by
  rw [declareConst]
  split
  · rw [NameMap.get_insert, if_neg fun heq => hs ⟨_, heq⟩, NameMap.get_insert, if_neg h]
  · rw [NameMap.get_insert, if_neg hm, NameMap.get_insert, if_neg h]

theorem get_genHirLocalGlobals (globals : NameMap LlvmGlobal) {d : HirBuild.HirLocalDecl}
    (h : ¬ LocalKey module d k) :
    (genHirLocalGlobals c module globals d).get k = globals.get k := by
  cases d with
  | var => rfl
  | type => rfl
  | const d =>
    simp only [LocalKey, not_or] at h
    rw [genHirLocalGlobals, genHirConstDecl]
    split
    · split
      · rfl
      · exact get_declareConst globals h.1 h.2.1 h.2.2
    · exact get_declareConst globals h.1 h.2.1 h.2.2
    · rfl
  | exception name mangled =>
    simp only [LocalKey, not_or] at h
    rw [genHirLocalGlobals, genHirExceptionDecl, NameMap.get_insert, if_neg h.2,
      NameMap.get_insert, if_neg h.1]

theorem get_genModuleGlobals (globals : NameMap LlvmGlobal) {d : HirBuild.HirLocalDecl}
    (h : ¬ ModuleKey module d k) : (genModuleGlobals c module globals d).get k = globals.get k := by
  cases d with
  | var name typeId =>
    simp only [ModuleKey, not_or] at h
    rw [genModuleGlobals, genHirVarDeclGlobal]
    split
    · rfl
    · rw [NameMap.get_insert, if_neg h.2, NameMap.get_insert, if_neg h.1]
  | type => rfl
  | const d =>
    have hlocal : ¬ LocalKey module (.const d) k := h
    exact get_genHirLocalGlobals globals hlocal
  | exception name mangled excId =>
    have hlocal : ¬ LocalKey module (.exception name mangled excId) k := h
    exact get_genHirLocalGlobals (c := c) globals hlocal

/-- Declarations that do not enter a name leave what is known under it. -/
theorem get_foldl_of_not_key {key : HirBuild.HirLocalDecl → Prop}
    {step : NameMap LlvmGlobal → HirBuild.HirLocalDecl → NameMap LlvmGlobal}
    (hstep : ∀ globals d, ¬ key d → (step globals d).get k = globals.get k)
    (ds : List HirBuild.HirLocalDecl) (globals : NameMap LlvmGlobal) (h : ∀ d ∈ ds, ¬ key d) :
    (ds.foldl step globals).get k = globals.get k := by
  induction ds generalizing globals with
  | nil => rfl
  | cons d ds ih =>
    rw [foldl_cons, ih _ fun d' hd' => h d' (mem_cons_of_mem _ hd')]
    exact hstep globals d (h d (by simp))

end Declarations

/-! ## Captured variables -/

/-- The variables of a procedure that nested procedures capture. -/
def capturedVars (c : LlvmContext) (pd : HirBuild.HirProcDecl) : List String :=
  ((frameVars c pd).map FrameVar.name).filter fun x =>
    (nestedClosureCaptures pd).any fun cap => cap.name = x

/-- The captured variables of a forest of procedures. -/
def forestCaptured (c : LlvmContext) (pds : List HirBuild.HirProcDecl) : List String :=
  (preorder pds).flatMap (capturedVars c)

/-- The captured variables of a program. -/
def capturedNames (c : LlvmContext) (ms : List LlvmModule) : List String :=
  ms.flatMap fun m => forestCaptured c m.hir.procDecls

theorem mem_capturedVars {c : LlvmContext} {pd : HirBuild.HirProcDecl} {x : String} :
    x ∈ capturedVars c pd ↔ (∃ f ∈ frameVars c pd, f.name = x) ∧
      x ∈ (nestedClosureCaptures pd).map CapturedVar.name := by
  simp [capturedVars]

theorem forestCaptured_cons (c : LlvmContext) (pd : HirBuild.HirProcDecl)
    (pds : List HirBuild.HirProcDecl) :
    forestCaptured c (pd :: pds) =
      capturedVars c pd ++ (forestCaptured c pd.nestedProcs ++ forestCaptured c pds) := by
  simp [forestCaptured, preorder_cons]

section Frames

variable {c : LlvmContext} {pd : HirBuild.HirProcDecl}

theorem get_foldl_frame (fs : List FrameVar) (t : NameMap LlvmVar) (x : String) :
    (∃ f ∈ fs, f.name = x ∧
      (fs.foldl (fun t f => t.insert f.name ⟨.alloca f.slotTy, f.ty⟩) t).get x =
        some ⟨.alloca f.slotTy, f.ty⟩) ∨
    (∀ f ∈ fs, f.name ≠ x) ∧
      (fs.foldl (fun t f => t.insert f.name ⟨.alloca f.slotTy, f.ty⟩) t).get x = t.get x := by
  induction fs generalizing t with
  | nil => exact .inr ⟨by simp, rfl⟩
  | cons f fs ih =>
    rw [foldl_cons]
    obtain ⟨f', hf', hname, hget⟩ | ⟨hnone, hget⟩ := ih (t.insert f.name ⟨.alloca f.slotTy, f.ty⟩)
    · exact .inl ⟨f', mem_cons_of_mem _ hf', hname, hget⟩
    · rw [hget, NameMap.get_insert]
      by_cases h : x = f.name
      · exact .inl ⟨f, by simp, h.symm, if_pos h⟩
      · refine .inr ⟨?_, if_neg h⟩
        intro f' hf'
        obtain rfl | hf' := mem_cons.mp hf'
        · exact Ne.symm h
        · exact hnone f' hf'

/-- The entry of a name is that of a variable of the procedure. -/
theorem exists_of_get_frameLocals {x : String} {v : LlvmVar}
    (h : (frameLocals c pd).get x = some v) :
    ∃ f ∈ frameVars c pd, f.name = x ∧ v = ⟨.alloca f.slotTy, f.ty⟩ := by
  obtain ⟨f, hf, hname, hget⟩ | ⟨_, hget⟩ := get_foldl_frame (frameVars c pd) [] x
  · exact ⟨f, hf, hname, Option.some.inj (h.symm.trans hget)⟩
  · rw [frameLocals, hget] at h
    simp [NameMap.get] at h

theorem get_frameLocals {f : FrameVar} (hf : f ∈ frameVars c pd)
    (hunique : ∀ f' ∈ frameVars c pd, f'.name = f.name → f' = f) :
    (frameLocals c pd).get f.name = some ⟨.alloca f.slotTy, f.ty⟩ := by
  obtain ⟨f', hf', hname, hget⟩ | ⟨hnone, _⟩ := get_foldl_frame (frameVars c pd) [] f.name
  · rw [hunique f' hf' hname] at hget
    exact hget
  · exact absurd rfl (hnone f hf)

/-- If no captured name is repeated, it belongs to one variable. -/
theorem eq_of_capturedVars_nodup (hd : (capturedVars c pd).Nodup) {f f' : FrameVar}
    (hf : f ∈ frameVars c pd) (hf' : f' ∈ frameVars c pd) (hname : f'.name = f.name)
    (hcap : f.name ∈ capturedVars c pd) : f' = f := by
  rw [capturedVars, filter_map] at hd
  have hany := (mem_filter.mp hcap).2
  exact inj_on_of_nodup_map hd (mem_filter.mpr ⟨hf', by simpa [hname] using hany⟩)
    (mem_filter.mpr ⟨hf, by simpa using hany⟩) hname

end Frames

/-! ## Entering a procedure -/

section Enter

variable {c : LlvmContext} {module : String} {parents : List LlvmProc}
  {globals : NameMap LlvmGlobal} {pd : HirBuild.HirProcDecl}

/-- The globals after the declarations in a procedure. -/
def localGlobals (c : LlvmContext) (module : String) (globals : NameMap LlvmGlobal)
    (pd : HirBuild.HirProcDecl) : NameMap LlvmGlobal :=
  pd.locals.foldl (genHirLocalGlobals c module) globals

/-- The procedure whose name is the prefix of a promoted global, with those around it. -/
def procIsNamed (c : LlvmContext) (parents : List LlvmProc) (pd : HirBuild.HirProcDecl) :
    String → Bool :=
  isNamedArrayParam c (pd :: parents.map LlvmProc.decl)

theorem promoteInvariant_enterProc (c : LlvmContext) (module : String) (parents : List LlvmProc)
    (globals : NameMap LlvmGlobal) (pd : HirBuild.HirProcDecl) :
    PromoteInvariant (llvmProcName module parents pd) (procIsNamed c parents pd)
      (frameLocals c pd) (localGlobals c module globals pd)
      ((nestedClosureCaptures pd).map CapturedVar.name)
      ((nestedClosureCaptures pd).foldl
        (promoteCapture (llvmProcName module parents pd) (procIsNamed c parents pd))
        ⟨frameLocals c pd, localGlobals c module globals pd, []⟩) := by
  refine PromoteInvariant.foldl _ (fun cap hcap => mem_map_of_mem hcap) ?_
  exact ⟨fun _ _ _ h => h, by simp, fun _ _ h => h, fun _ _ => rfl⟩

/-- A promoted variable is a captured variable of the procedure. -/
theorem exists_of_mem_promoted {pr : Promotion}
    (h : pr ∈ (enterProc c module parents globals pd).promoted) :
    pr.global = capturedGlobal (llvmProcName module parents pd) pr.name ∧
      ∃ f ∈ frameVars c pd, f.name = pr.name ∧ pr.name ∈ capturedVars c pd ∧
        pr.slotTy = f.slotTy ∧
          pr.loadTy = if procIsNamed c parents pd pr.name then "ptr" else f.ty := by
  obtain ⟨hname, hglobal, ty, hget, hload⟩ :=
    (promoteInvariant_enterProc c module parents globals pd).promoted pr h
  obtain ⟨f, hf, hfname, hv⟩ := exists_of_get_frameLocals hget
  obtain ⟨hslot, hty⟩ : pr.slotTy = f.slotTy ∧ ty = f.ty := by simpa using hv
  exact ⟨hglobal, f, hf, hfname, mem_capturedVars.mpr ⟨⟨f, hf, hfname⟩, hname⟩, hslot, hty ▸ hload⟩

/-- What is known under a name that nothing in the procedure declares stays known. -/
theorem enterProc_kept {k : String} {g : LlvmGlobal} (hk : ∀ d ∈ pd.locals, ¬ LocalKey module d k)
    (h : globals.get k = some g) :
    (enterProc c module parents globals pd).globals.get k = some g := by
  refine (promoteInvariant_enterProc c module parents globals pd).kept k g ?_
  rw [localGlobals, get_foldl_of_not_key (fun globals d => get_genHirLocalGlobals globals) _ _ hk]
  exact h

/-- Only declared and captured names are entered into the map. -/
theorem enterProc_get {k : String} (hk : ∀ d ∈ pd.locals, ¬ LocalKey module d k)
    (hc : k ∉ capturedVars c pd) :
    (enterProc c module parents globals pd).globals.get k = globals.get k := by
  have hkey : (localGlobals c module globals pd).get k = globals.get k :=
    get_foldl_of_not_key (fun globals d => get_genHirLocalGlobals globals) _ _ hk
  rw [← hkey]
  refine (promoteInvariant_enterProc c module parents globals pd).added k ?_
  by_cases hname : k ∈ (nestedClosureCaptures pd).map CapturedVar.name
  · right
    cases hget : (frameLocals c pd).get k with
    | none => rfl
    | some v =>
      obtain ⟨f, hf, hfname, _⟩ := exists_of_get_frameLocals hget
      exact absurd (mem_capturedVars.mpr ⟨⟨f, hf, hfname⟩, hname⟩) hc
  · exact .inl hname

/-- A captured variable is promoted when its procedure is entered, if its name is used for nothing
else. -/
theorem enterProc_promoted (hd : (capturedVars c pd).Nodup) {f : FrameVar}
    (hf : f ∈ frameVars c pd) (hcap : f.name ∈ capturedVars c pd)
    (hk : ∀ d ∈ pd.locals, ¬ LocalKey module d f.name) (hg : globals.get f.name = none) :
    let p := enterProc c module parents globals pd
    Promoted p.procName (procIsNamed c parents pd) f.name f.slotTy f.ty
      ⟨p.locals, p.globals, p.promoted⟩ := by
  refine promoted_of_mem _ _ ?_ ?_ (mem_capturedVars.mp hcap).2
  · have hkey : (localGlobals c module globals pd).get f.name = globals.get f.name :=
      get_foldl_of_not_key (fun globals d => get_genHirLocalGlobals globals) _ _ hk
    exact hkey.trans hg
  · exact get_frameLocals hf fun f' hf' hname => eq_of_capturedVars_nodup hd hf hf' hname hcap

end Enter

/-! ## The run of the emission -/

section Emitted

variable (c : LlvmContext) (ms : List LlvmModule)

/-- The map knows declared and captured names only. -/
def Known (globals : NameMap LlvmGlobal) : Prop :=
  ∀ k, globals.get k ≠ none → GlobalKey ms k ∨ k ∈ capturedNames c ms

/-- What is known under other than declared names stays known. -/
def Extends (globals globals' : NameMap LlvmGlobal) : Prop :=
  ∀ k g, ¬ GlobalKey ms k → globals.get k = some g → globals'.get k = some g

/-- The procedure is nested directly in the given ones. -/
def Below (m : LlvmModule) : List LlvmProc → HirBuild.HirProcDecl → Prop
  | [], pd => pd ∈ m.hir.procDecls
  | q :: _, pd => pd ∈ q.decl.nestedProcs

/-- What is known where a procedure is emitted is known where the ones nested in it are. -/
def Inherits (globals : NameMap LlvmGlobal) : List LlvmProc → Prop
  | [] => True
  | q :: _ => Extends ms q.globals globals

/-- The procedures of a module as they are emitted, the innermost first. -/
inductive Emitted (m : LlvmModule) : List LlvmProc → Prop
  | nil : Emitted m []
  | cons {parents : List LlvmProc} {globals : NameMap LlvmGlobal} {pd : HirBuild.HirProcDecl} :
    Emitted m parents → Below m parents pd → pd ∈ preorder m.hir.procDecls → Known c ms globals →
    Inherits ms globals parents → (∀ x ∈ capturedVars c pd, globals.get x = none) →
    Emitted m (enterProc c m.hir.name parents globals pd :: parents)

/-- The names of captured variables are used for nothing else. -/
structure NamesSingle : Prop where
  nodup : (capturedNames c ms).Nodup
  notGlobal : ∀ x ∈ capturedNames c ms, ¬ GlobalKey ms x

variable {c ms}

theorem Extends.refl (globals : NameMap LlvmGlobal) : Extends ms globals globals :=
  fun _ _ _ h => h

theorem Extends.trans {g₁ g₂ g₃ : NameMap LlvmGlobal} (h : Extends ms g₁ g₂)
    (h' : Extends ms g₂ g₃) : Extends ms g₁ g₃ :=
  fun k g hk hg => h' k g hk (h k g hk hg)

theorem not_localKey {m : LlvmModule} (hm : m ∈ ms) {pd : HirBuild.HirProcDecl}
    (hpd : pd ∈ preorder m.hir.procDecls) {k : String} (hk : ¬ GlobalKey ms k) :
    ∀ d ∈ pd.locals, ¬ LocalKey m.hir.name d k :=
  fun d hd hkey => hk ⟨m, hm, .inr ⟨pd, hpd, d, hd, hkey⟩⟩

theorem Inherits.extend {globals globals' : NameMap LlvmGlobal} {parents : List LlvmProc}
    (h : Inherits ms globals parents) (h' : Extends ms globals globals') :
    Inherits ms globals' parents := by
  cases parents with
  | nil => trivial
  | cons q parents => exact Extends.trans h h'

theorem enterProc_extends {m : LlvmModule} (hm : m ∈ ms) {pd : HirBuild.HirProcDecl}
    (hpd : pd ∈ preorder m.hir.procDecls) (parents : List LlvmProc)
    (globals : NameMap LlvmGlobal) :
    Extends ms globals (enterProc c m.hir.name parents globals pd).globals :=
  fun _ _ hk h => enterProc_kept (not_localKey hm hpd hk) h

/-- What the emission of a forest of procedures does to the map of globals. -/
structure ForestSpec (c : LlvmContext) (ms : List LlvmModule) (m : LlvmModule)
    (pds : List HirBuild.HirProcDecl) (globals : NameMap LlvmGlobal)
    (out : List (List LlvmProc) × NameMap LlvmGlobal) : Prop where
  emitted : ∀ chain ∈ out.1, chain ≠ [] ∧ Emitted c ms m chain
  kept : Extends ms globals out.2
  other : ∀ k, ¬ GlobalKey ms k → k ∉ forestCaptured c pds → out.2.get k = globals.get k

/-- The map knows declared and captured names only, after more of them. -/
theorem Known.of_other {globals globals' : NameMap LlvmGlobal} (h : Known c ms globals)
    {names : List String} (hnames : names ⊆ capturedNames c ms)
    (hother : ∀ k, ¬ GlobalKey ms k → k ∉ names → globals'.get k = globals.get k) :
    Known c ms globals' := by
  intro k hk
  by_cases hkey : GlobalKey ms k
  · exact .inl hkey
  · by_cases hmem : k ∈ names
    · exact .inr (hnames hmem)
    · rw [hother k hkey hmem] at hk
      exact h k hk

theorem forestCaptured_subset {m : LlvmModule} (hm : m ∈ ms) {pds : List HirBuild.HirProcDecl}
    (h : preorder pds ⊆ preorder m.hir.procDecls) : forestCaptured c pds ⊆ capturedNames c ms := by
  intro x hx
  obtain ⟨pd, hpd, hx⟩ := mem_flatMap.mp hx
  exact mem_flatMap.mpr ⟨m, hm, mem_flatMap.mpr ⟨pd, h hpd, hx⟩⟩

theorem capturedVars_subset {pd : HirBuild.HirProcDecl} {pds : List HirBuild.HirProcDecl}
    (h : pd ∈ preorder pds) :
    capturedVars c pd ⊆ forestCaptured c pds :=
  fun _ hx => mem_flatMap.mpr ⟨pd, h, hx⟩

theorem forestSpec (hs : NamesSingle c ms) {m : LlvmModule} (hm : m ∈ ms) :
    ∀ (pds : List HirBuild.HirProcDecl) {parents : List LlvmProc} {globals : NameMap LlvmGlobal},
      Emitted c ms m parents → (∀ pd ∈ pds, Below m parents pd) →
      preorder pds ⊆ preorder m.hir.procDecls → (forestCaptured c pds).Nodup →
      Known c ms globals → Inherits ms globals parents →
      (∀ x ∈ forestCaptured c pds, globals.get x = none) →
      ForestSpec c ms m pds globals (genHirProcDecls c m.hir.name parents globals pds)
  | [], parents, globals, _, _, _, _, _, _, _ => by
    rw [genHirProcDecls]
    exact ⟨by simp, Extends.refl _, fun _ _ _ => rfl⟩
  | ⟨sig, body, locals, nested, captures, cfg⟩ :: pds, parents, globals, he, hb, hsub, hd, hk, hi,
      hfree => by
    rw [genHirProcDecls]
    generalize hpd : HirBuild.HirProcDecl.mk sig body locals nested captures cfg = pd at *
    have hnested : pd.nestedProcs = nested := by rw [← hpd]
    rw [preorder_cons, hnested] at hsub
    rw [forestCaptured_cons, hnested] at hd hfree
    have hmem : pd ∈ preorder m.hir.procDecls := hsub (by simp)
    have hsubNested : preorder nested ⊆ preorder m.hir.procDecls := fun q hq => hsub (by simp [hq])
    have hsubRest : preorder pds ⊆ preorder m.hir.procDecls := fun q hq => hsub (by simp [hq])
    have hnotKey : ∀ {pds : List HirBuild.HirProcDecl}, preorder pds ⊆ preorder m.hir.procDecls →
        ∀ x ∈ forestCaptured c pds, ¬ GlobalKey ms x :=
      fun h x hx => hs.notGlobal x (forestCaptured_subset hm h hx)
    obtain ⟨_, hdInner, hdisj⟩ := nodup_append.mp hd
    obtain ⟨hdNested, hdRest, hdisj'⟩ := nodup_append.mp hdInner
    -- The procedure itself.
    have hproc := Emitted.cons he (hb pd (by simp)) hmem hk hi fun x hx => hfree x (by simp [hx])
    generalize hp : enterProc c m.hir.name parents globals pd = proc at hproc
    have hext : Extends ms globals proc.globals := hp ▸ enterProc_extends hm hmem parents globals
    have hget : ∀ k, ¬ GlobalKey ms k → k ∉ capturedVars c pd →
        proc.globals.get k = globals.get k := by
      intro k hkey hcap
      rw [← hp]
      exact enterProc_get (not_localKey hm hmem hkey) hcap
    have hown : capturedVars c pd ⊆ capturedNames c ms :=
      List.Subset.trans (capturedVars_subset hmem)
        (forestCaptured_subset hm (List.Subset.refl _))
    -- The procedures nested in it.
    have hinner := forestSpec hs hm nested hproc (fun q hq => by
        rw [← hp, Below]
        change q ∈ pd.nestedProcs
        rwa [hnested])
      hsubNested hdNested (hk.of_other hown hget) (Extends.refl _) fun x hx => by
        rw [hget x (hnotKey hsubNested x hx) fun hmem' => hdisj x hmem' x (by simp [hx]) rfl]
        exact hfree x (by simp [hx])
    generalize genHirProcDecls c m.hir.name (proc :: parents) proc.globals nested = inner at hinner
    have hother : ∀ k, ¬ GlobalKey ms k → k ∉ capturedVars c pd ++ forestCaptured c nested →
        inner.2.get k = globals.get k := by
      intro k hkey hcap
      rw [mem_append, not_or] at hcap
      rw [hinner.other k hkey hcap.2, hget k hkey hcap.1]
    have hnames : capturedVars c pd ++ forestCaptured c nested ⊆ capturedNames c ms :=
      append_subset.mpr ⟨hown, forestCaptured_subset hm hsubNested⟩
    -- The ones after it.
    have hrest := forestSpec hs hm pds he (fun q hq => hb q (mem_cons_of_mem _ hq)) hsubRest
      hdRest (hk.of_other hnames hother) (hi.extend (hext.trans hinner.kept)) fun x hx => by
        rw [hother x (hnotKey hsubRest x hx) ?_]
        · exact hfree x (by simp [hx])
        · rw [mem_append, not_or]
          exact ⟨fun h => hdisj x h x (by simp [hx]) rfl, fun h => hdisj' x h x hx rfl⟩
    generalize genHirProcDecls c m.hir.name parents inner.2 pds = rest at hrest
    refine ⟨?_, hext.trans (hinner.kept.trans hrest.kept), ?_⟩
    · intro chain hchain
      rw [mem_cons, mem_append] at hchain
      obtain rfl | hchain | hchain := hchain
      · exact ⟨by simp, hproc⟩
      · exact hinner.emitted chain hchain
      · exact hrest.emitted chain hchain
    · intro k hkey hcap
      rw [forestCaptured_cons, hnested, ← append_assoc, mem_append, not_or] at hcap
      rw [hrest.other k hkey hcap.2, hother k hkey hcap.1]

theorem emitted_of_mem_genModules (hs : NamesSingle c ms) (rest : List LlvmModule)
    {globals : NameMap LlvmGlobal} (hsub : rest ⊆ ms) (hd : (capturedNames c rest).Nodup)
    (hk : Known c ms globals) (hfree : ∀ x ∈ capturedNames c rest, globals.get x = none) :
    ∀ chain ∈ (genModules c globals rest).1, ∃ m ∈ ms, chain ≠ [] ∧ Emitted c ms m chain := by
  induction rest generalizing globals with
  | nil => simp [genModules]
  | cons m rest ih =>
    have hm : m ∈ ms := hsub (by simp)
    have hsub' : rest ⊆ ms := fun m' hm' => hsub (mem_cons_of_mem _ hm')
    have hnotKey : ∀ x ∈ capturedNames c (m :: rest), ¬ GlobalKey ms x := by
      intro x hx
      obtain ⟨m', hm', hx⟩ := mem_flatMap.mp hx
      exact hs.notGlobal x (mem_flatMap.mpr ⟨m', hsub hm', hx⟩)
    rw [capturedNames, flatMap_cons] at hd
    obtain ⟨hdFirst, hdRest, hdisj⟩ := nodup_append.mp hd
    have hdecls : ∀ k, ¬ GlobalKey ms k →
        (m.decls.foldl (genModuleGlobals c m.hir.name) globals).get k = globals.get k := by
      intro k hkey
      refine get_foldl_of_not_key (fun globals d => get_genModuleGlobals globals) _ _ ?_
      exact fun d hd hmod => hkey ⟨m, hm, .inl ⟨d, hd, hmod⟩⟩
    have hkDecls := hk.of_other (nil_subset _) fun k hkey _ => hdecls k hkey
    have hforest := forestSpec hs hm m.hir.procDecls .nil (fun _ h => h) (List.Subset.refl _)
      hdFirst hkDecls trivial fun x hx => by
        have hx' : x ∈ capturedNames c (m :: rest) := by
          rw [capturedNames, flatMap_cons]
          exact mem_append_left _ hx
        rw [hdecls x (hnotKey x hx')]
        exact hfree x hx'
    simp only [genModules]
    generalize genHirProcDecls c m.hir.name [] (m.decls.foldl (genModuleGlobals c m.hir.name)
      globals) m.hir.procDecls = procs at hforest
    intro chain hchain
    obtain hchain | hchain := mem_append.mp hchain
    · exact ⟨m, hm, hforest.emitted chain hchain⟩
    · refine ih hsub' hdRest (hkDecls.of_other (forestCaptured_subset hm (List.Subset.refl _))
        hforest.other) ?_ chain hchain
      intro x hx
      have hx' : x ∈ capturedNames c (m :: rest) := by
        rw [capturedNames, flatMap_cons]
        exact mem_append_right _ hx
      rw [hforest.other x (hnotKey x hx') fun hmem => hdisj x hmem x hx rfl,
        hdecls x (hnotKey x hx')]
      exact hfree x hx'

/-- The procedures of a program are emitted one below the other. -/
theorem emitted_of_mem (hs : NamesSingle c ms) {chain : List LlvmProc}
    (h : chain ∈ (genModules c [] ms).1) : ∃ m ∈ ms, chain ≠ [] ∧ Emitted c ms m chain := by
  refine emitted_of_mem_genModules hs ms (List.Subset.refl _) hs.nodup ?_ (fun _ _ => rfl) chain h
  intro k hk
  exact absurd rfl hk

end Emitted

end Mx.CodeGen

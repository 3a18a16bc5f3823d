import Mx.Codegen.LlvmGlobals
import Mx.HirBuild.NestedCaptures
import Mx.Core.StaticLink

/-!
# Captured variables in the LLVM backend

The emitted code as a machine with static cells, beside the machine whose activations have links to
the ones they are nested in. A captured variable has one global for all activations, so the two
agree while no procedure with captured variables is entered a second time.
-/

namespace Mx.CodeGen

open HirBuild Mx.Core List

/-- The captures of the nested procedures are the variables that they take from around them. The
bounds that come with open arrays are listed apart. -/
def CapturesExact (m : LlvmModule) : Prop :=
  ∀ chain p, PathTo m.hir chain p → ∀ np ∈ p.nestedProcs, ∀ x,
    x ∈ (np.closureCaptures.filter fun cap => !cap.isHighCompanion).map CapturedVar.name ↔
      (enclosingVar (p :: chain) x).isSome ∧ np.MentionsFree x

/-- Names and kinds of captured variables that promotion gets right. -/
structure CapturesApart (c : LlvmContext) (ms : List LlvmModule) : Prop
    extends NamesSingle c ms where
  unmangled : ∀ m ∈ ms, ∀ x ∈ forestCaptured c m.hir.procDecls,
    ¬ GlobalKey ms (llvmMangle m.hir.name x) ∧ llvmMangle m.hir.name x ∉ capturedNames c ms
  byValue : ∀ m ∈ ms, ∀ chain pd, PathTo m.hir chain pd → ∀ f ∈ frameVars c pd,
    f.name ∈ capturedVars c pd → f.isVar = false ∧ f.isOpenArray = false ∧
      (isNamedArrayParam c chain f.name → f.isNamedArray)

/-! ## The machine -/

/-- A procedure of the emitted program, with the ones around it. -/
structure EmittedProc (c : LlvmContext) (ms : List LlvmModule) where
  proc : LlvmProc
  parents : List LlvmProc
  mem : proc :: parents ∈ (genModules c [] ms).1

namespace EmittedProc

variable {c : LlvmContext} {ms : List LlvmModule}

/-- The procedures a name is looked up in. -/
def chain (p : EmittedProc c ms) : List LlvmProc := p.proc :: p.parents

/-- The variable belongs to the procedure, and procedures nested in it capture it. -/
def Declares (p : EmittedProc c ms) (x : String) : Prop :=
  x ∈ p.proc.decl.ownNames ∧ x ∈ capturedVars c p.proc.decl

/-- The procedure or one nested in it mentions a variable of a procedure around it. -/
def MentionsOuter (p : EmittedProc c ms) (x : String) : Prop :=
  (enclosingVar (p.parents.map LlvmProc.decl) x).isSome ∧ p.proc.decl.MentionsFree x

end EmittedProc

section Machine

variable (c : LlvmContext) (ms : List LlvmModule)

/-- The procedures of the program with their captured variables. -/
def procScopes : Scopes (EmittedProc c ms) String where
  declares := EmittedProc.Declares
  mentions p x := p.Declares x ∨ p.MentionsOuter x
  inside p q := p.parents = q.chain
  outermost p := p.parents = []

/-- Where the emitted code keeps variables. A load at another type than was stored makes something
else of a value. -/
def procPlacement {V : Type} (pun : String → V → V) :
    Placement (EmittedProc c ms) String String V where
  place p x := match emitVarAddr c p.chain x with
    | some ⟨.global g, _⟩ => some g
    | _ => none
  promoted p := p.proc.promoted.map fun pr => (pr.name, pr.global)
  copy p x v := match p.proc.promoted.find? fun pr => pr.name = x with
    | some pr => if pr.loadTy = pr.slotTy then v else pun pr.loadTy v
    | none => v

/-- Whether the variable of a name is reached over a pointer in its slot. -/
def declaredLoads (pd : HirBuild.HirProcDecl) (x : String) : Bool :=
  (frameVars c pd).any fun f => f.name = x && (f.isVar || f.isOpenArray || f.isNamedArray)

/-- Every name of a captured variable reaches the variable of the activation that it belongs to. -/
def StorageRight {V : Type} (pun : String → V → V) (s : LinkState (EmittedProc c ms) String V)
    (t : StaticState (EmittedProc c ms) String String V) : Prop :=
  ∀ h p link x k, s.stack[h]? = some (p, link) → (procScopes c ms).mentions p x →
    Locates (procScopes c ms) s.stack h x k →
    t.read (procPlacement c ms pun) h p x = s.vars k x ∧
      ∃ q link', s.stack[k]? = some (q, link') ∧
        (emitVarAddr c p.chain x).map VarAddr.loads = some (declaredLoads c q.proc.decl x)

/-- The emitted code and the machine with links go through a run, whose steps meet a condition,
with the same captured variables. -/
def CapturesByActivation {V : Type} (pun : String → V → V)
    (ok : LinkState (EmittedProc c ms) String V →
      Core.Event (EmittedProc c ms) String String V → Prop) :
    Prop :=
  ∀ s t, CommonRun (procScopes c ms) (procPlacement c ms pun) ok s t → StorageRight c ms pun s t

/-- The step enters no procedure whose captured variables have the globals of an activation on the
stack, as those of the same procedure have. -/
def NotReentered {V : Type} (s : LinkState (EmittedProc c ms) String V)
    (e : Core.Event (EmittedProc c ms) String String V) : Prop :=
  match e with
  | .enter p _ _ => ∀ f ∈ s.stack, ∀ x ∈ capturedVars c p.proc.decl,
    ∀ y ∈ capturedVars c f.1.proc.decl,
      capturedGlobal p.proc.procName x ≠ capturedGlobal f.1.proc.procName y
  | _ => True

end Machine

/-! ## Addresses in emitted procedures -/

@[simp] theorem varSymbol_sourceName (mangled : String) (pds : List HirBuild.HirProcDecl)
    (x : String) :
    (varSymbol mangled pds x).sourceName = x := by
  rw [varSymbol]
  split <;> rfl

@[simp] theorem varSymbol_mangled (mangled : String) (pds : List HirBuild.HirProcDecl)
    (x : String) :
    (varSymbol mangled pds x).mangled = mangled := by
  rw [varSymbol]
  split <;> rfl

theorem ownNames_subset_declared (pd : HirBuild.HirProcDecl) : pd.ownNames ⊆ pd.declared := by
  intro x hx
  rw [HirBuild.HirProcDecl.ownNames, mem_append] at hx
  rw [HirBuild.HirProcDecl.declared, mem_append, mem_append]
  obtain hx | hx := hx
  · exact .inl (.inl hx)
  · refine .inl (.inr ?_)
    rw [localVars, map_filterMap, mem_filterMap] at hx
    obtain ⟨d, hd, hdx⟩ := hx
    refine mem_map.mpr ⟨d, hd, ?_⟩
    cases d with
    | var name typeId => exact Option.some.inj hdx
    | type | const | exception => simp at hdx

/-- The parameter kind of a variable of the procedure itself. -/
theorem varSymbol_own (mangled : String) {pd : HirBuild.HirProcDecl}
    (pds : List HirBuild.HirProcDecl) {x : String}
    (h : x ∈ pd.ownNames) :
    (varSymbol mangled (pd :: pds) x).isVarParam =
        pd.sig.params.any (fun p => p.name = x && p.isVar) ∧
      (varSymbol mangled (pd :: pds) x).isOpenArray =
        pd.sig.params.any fun p => p.name = x && p.isOpenArray := by
  have hfind : (pd :: pds).find? (fun q => q.declared.contains x) = some pd := by
    rw [find?_cons_of_pos]
    simpa using ownNames_subset_declared pd h
  rw [varSymbol, hfind]
  exact ⟨rfl, rfl⟩

section Frames

variable {c : LlvmContext} {pd : HirBuild.HirProcDecl} {x : String}

theorem mem_frameVars_of_ownNames (h : x ∈ pd.ownNames) : ∃ f ∈ frameVars c pd, f.name = x := by
  rw [HirBuild.HirProcDecl.ownNames, mem_append] at h
  obtain h | h := h
  · obtain ⟨p, hp, rfl⟩ := mem_map.mp h
    exact ⟨paramFrameVar c p, by simpa [frameVars] using .inl ⟨p, hp, rfl⟩, rfl⟩
  · obtain ⟨v, hv, rfl⟩ := mem_map.mp h
    exact ⟨localFrameVar c v, by simpa [frameVars] using .inr (.inr ⟨_, _, hv, rfl⟩), rfl⟩

variable {f : FrameVar}

theorem mem_ownNames_of_isNamedArray (hf : f ∈ frameVars c pd)
    (h : f.isNamedArray) : f.name ∈ pd.ownNames := by
  simp only [frameVars, mem_append, mem_map] at hf
  obtain (⟨p, hp, rfl⟩ | ⟨name, _, rfl⟩) | ⟨v, _, rfl⟩ := hf
  · exact mem_append_left _ (mem_map_of_mem hp)
  · simp [highFrameVar] at h
  · simp [localFrameVar] at h

/-- A parameter that is passed as a pointer is no plain variable of the frame. -/
theorem any_params_eq_false (kind : HirParamDecl → Bool) (kind' : FrameVar → Bool)
    (hkind : ∀ p, kind' (paramFrameVar c p) = kind p)
    (h : ∀ f ∈ frameVars c pd, f.name = x → kind' f = false) :
    (pd.sig.params.any fun p => p.name = x && kind p) = false := by
  rw [any_eq_false]
  intro p hp hpx
  simp only [Bool.and_eq_true, decide_eq_true_eq] at hpx
  have hmem : paramFrameVar c p ∈ frameVars c pd := by
    simpa [frameVars] using .inl ⟨p, hp, rfl⟩
  rw [← hkind, h _ hmem hpx.1] at hpx
  exact absurd hpx.2 (by simp)

theorem slotTy_eq (hf : f ∈ frameVars c pd) (hvar : f.isVar = false)
    (hopen : f.isOpenArray = false) : f.slotTy = if f.isNamedArray then "ptr" else f.ty := by
  simp only [frameVars, mem_append, mem_map] at hf
  obtain (⟨p, hp, rfl⟩ | ⟨name, _, rfl⟩) | ⟨v, _, rfl⟩ := hf
  · have hvar' : p.isVar = false := hvar
    have hopen' : p.isOpenArray = false := hopen
    simp only [paramFrameVar, genHirProcDeclParam, hvar', hopen']
    cases isArrayText (llvmTypeForTypeId c.toParamContext p.typeId) <;> rfl
  · rfl
  · rfl

theorem isArrayText_of_isNamedArray (hf : f ∈ frameVars c pd)
    (h : f.isNamedArray) : isArrayText f.ty := by
  simp only [frameVars, mem_append, mem_map] at hf
  obtain (⟨p, hp, rfl⟩ | ⟨name, _, rfl⟩) | ⟨v, _, rfl⟩ := hf
  · simp only [paramFrameVar, Bool.and_eq_true] at h
    exact h.2
  · simp [highFrameVar] at h
  · simp [localFrameVar] at h

theorem mem_namedArrays : x ∈ namedArrays c pd ↔
    ∃ f ∈ frameVars c pd, f.isNamedArray ∧ f.name = x := by
  simp [namedArrays, and_assoc]

end Frames

section Addresses

variable {c : LlvmContext} {ms : List LlvmModule} {m : LlvmModule}

/-- The path of an emitted procedure in its module. -/
theorem Emitted.path {chain : List LlvmProc} (he : Emitted c ms m chain) :
    ∀ p parents, chain = p :: parents → PathTo m.hir (parents.map LlvmProc.decl) p.decl := by
  induction he with
  | nil => exact fun p parents h => absurd h (by simp)
  | @cons parents globals pd he' hb _ _ _ _ ih =>
    intro p parents' h
    obtain ⟨rfl, rfl⟩ := List.cons.inj h
    cases parents with
    | nil => exact .top hb
    | cons q rest => exact .nested (ih q rest rfl) hb

variable {p : LlvmProc}

theorem Emitted.mem_preorder {parents : List LlvmProc}
    (he : Emitted c ms m (p :: parents)) : p.decl ∈ preorder m.hir.procDecls := by
  cases he with
  | cons _ _ hmem => exact hmem

theorem Emitted.module_eq {parents : List LlvmProc}
    (he : Emitted c ms m (p :: parents)) : p.module = m.hir.name := by
  cases he with
  | cons => rfl

theorem Emitted.parents {parents : List LlvmProc}
    (he : Emitted c ms m (p :: parents)) : Emitted c ms m parents := by
  cases he with
  | cons he => exact he

variable {q : LlvmProc} {rest : List LlvmProc}

theorem Emitted.nested {p : LlvmProc}
    (he : Emitted c ms m (p :: q :: rest)) : p.decl ∈ q.decl.nestedProcs := by
  cases he with
  | cons _ hb => exact hb

/-- What is known where a procedure is emitted is known where one nested in it is. -/
theorem Emitted.extends_parent (hm : m ∈ ms)
    (he : Emitted c ms m (p :: q :: rest)) : Extends ms q.globals p.globals := by
  cases he with
  | cons _ _ hmem _ hi => exact Extends.trans hi (enterProc_extends hm hmem _ _)

theorem Emitted.known (hm : m ∈ ms) {parents : List LlvmProc}
    (he : Emitted c ms m (p :: parents)) : Known c ms p.globals := by
  cases he with
  | cons _ _ hmem hk =>
    refine hk.of_other ?_ fun k hkey hcap => enterProc_get (not_localKey hm hmem hkey) hcap
    exact List.Subset.trans (capturedVars_subset hmem)
      (forestCaptured_subset hm (List.Subset.refl _))

variable {pd : HirBuild.HirProcDecl} {x : String}

theorem mem_capturedNames (hm : m ∈ ms) (hpd : pd ∈ preorder m.hir.procDecls)
    (hx : x ∈ capturedVars c pd) : x ∈ capturedNames c ms :=
  forestCaptured_subset hm (List.Subset.refl _) (capturedVars_subset hpd hx)

theorem capturedVars_nodup (hs : NamesSingle c ms) (hm : m ∈ ms)
    (hpd : pd ∈ preorder m.hir.procDecls) : (capturedVars c pd).Nodup := by
  have hforest := (nodup_flatMap.mp hs.nodup).1 m hm
  exact (nodup_flatMap.mp hforest).1 pd hpd

/-- A captured variable is promoted in its procedure. -/
theorem Emitted.own (hs : NamesSingle c ms) (hm : m ∈ ms)
    {parents : List LlvmProc} (he : Emitted c ms m (p :: parents)) {f : FrameVar}
    (hf : f ∈ frameVars c p.decl) (hcap : f.name ∈ capturedVars c p.decl) :
    Promoted p.procName (procIsNamed c parents p.decl) f.name f.slotTy f.ty
      ⟨p.locals, p.globals, p.promoted⟩ := by
  cases he with
  | cons _ _ hmem _ _ hfree =>
    refine enterProc_promoted (capturedVars_nodup hs hm hmem) hf hcap ?_ (hfree _ hcap)
    exact not_localKey hm hmem (hs.notGlobal _ (mem_capturedNames hm hmem hcap))

theorem mem_ownNames_of_lookup {pd : HirBuild.HirProcDecl} {ty : TypeId}
    (h : pd.vars.lookup x = some ty) : x ∈ pd.ownNames := by
  have hmem := HirBuild.lookup_isSome_iff.mp (Option.isSome_iff_exists.mpr ⟨ty, h⟩)
  rw [HirBuild.HirProcDecl.vars, map_append, map_map] at hmem
  exact hmem

/-- A variable from around a procedure belongs to the one directly around it, or comes from around
that. -/
theorem Emitted.own_or_outer (hx : CapturesExact m) (he : Emitted c ms m (p :: q :: rest))
    (henc : (enclosingVar ((q :: rest).map LlvmProc.decl) x).isSome)
    (hfree : p.decl.MentionsFree x) :
    x ∈ q.decl.ownNames ∧ x ∈ capturedVars c q.decl ∨
      (enclosingVar (rest.map LlvmProc.decl) x).isSome ∧ q.decl.MentionsFree x := by
  by_cases hd : x ∈ q.decl.declared
  · left
    have hcap := (hx _ _ (he.parents.path q rest rfl) _ he.nested x).mpr ⟨henc, hfree⟩
    rw [map_cons, enclosingVar, if_pos hd] at henc
    obtain ⟨ty, hty⟩ := Option.isSome_iff_exists.mp henc
    have hown := mem_ownNames_of_lookup hty
    refine ⟨hown, mem_capturedVars.mpr ⟨mem_frameVars_of_ownNames hown, ?_⟩⟩
    obtain ⟨cap, hmem, rfl⟩ := mem_map.mp hcap
    refine mem_map_of_mem (mem_flatMap.mpr ⟨_, he.nested, ?_⟩)
    exact (mem_filter.mp hmem).1
  · right
    rw [map_cons, enclosingVar, if_neg hd] at henc
    exact ⟨henc, .nested hd he.nested hfree⟩

theorem Emitted.get_own (hs : NamesSingle c ms) (hm : m ∈ ms) (he : Emitted c ms m (p :: q :: rest))
    (hcap : x ∈ capturedVars c q.decl) :
    x ∈ forestCaptured c m.hir.procDecls ∧
      ∃ g, q.globals.get x = some g ∧ p.globals.get x = some g := by
  obtain ⟨⟨f, hf, rfl⟩, _⟩ := mem_capturedVars.mp hcap
  have hg := (he.parents.own hs hm hf hcap).globals
  have hkey := hs.notGlobal _ (mem_capturedNames hm he.parents.mem_preorder hcap)
  exact ⟨capturedVars_subset he.parents.mem_preorder hcap, _, hg, he.extends_parent hm _ _ hkey hg⟩

/-- A captured variable is known by its own name in the procedures nested in its procedure. -/
theorem Emitted.get_outer (hs : NamesSingle c ms) (hm : m ∈ ms) (hx : CapturesExact m) :
    ∀ {rest : List LlvmProc} {p q : LlvmProc}, Emitted c ms m (p :: q :: rest) →
      (enclosingVar ((q :: rest).map LlvmProc.decl) x).isSome → p.decl.MentionsFree x →
      x ∈ forestCaptured c m.hir.procDecls ∧
        ∃ g, q.globals.get x = some g ∧ p.globals.get x = some g
  | [], p, q, he, henc, hfree => by
    obtain ⟨_, hcap⟩ | ⟨henc, _⟩ := he.own_or_outer hx henc hfree
    · exact he.get_own hs hm hcap
    · simp [enclosingVar] at henc
  | r :: rest, p, q, he, henc, hfree => by
    obtain ⟨_, hcap⟩ | ⟨henc, hfree⟩ := he.own_or_outer hx henc hfree
    · exact he.get_own hs hm hcap
    · obtain ⟨hmem, g, _, hg⟩ := he.parents.get_outer hs hm hx henc hfree
      have hkey := hs.notGlobal _ (forestCaptured_subset hm (List.Subset.refl _) hmem)
      exact ⟨hmem, g, hg, he.extends_parent hm _ _ hkey hg⟩

/-- A captured variable is reached through its global in its own procedure. -/
theorem Emitted.addr_own (ha : CapturesApart c ms) (hm : m ∈ ms)
    {parents : List LlvmProc} (he : Emitted c ms m (p :: parents)) {f : FrameVar}
    (hf : f ∈ frameVars c p.decl) (hcap : f.name ∈ capturedVars c p.decl)
    (hown : f.name ∈ p.decl.ownNames) :
    emitVarAddr c (p :: parents) f.name =
      some ⟨.global (capturedGlobal p.procName f.name), isArrayText f.ty &&
        isNamedArrayParam c ((p :: parents).map LlvmProc.decl) f.name⟩ := by
  have hlocals := (he.own ha.toNamesSingle hm hf hcap).locals
  have hkinds : ∀ f' ∈ frameVars c p.decl, f'.name = f.name →
      f'.isVar = false ∧ f'.isOpenArray = false := by
    intro f' hf' hname
    obtain ⟨hvar, hopen, _⟩ := ha.byValue m hm _ _ (he.path p parents rfl) f' hf' (hname ▸ hcap)
    exact ⟨hvar, hopen⟩
  obtain ⟨hvar, hopen⟩ := varSymbol_own f.name (parents.map LlvmProc.decl) hown
  rw [any_params_eq_false HirParamDecl.isVar FrameVar.isVar (fun _ => rfl)
    fun f' hf' hname => (hkinds f' hf' hname).1] at hvar
  rw [any_params_eq_false HirParamDecl.isOpenArray FrameVar.isOpenArray (fun _ => rfl)
    fun f' hf' hname => (hkinds f' hf' hname).2] at hopen
  rw [emitVarAddr, map_cons, head?_cons, Option.bind_some, varBase, if_pos hown, emitPlaceBase]
  simp only [varSymbol_sourceName, hlocals, hvar, hopen, Bool.or_self, Bool.false_or]

/-- A variable from around a procedure is reached through the global of its own name. -/
theorem emitVarAddr_outer (parents : List LlvmProc) {g : LlvmGlobal}
    (hown : x ∉ p.decl.ownNames) (hmangled : p.globals.get (llvmMangle p.module x) = none)
    (hg : p.globals.get x = some g) :
    emitVarAddr c (p :: parents) x =
      some ⟨.global g.name,
        isArrayText g.ty && isNamedArrayParam c ((p :: parents).map LlvmProc.decl) x⟩ := by
  rw [emitVarAddr, map_cons, head?_cons, Option.bind_some, varBase, if_neg hown, emitPlaceBase]
  simp only [varSymbol_sourceName, varSymbol_mangled, hmangled, hg, Option.none_or,
    Option.getD_some]

theorem Emitted.get_mangled (ha : CapturesApart c ms) (hm : m ∈ ms)
    {parents : List LlvmProc} (he : Emitted c ms m (p :: parents))
    (hx : x ∈ forestCaptured c m.hir.procDecls) :
    p.globals.get (llvmMangle p.module x) = none := by
  by_contra hne
  obtain ⟨hkey, hcap⟩ := ha.unmangled m hm x hx
  rw [he.module_eq] at hne
  obtain h | h := he.known hm _ hne
  · exact hkey h
  · exact hcap h

theorem isNamedArrayParam_cons {pds : List HirBuild.HirProcDecl}
    (h : x ∉ pd.ownNames) : isNamedArrayParam c (pd :: pds) x = isNamedArrayParam c pds x := by
  have hnot : x ∉ namedArrays c pd := by
    intro hmem
    obtain ⟨f, hf, hnamed, rfl⟩ := mem_namedArrays.mp hmem
    exact h (mem_ownNames_of_isNamedArray hf hnamed)
  simp [isNamedArrayParam, hnot]

end Addresses

/-! ## Soundness of the placement -/

section Sound

variable {c : LlvmContext} {ms : List LlvmModule}

theorem EmittedProc.emitted (hs : NamesSingle c ms) (p : EmittedProc c ms) :
    ∃ m ∈ ms, Emitted c ms m p.chain := by
  obtain ⟨m, hm, _, he⟩ := emitted_of_mem hs p.mem
  exact ⟨m, hm, he⟩

variable {x : String}

theorem EmittedProc.not_own_of_outer {p : EmittedProc c ms}
    (h : p.MentionsOuter x) : x ∉ p.proc.decl.ownNames := by
  intro hown
  obtain ⟨hdecl, _⟩ := usesFree_iff.mp h.2
  exact hdecl (ownNames_subset_declared _ hown)

/-- A procedure reaches a variable from around it as the procedure directly around it does. -/
theorem addr_inherited (ha : CapturesApart c ms) (hx : ∀ m ∈ ms, CapturesExact m)
    {p q : EmittedProc c ms} (hin : p.parents = q.chain) (h : p.MentionsOuter x) :
    (q.Declares x ∨ q.MentionsOuter x) ∧ ∃ g loads,
      emitVarAddr c p.chain x = some ⟨.global g, loads⟩ ∧
        emitVarAddr c q.chain x = some ⟨.global g, loads⟩ := by
  obtain ⟨m, hm, he⟩ := p.emitted ha.toNamesSingle
  rw [EmittedProc.chain, hin, EmittedProc.chain] at he
  have hown := EmittedProc.not_own_of_outer h
  obtain ⟨henc, hfree⟩ := h
  rw [hin, EmittedProc.chain] at henc
  obtain ⟨hmem, g, hgq, hgp⟩ := he.get_outer ha.toNamesSingle hm (hx m hm) henc hfree
  have haddr := emitVarAddr_outer (c := c) p.parents hown
    (he.get_mangled ha hm hmem) hgp
  have hcase := he.own_or_outer (hx m hm) henc hfree
  refine ⟨hcase, g.name, _, haddr, ?_⟩
  rw [hin, EmittedProc.chain, map_cons, isNamedArrayParam_cons hown]
  obtain ⟨hownq, hcap⟩ | houter := hcase
  · obtain ⟨⟨f, hf, rfl⟩, _⟩ := mem_capturedVars.mp hcap
    have hglobal := (he.parents.own ha.toNamesSingle hm hf hcap).globals
    obtain rfl := Option.some.inj (hgq.symm.trans hglobal)
    exact he.parents.addr_own ha hm hf hcap hownq
  · exact emitVarAddr_outer _ (EmittedProc.not_own_of_outer (p := q) houter)
      (he.parents.get_mangled ha hm hmem) hgq

/-- The load of an array value parameter is emitted for exactly the variables that are one. -/
theorem isNamed_eq (ha : CapturesApart c ms) {m : LlvmModule} (hm : m ∈ ms) {p : LlvmProc}
    {parents : List LlvmProc} (he : Emitted c ms m (p :: parents)) {f : FrameVar}
    (hf : f ∈ frameVars c p.decl) (hcap : f.name ∈ capturedVars c p.decl) :
    isNamedArrayParam c (p.decl :: parents.map LlvmProc.decl) f.name = f.isNamedArray := by
  have hd := capturedVars_nodup ha.toNamesSingle hm he.mem_preorder
  rw [Bool.eq_iff_iff, isNamedArrayParam, any_cons, Bool.or_eq_true, contains_iff_mem,
    mem_namedArrays]
  constructor
  · rintro (⟨f', hf', hnamed, hname⟩ | hround)
    · rw [← eq_of_capturedVars_nodup hd hf hf' hname hcap]
      exact hnamed
    · exact (ha.byValue m hm _ _ (he.path p parents rfl) f hf hcap).2.2 hround
  · exact fun hnamed => .inl ⟨f, hf, hnamed, rfl⟩

theorem loads_eq (ha : CapturesApart c ms) {q : EmittedProc c ms} (h : q.Declares x) :
    (emitVarAddr c q.chain x).map VarAddr.loads = some (declaredLoads c q.proc.decl x) := by
  obtain ⟨m, hm, he⟩ := q.emitted ha.toNamesSingle
  obtain ⟨hown, hcap⟩ := h
  obtain ⟨⟨f, hf, rfl⟩, _⟩ := mem_capturedVars.mp hcap
  have hd := capturedVars_nodup ha.toNamesSingle hm he.mem_preorder
  obtain ⟨hvar, hopen, _⟩ := ha.byValue m hm _ _ (he.path _ _ rfl) f hf hcap
  have hdeclared : declaredLoads c q.proc.decl f.name = f.isNamedArray := by
    rw [Bool.eq_iff_iff, declaredLoads, any_eq_true]
    constructor
    · rintro ⟨f', hf', hload⟩
      simp only [Bool.and_eq_true, decide_eq_true_eq] at hload
      rw [eq_of_capturedVars_nodup hd hf hf' hload.1 hcap] at hload
      simpa [hvar, hopen] using hload.2
    · exact fun hnamed => ⟨f, hf, by simp [hnamed]⟩
  have haddr := he.addr_own ha hm hf hcap hown
  rw [EmittedProc.chain, haddr, Option.map_some, map_cons, isNamed_eq ha hm he hf hcap, hdeclared]
  cases hnamed : f.isNamedArray with
  | false => simp
  | true => simp [isArrayText_of_isNamedArray hf hnamed]

theorem capturedGlobal_inj {procName y : String}
    (h : capturedGlobal procName x = capturedGlobal procName y) : x = y :=
  (String.append_right_inj _).mp h

/-- What an emitted procedure promotes. -/
theorem EmittedProc.promoted_spec (ha : CapturesApart c ms) (p : EmittedProc c ms)
    {pr : Promotion} (h : pr ∈ p.proc.promoted) :
    pr.name ∈ capturedVars c p.proc.decl ∧
      pr.global = capturedGlobal p.proc.procName pr.name ∧ pr.loadTy = pr.slotTy ∧
        ∃ loads, emitVarAddr c p.chain pr.name = some ⟨.global pr.global, loads⟩ := by
  obtain ⟨m, hm, he⟩ := p.emitted ha.toNamesSingle
  have hspec : pr.global = capturedGlobal p.proc.procName pr.name ∧
      ∃ f ∈ frameVars c p.proc.decl, f.name = pr.name ∧ pr.name ∈ capturedVars c p.proc.decl ∧
        pr.slotTy = f.slotTy ∧
          pr.loadTy = if procIsNamed c p.parents p.proc.decl pr.name then "ptr" else f.ty := by
    rw [EmittedProc.chain] at he
    generalize p.proc = proc at he h
    cases he with
    | cons => exact exists_of_mem_promoted h
  obtain ⟨hglobal, f, hf, hname, hcap, hslot, hload⟩ := hspec
  rw [← hname] at hcap hglobal hload ⊢
  obtain ⟨hvar, hopen, _⟩ := ha.byValue m hm _ _ (he.path _ _ rfl) f hf hcap
  refine ⟨hcap, hglobal, ?_, ?_⟩
  · rw [hload, hslot, slotTy_eq hf hvar hopen, procIsNamed, isNamed_eq ha hm he hf hcap]
  · by_cases hown : f.name ∈ p.proc.decl.ownNames
    · rw [hglobal]
      exact ⟨_, he.addr_own ha hm hf hcap hown⟩
    · have hget := (he.own ha.toNamesSingle hm hf hcap).globals
      have hmangled := he.get_mangled ha hm (capturedVars_subset he.mem_preorder hcap)
      rw [hglobal]
      exact ⟨_, emitVarAddr_outer _ hown hmangled hget⟩

/-- The emitted code keeps captured variables where its procedures look for them. -/
theorem procPlacement_sound (ha : CapturesApart c ms) (hx : ∀ m ∈ ms, CapturesExact m) {V : Type}
    (pun : String → V → V) : (procPlacement c ms pun).Sound (procScopes c ms) where
  own p x g hd hplace := by
    obtain ⟨m, hm, he⟩ := p.emitted ha.toNamesSingle
    obtain ⟨hown, hcap⟩ := hd
    obtain ⟨⟨f, hf, rfl⟩, _⟩ := mem_capturedVars.mp hcap
    have hmem := (he.own ha.toNamesSingle hm hf hcap).promoted
    simp only [procPlacement, EmittedProc.chain, he.addr_own ha hm hf hcap hown] at hplace
    obtain rfl := Option.some.inj hplace
    exact mem_map.mpr ⟨_, hmem, rfl⟩
  promoted p x g h := by
    obtain ⟨pr, hpr, heq⟩ := mem_map.mp h
    obtain ⟨rfl, rfl⟩ := Prod.mk.inj heq
    obtain ⟨_, _, _, loads, haddr⟩ := p.promoted_spec ha hpr
    simp only [procPlacement, haddr]
  promoted_inj p x y g h h' := by
    obtain ⟨pr, hpr, heq⟩ := mem_map.mp h
    obtain ⟨pr', hpr', heq'⟩ := mem_map.mp h'
    obtain ⟨rfl, rfl⟩ := Prod.mk.inj heq
    obtain ⟨rfl, hglobal⟩ := Prod.mk.inj heq'
    rw [(p.promoted_spec ha hpr).2.1, (p.promoted_spec ha hpr').2.1] at hglobal
    exact (capturedGlobal_inj hglobal).symm
  copy p x g v h := by
    simp only [procPlacement]
    split
    · next pr hfind =>
      exact if_pos (p.promoted_spec ha (mem_of_find?_eq_some hfind)).2.2.1
    · rfl
  inherit p q x hmention hown hin := by
    have houter := hmention.resolve_left hown
    obtain ⟨hq, g, loads, hp, hq'⟩ := addr_inherited ha hx hin houter
    refine ⟨hq, g, ?_, ?_⟩
    · simp only [procPlacement, hp]
    · simp only [procPlacement, hq']

/-- No cell of a procedure that is not entered again is in use. -/
theorem fresh_of_notReentered (ha : CapturesApart c ms) {V : Type} {pun : String → V → V}
    {s : LinkState (EmittedProc c ms) String V} {e : Core.Event (EmittedProc c ms) String String V}
    (h : NotReentered c ms s e) : e.Fresh (procPlacement c ms pun) s := by
  cases e with
  | enter p link init =>
    intro f hf x y g hx hy
    obtain ⟨pr, hpr, heq⟩ := mem_map.mp hx
    obtain ⟨pr', hpr', heq'⟩ := mem_map.mp hy
    obtain ⟨hcap, hglobal, _⟩ := p.promoted_spec ha hpr
    obtain ⟨hcap', hglobal', _⟩ := f.1.promoted_spec ha hpr'
    obtain ⟨rfl, rfl⟩ := Prod.mk.inj heq
    obtain ⟨rfl, hsame⟩ := Prod.mk.inj heq'
    refine h f hf pr.name hcap pr'.name hcap' ?_
    rw [← hglobal, ← hglobal']
    exact hsame.symm
  | _ => trivial

end Sound

/-- Captured variables whose names are used for nothing else, and that are neither `VAR` nor open
array parameters, belong to the activation, in every run that enters no procedure while an
activation of it with captured variables is on the stack. -/
theorem capturesByActivation {c : LlvmContext} {ms : List LlvmModule}
    (hx : ∀ m ∈ ms, CapturesExact m) (ha : CapturesApart c ms) {V : Type} (pun : String → V → V) :
    CapturesByActivation c ms pun (NotReentered c ms) := by
  intro s t hrun h p link x k hp hmention hloc
  have hs := procPlacement_sound ha hx pun
  have hagree := hrun.agree hs fun _ _ => fresh_of_notReentered ha
  refine ⟨hagree.read_eq hs hloc hp hmention, ?_⟩
  have hsame : ∀ p q x, (procScopes c ms).mentions p x → ¬ (procScopes c ms).declares p x →
      (procScopes c ms).inside p q →
        (emitVarAddr c p.chain x).map VarAddr.loads =
          (emitVarAddr c q.chain x).map VarAddr.loads := by
    intro p q x hm hd hin
    obtain ⟨_, g, loads, hpa, hqa⟩ := addr_inherited ha hx hin (hm.resolve_left hd)
    rw [hpa, hqa]
  obtain ⟨q, link', hk, hd, heq⟩ := hagree.inherited hs hsame hloc hp hmention
  exact ⟨q, link', hk, heq.trans (loads_eq ha hd)⟩

/-! ## A procedure that is entered again -/

/-- A procedure `N` that returns the captured `x`. -/
def capturingN : HirBuild.HirProcDecl :=
  { procN returnX with closureCaptures := [⟨"x", tyInteger, false⟩] }

/-- A procedure `P` with a variable `x` and the procedure `N` in it. -/
def capturedP : HirBuild.HirProcDecl := { procP returnX with nestedProcs := [capturingN] }

/-- A module with the procedure `P`. -/
def capturedModule : LlvmModule := ⟨bareModule [capturedP], []⟩

theorem preorder_capturedP : preorder capturedModule.hir.procDecls = [capturedP, capturingN] := by
  simp [capturedModule, bareModule, preorder_cons, preorder, capturedP, capturingN, procN, bareProc]

theorem path_capturedModule {chain : List HirBuild.HirProcDecl} {p : HirBuild.HirProcDecl}
    (h : PathTo capturedModule.hir chain p) : chain = [] ∧ p = capturedP ∨ p = capturingN := by
  cases h with
  | top hp => exact .inl ⟨rfl, by simpa [capturedModule, bareModule] using hp⟩
  | @nested chain q _ hq hp =>
    have hmem := hq.mem_preorder q (by simp)
    rw [preorder_capturedP] at hmem
    simp only [mem_cons, not_mem_nil, or_false] at hmem
    obtain rfl | rfl := hmem
    · exact .inr (by simpa [capturedP] using hp)
    · exact absurd hp (by simp [capturingN, procN, bareProc])

theorem enclosingVar_capturedP (x : String) :
    (enclosingVar [capturedP] x).isSome ↔ x = "x" := by
  have hvars : capturedP.vars = [("x", tyInteger)] := rfl
  have hdeclared : capturedP.declared = ["x", "N"] := rfl
  rw [enclosingVar, enclosingVar, hvars, hdeclared, lookup_cons, lookup_nil]
  by_cases h : x = "x"
  · simp [h]
  · have hbeq : (x == "x") = false := by simpa using h
    simp [h, hbeq]

theorem capturesExact_capturedModule : CapturesExact capturedModule := by
  intro chain p hpath np hnp x
  obtain ⟨rfl, rfl⟩ | rfl := path_capturedModule hpath
  · obtain rfl : np = capturingN := by simpa [capturedP] using hnp
    rw [enclosingVar_capturedP]
    constructor
    · intro hx
      obtain rfl : x = "x" := by simpa [capturingN] using hx
      refine ⟨rfl, UsesFree.own ?_ ?_⟩
      · simp [HirBuild.HirProcDecl.declared, capturingN, procN, bareProc,
          HirBuild.HirProcDecl.childNames]
      · simp [capturingN, procN, bodyMentions, stmtMentions, returnX, optionalExprMentions,
          exprMentions, placeMentions, placeX, baseVar]
    · rintro ⟨rfl, -⟩
      simp [capturingN]
  · exact absurd hnp (by simp [capturingN, procN, bareProc])

theorem frameVars_capturedP :
    frameVars plainLlvm capturedP = [localFrameVar plainLlvm ("x", tyInteger)] := rfl

theorem capturedVars_capturedP : capturedVars plainLlvm capturedP = ["x"] := by
  rw [capturedVars, frameVars_capturedP]
  simp [localFrameVar, nestedClosureCaptures, capturedP, capturingN]

theorem capturedVars_capturingN : capturedVars plainLlvm capturingN = [] := rfl

theorem forestCaptured_capturedModule :
    forestCaptured plainLlvm capturedModule.hir.procDecls = ["x"] := by
  simp [forestCaptured, preorder_capturedP, capturedVars_capturedP, capturedVars_capturingN]

theorem not_globalKey_capturedModule (k : String) : ¬ GlobalKey [capturedModule] k := by
  rintro ⟨m, hm, ⟨d, hd, _⟩ | ⟨pd, hpd, d, hd, hkey⟩⟩
  · obtain rfl := mem_singleton.mp hm
    exact absurd hd (by simp [capturedModule])
  · obtain rfl := mem_singleton.mp hm
    rw [preorder_capturedP] at hpd
    simp only [mem_cons, not_mem_nil, or_false] at hpd
    obtain rfl | rfl := hpd
    · obtain rfl : d = .var "x" tyInteger := by simpa [capturedP, procP] using hd
      exact hkey
    · exact absurd hd (by simp [capturingN, procN, bareProc])

theorem capturesApart_capturedModule : CapturesApart plainLlvm [capturedModule] := by
  have hnames : capturedNames plainLlvm [capturedModule] = ["x"] := by
    simp [capturedNames, forestCaptured_capturedModule]
  refine { nodup := ?_, notGlobal := ?_, unmangled := ?_, byValue := ?_ }
  · simp [hnames]
  · exact fun x _ => not_globalKey_capturedModule x
  · intro m hm x hx
    obtain rfl := mem_singleton.mp hm
    rw [forestCaptured_capturedModule, mem_singleton] at hx
    subst hx
    refine ⟨not_globalKey_capturedModule _, ?_⟩
    rw [hnames]
    simp [llvmMangle, capturedModule, bareModule]
  · intro m hm chain pd hpath f hf _
    obtain rfl := mem_singleton.mp hm
    obtain ⟨rfl, rfl⟩ | rfl := path_capturedModule hpath
    · rw [frameVars_capturedP, mem_singleton] at hf
      subst hf
      exact ⟨rfl, rfl, by simp [isNamedArrayParam]⟩
    · exact absurd hf (by simp [frameVars, capturingN, procN, bareProc,
        HirBuild.HirProcDecl.highNames,
        localVars])

theorem capturesByActivation_capturedModule :
    CapturesByActivation plainLlvm [capturedModule] (fun _ (v : Int) => v)
      (NotReentered plainLlvm [capturedModule]) :=
  capturesByActivation (fun m hm => by
    obtain rfl := mem_singleton.mp hm
    exact capturesExact_capturedModule) capturesApart_capturedModule _

/-- The procedure `P` as it is emitted. -/
def emittedP : EmittedProc plainLlvm [capturedModule] where
  proc := enterProc plainLlvm "M" [] [] capturedP
  parents := []
  mem := by
    simp [genModules, capturedModule, bareModule, capturedP, genHirProcDecls]

/-- `P` calls itself and returns: the inner activation has overwritten the `x` of the outer one. -/
theorem not_capturesByActivation_capturedModule :
    CapturesExact capturedModule ∧
      ¬ CapturesByActivation plainLlvm [capturedModule] (fun _ (v : Int) => v)
        fun _ _ => True := by
  refine ⟨capturesExact_capturedModule, fun h => ?_⟩
  have hs := procPlacement_sound capturesApart_capturedModule (fun m hm => by
    obtain rfl := mem_singleton.mp hm
    exact capturesExact_capturedModule) (fun _ (v : Int) => v)
  have hdeclares : emittedP.Declares "x" :=
    ⟨by simp [emittedP, enterProc, capturedP, procP, bareProc, HirBuild.HirProcDecl.ownNames,
      localVars],
      by simp [emittedP, enterProc, capturedVars_capturedP]⟩
  obtain ⟨g, hplace⟩ : ∃ g, (procPlacement plainLlvm [capturedModule] (fun _ (v : Int) => v)).place
      emittedP "x" = some g := by
    obtain ⟨m, hm, he⟩ := emittedP.emitted capturesApart_capturedModule.toNamesSingle
    obtain ⟨⟨f, hf, hname⟩, _⟩ := mem_capturedVars.mp hdeclares.2
    have haddr := he.addr_own capturesApart_capturedModule hm hf (hname ▸ hdeclares.2)
      (hname ▸ hdeclares.1)
    rw [hname] at haddr
    exact ⟨_, by simp only [procPlacement, EmittedProc.chain, haddr]; rfl⟩
  have hmem := hs.own _ _ _ hdeclares hplace
  -- The run: `P` with `x = 1`, `P` again with `x = 2`, and back.
  have hrun : CommonRun (procScopes plainLlvm [capturedModule])
      (procPlacement plainLlvm [capturedModule] fun _ (v : Int) => v) (fun _ _ => True) _ _ :=
    (((CommonRun.start (fun _ _ => 0) (fun _ _ => 0) (fun _ => 0)).step
      (e := .enter emittedP none fun _ => 1) (.enterOutermost rfl) trivial trivial).step
      (e := .enter emittedP none fun _ => 2) (.enterOutermost rfl) trivial trivial).step
      (e := .leave) .leave trivial trivial
  obtain ⟨hread, -⟩ := h _ _ hrun 0 emittedP none "x" 0 rfl (.inl hdeclares) (.here rfl hdeclares)
  rw [StaticState.read, hplace] at hread
  have hcell : ∀ cells : String → Int, promote cells (fun x => (procPlacement plainLlvm
      [capturedModule] (fun _ (v : Int) => v)).copy emittedP x 2)
      ((procPlacement plainLlvm [capturedModule] (fun _ (v : Int) => v)).promoted emittedP) g = 2 :=
    fun cells => (promote_of_mem hmem fun y hy => hs.promoted_inj _ _ _ _ hy hmem).trans
      (hs.copy _ _ _ _ hmem)
  have hone : (2 : Int) = 1 := (hcell _).symm.trans hread
  exact absurd hone (by decide)

end Mx.CodeGen

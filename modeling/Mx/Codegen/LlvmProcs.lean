import Mx.Codegen.ParamPassing
import Mx.HirBuild.CaptureLists

/-!
# Procedures in the LLVM backend

`gen_hir_proc_decl` as far as it decides where variables are kept: the slots of parameters and
variables, the promotion of captured ones to globals, the map of globals that is kept from one
procedure to the next, and the addresses that `emit_place_addr` takes for a name.
-/

namespace Mx.CodeGen

open HirBuild

/-- A global of the LLVM module, with its type. -/
structure LlvmGlobal where
  name : String
  ty : String
  deriving DecidableEq, Repr

/-- The address of a variable: a slot in the frame that holds a type, or a global. -/
inductive LlvmAddr where
  | alloca (slotTy : String)
  | global (name : String)
  deriving DecidableEq, Repr

/-- An entry of `locals`. A slot is told from other slots of the procedure by its key. -/
structure LlvmVar where
  addr : LlvmAddr
  ty : String
  deriving DecidableEq, Repr

/-- What the emission of procedures reads of the rest of the code generator. -/
structure LlvmContext extends ParamContext where
  /-- `anon_record_counter`, when the given globals are known. -/
  anonRecordCounter : NameMap LlvmGlobal → Nat
  /-- `tl_type_str` -/
  tlTypeStr : TypeId → String

/-- The rest of the code generator, with types that do not matter. -/
def plainLlvm : LlvmContext :=
  { arrayContext with anonRecordCounter := fun _ => 0, tlTypeStr := fun _ => "i32" }

/-- A module in the order of its emission: declarations, then procedures. -/
structure LlvmModule where
  hir : HirModule
  decls : List HirBuild.HirLocalDecl

/-- `mangle`. -/
def llvmMangle (module name : String) : String := module ++ "_" ++ name

/-! ## Declarations of globals -/

section Declarations

variable (c : LlvmContext) (module : String) (globals : NameMap LlvmGlobal)

/-- A constant that is kept in a global. -/
def declareConst (name ty : String) : NameMap LlvmGlobal :=
  let mangled := llvmMangle module name
  let mangled :=
    if globals.contains mangled then
      mangled ++ "_" ++ toString (c.anonRecordCounter globals + 1)
    else mangled
  (globals.insert name ⟨"@" ++ mangled, ty⟩).insert mangled ⟨"@" ++ mangled, ty⟩

/-- One constant in `gen_hir_const_decls_from`. Strings of one byte are characters. -/
def genHirConstDecl (d : HirConstDecl) : NameMap LlvmGlobal :=
  match d.value with
  | .string s =>
    if s.utf8ByteSize = 1 then globals else declareConst c module globals d.name "ptr"
  | .real _ => declareConst c module globals d.name "double"
  | _ => globals

/-- One variable in `gen_hir_var_decls_global_from`. -/
def genHirVarDeclGlobal (name : String) (typeId : TypeId) : NameMap LlvmGlobal :=
  let mangled := llvmMangle module name
  let ty := llvmTypeForTypeId c.toParamContext (c.reg.resolveAll typeId)
  if globals.contains mangled then globals
  else (globals.insert name ⟨"@" ++ mangled, ty⟩).insert mangled ⟨"@" ++ mangled, ty⟩

/-- One exception in `gen_hir_exception_decls_from`. -/
def genHirExceptionDecl (name mangled : String) : NameMap LlvmGlobal :=
  (globals.insert name ⟨"@" ++ mangled, "i32"⟩).insert mangled ⟨"@" ++ mangled, "i32"⟩

/-- The globals that `gen_hir_local_decl` declares. -/
def genHirLocalGlobals : HirBuild.HirLocalDecl → NameMap LlvmGlobal
  | .var .. | .type .. => globals
  | .const d => genHirConstDecl c module globals d
  | .exception name mangled _ => genHirExceptionDecl globals name mangled

/-- The globals of a declaration of a module. -/
def genModuleGlobals : HirBuild.HirLocalDecl → NameMap LlvmGlobal
  | .var name typeId => genHirVarDeclGlobal c module globals name typeId
  | d => genHirLocalGlobals c module globals d

end Declarations

/-! ## Frames -/

/-- A variable of a procedure when it is entered. -/
structure FrameVar where
  name : String
  slotTy : String
  ty : String
  isVar : Bool
  isOpenArray : Bool
  /-- The variable is in `named_array_params`. -/
  isNamedArray : Bool
  deriving DecidableEq, Repr

/-- The slot of a parameter. -/
def paramFrameVar (c : LlvmContext) (p : HirParamDecl) : FrameVar where
  name := p.name
  slotTy := (genHirProcDeclParam c.toParamContext p).slot
  ty := llvmTypeForTypeId c.toParamContext p.typeId
  isVar := p.isVar
  isOpenArray := p.isOpenArray
  isNamedArray :=
    !p.isVar && !p.isOpenArray && isArrayText (llvmTypeForTypeId c.toParamContext p.typeId)

/-- The slot of the bound of an open array. -/
def highFrameVar (name : String) : FrameVar where
  name := name
  slotTy := "i32"
  ty := "i32"
  isVar := false
  isOpenArray := false
  isNamedArray := false

/-- The slot of a local variable. -/
def localFrameVar (c : LlvmContext) (v : String × TypeId) : FrameVar where
  name := v.1
  slotTy := llvmTypeForTypeId c.toParamContext (c.reg.resolveAll v.2)
  ty := llvmTypeForTypeId c.toParamContext (c.reg.resolveAll v.2)
  isVar := false
  isOpenArray := false
  isNamedArray := false

/-- The variables of a procedure in the order in which they are entered into `locals`. -/
def frameVars (c : LlvmContext) (pd : HirBuild.HirProcDecl) : List FrameVar :=
  pd.sig.params.map (paramFrameVar c) ++ pd.highNames.map highFrameVar ++
    (localVars pd.locals).map (localFrameVar c)

/-- The names of the parameters in `named_array_params`. -/
def namedArrays (c : LlvmContext) (pd : HirBuild.HirProcDecl) : List String :=
  ((frameVars c pd).filter FrameVar.isNamedArray).map FrameVar.name

/-- `locals` before captured variables are promoted. -/
def frameLocals (c : LlvmContext) (pd : HirBuild.HirProcDecl) : NameMap LlvmVar :=
  (frameVars c pd).foldl (fun t f => t.insert f.name ⟨.alloca f.slotTy, f.ty⟩) []

/-! ## Promotion -/

/-- A captured variable that is copied to a global on entry: the slot is loaded at a type. -/
structure Promotion where
  name : String
  global : String
  slotTy : String
  loadTy : String
  deriving DecidableEq, Repr

/-- What promotion changes. -/
structure PromoteState where
  locals : NameMap LlvmVar
  globals : NameMap LlvmGlobal
  promoted : List Promotion

/-- The global that a captured variable is promoted to. -/
def capturedGlobal (procName name : String) : String := "@" ++ procName ++ "_" ++ name

/-- The slot of a captured variable is copied to a new global. -/
def PromoteState.promote (st : PromoteState) (procName : String) (isNamed : String → Bool)
    (name slotTy ty : String) : PromoteState where
  locals := st.locals.insert name ⟨.global (capturedGlobal procName name), ty⟩
  globals := st.globals.insert name ⟨capturedGlobal procName name, ty⟩
  promoted := st.promoted ++
    [⟨name, capturedGlobal procName name, slotTy, if isNamed name then "ptr" else ty⟩]

/-- One captured variable of a nested procedure. -/
def promoteCapture (procName : String) (isNamed : String → Bool) (st : PromoteState)
    (cap : CapturedVar) : PromoteState :=
  match st.globals.get cap.name with
  | some g => { st with locals := st.locals.orInsert cap.name ⟨.global g.name, g.ty⟩ }
  | none =>
    match st.locals.get cap.name with
    | some ⟨.alloca slotTy, ty⟩ => st.promote procName isNamed cap.name slotTy ty
    | _ => st

/-- The captured variables of the nested procedures. -/
def nestedClosureCaptures (pd : HirBuild.HirProcDecl) : List CapturedVar :=
  pd.nestedProcs.flatMap HirBuild.HirProcDecl.closureCaptures

/-! ## Procedures -/

/-- A procedure when its body is emitted. -/
structure LlvmProc where
  module : String
  decl : HirBuild.HirProcDecl
  procName : String
  locals : NameMap LlvmVar
  globals : NameMap LlvmGlobal
  promoted : List Promotion

/-- The name of the function of a procedure nested in the given ones. -/
def llvmProcName (module : String) (parents : List LlvmProc) (pd : HirBuild.HirProcDecl) : String :=
  match parents with
  | [] => llvmMangle module pd.name
  | parent :: _ => parent.procName ++ "_" ++ pd.name

/-- `is_named_array_param` in a procedure nested in others. -/
def isNamedArrayParam (c : LlvmContext) (pds : List HirBuild.HirProcDecl) (name : String) : Bool :=
  pds.any fun pd => (namedArrays c pd).contains name

/-- `gen_hir_proc_decl` up to the body. -/
def enterProc (c : LlvmContext) (module : String) (parents : List LlvmProc)
    (globals : NameMap LlvmGlobal) (pd : HirBuild.HirProcDecl) : LlvmProc :=
  let procName := llvmProcName module parents pd
  let isNamed := isNamedArrayParam c (pd :: parents.map LlvmProc.decl)
  let st := (nestedClosureCaptures pd).foldl (promoteCapture procName isNamed)
    ⟨frameLocals c pd, pd.locals.foldl (genHirLocalGlobals c module) globals, []⟩
  ⟨module, pd, procName, st.locals, st.globals, st.promoted⟩

/-- `gen_hir_proc_decl` for the procedures of a forest: each procedure with the ones around it, the
innermost first, and the globals known afterwards. -/
def genHirProcDecls (c : LlvmContext) (module : String) (parents : List LlvmProc)
    (globals : NameMap LlvmGlobal) : List HirBuild.HirProcDecl →
      List (List LlvmProc) × NameMap LlvmGlobal
  | [] => ([], globals)
  | ⟨sig, body, locals, nested, captures, cfg⟩ :: pds =>
    let proc := enterProc c module parents globals ⟨sig, body, locals, nested, captures, cfg⟩
    let inner := genHirProcDecls c module (proc :: parents) proc.globals nested
    let rest := genHirProcDecls c module parents inner.2 pds
    ((proc :: parents) :: (inner.1 ++ rest.1), rest.2)

/-- The modules of a program, one after another. -/
def genModules (c : LlvmContext) (globals : NameMap LlvmGlobal) :
    List LlvmModule → List (List LlvmProc) × NameMap LlvmGlobal
  | [] => ([], globals)
  | m :: ms =>
    let declared := m.decls.foldl (genModuleGlobals c m.hir.name) globals
    let procs := genHirProcDecls c m.hir.name [] declared m.hir.procDecls
    let rest := genModules c procs.2 ms
    (procs.1 ++ rest.1, rest.2)

/-! ## Addresses -/

/-- The symbol that a name means in the given procedures, the innermost first. -/
def varSymbol (mangled : String) (pds : List HirBuild.HirProcDecl) (name : String) : SymbolId :=
  match pds.find? fun pd => pd.declared.contains name with
  | some pd => {
      mangled := mangled
      sourceName := name
      moduleName := none
      ty := (pd.vars.lookup name).getD tyInteger
      isVarParam := pd.sig.params.any fun p => p.name = name && p.isVar
      isOpenArray := pd.sig.params.any fun p => p.name = name && p.isOpenArray }
  | none => ⟨mangled, name, none, tyInteger, false, false⟩

/-- `resolve_base` for a variable: one of the procedure itself is a local base, one from outside a
global base with a mangled name. -/
def varBase (module : String) (pds : List HirBuild.HirProcDecl) (name : String) : PlaceBase :=
  match pds with
  | [] => .globalVar (varSymbol (llvmMangle module name) [] name)
  | pd :: _ =>
    if name ∈ pd.ownNames then .localVar (varSymbol name pds name)
    else .globalVar (varSymbol (llvmMangle module name) pds name)

/-- The address of a variable, and whether the pointer in it is followed. -/
structure VarAddr where
  addr : LlvmAddr
  loads : Bool
  deriving DecidableEq, Repr

/-- The bases in `emit_place_addr`. The kind of a parameter is looked at for local bases only. -/
def emitPlaceBase (c : LlvmContext) (p : LlvmProc) (isNamed : String → Bool) :
    PlaceBase → Option VarAddr
  | .localVar sid =>
    let v := match p.locals.get sid.sourceName with
      | some v => v
      | none =>
        match ((p.globals.get sid.sourceName).or (p.globals.get sid.mangled)).or
          (p.globals.get (llvmMangle p.module sid.sourceName)) with
        | some g => ⟨.global g.name, g.ty⟩
        | none => ⟨.global sid.mangled, c.tlTypeStr sid.ty⟩
    some ⟨v.addr, sid.isVarParam || sid.isOpenArray || (isArrayText v.ty && isNamed sid.sourceName)⟩
  | .globalVar sid =>
    let g := ((p.globals.get sid.mangled).or (p.globals.get sid.sourceName)).getD
      ⟨"@" ++ sid.mangled, c.tlTypeStr sid.ty⟩
    some ⟨.global g.name, isArrayText g.ty && isNamed sid.sourceName⟩
  | _ => none

/-- The address that the body of a procedure takes for a variable. -/
def emitVarAddr (c : LlvmContext) (chain : List LlvmProc) (name : String) : Option VarAddr :=
  let pds := chain.map LlvmProc.decl
  chain.head?.bind fun p => emitPlaceBase c p (isNamedArrayParam c pds) (varBase p.module pds name)

/-! ## What promotion does -/

section Promotion

variable {procName : String} {isNamed : String → Bool}

theorem get_promoteCapture_of_ne (st : PromoteState) {cap : CapturedVar} {x : String}
    (h : x ≠ cap.name) :
    (promoteCapture procName isNamed st cap).locals.get x = st.locals.get x ∧
      (promoteCapture procName isNamed st cap).globals.get x = st.globals.get x := by
  rw [promoteCapture]
  split
  · refine ⟨?_, rfl⟩
    rw [NameMap.orInsert]
    split_ifs
    · rfl
    · rw [NameMap.get_insert, if_neg h]
  · split
    · rw [PromoteState.promote]
      simp only [NameMap.get_insert, if_neg h, and_self]
    · exact ⟨rfl, rfl⟩

/-- A variable with a global and an entry of its own keeps both. -/
theorem get_promoteCapture_of_some (st : PromoteState) (cap : CapturedVar) {x : String}
    {g : LlvmGlobal} {v : LlvmVar} (hg : st.globals.get x = some g)
    (hv : st.locals.get x = some v) :
    (promoteCapture procName isNamed st cap).locals.get x = some v ∧
      (promoteCapture procName isNamed st cap).globals.get x = some g := by
  by_cases h : x = cap.name
  · subst h
    have hcontains : st.locals.contains cap.name = true := by rw [NameMap.contains, hv]; rfl
    rw [promoteCapture, hg]
    simp only [NameMap.orInsert, hcontains, if_true]
    exact ⟨hv, hg⟩
  · rw [(get_promoteCapture_of_ne st h).1, (get_promoteCapture_of_ne st h).2]
    exact ⟨hv, hg⟩

theorem promoted_subset_promoteCapture (st : PromoteState) (cap : CapturedVar) :
    st.promoted ⊆ (promoteCapture procName isNamed st cap).promoted := by
  rw [promoteCapture]
  split
  · exact List.Subset.refl _
  · split
    · exact List.subset_append_left _ _
    · exact List.Subset.refl _

theorem promoted_subset_foldl (caps : List CapturedVar) (st : PromoteState) :
    st.promoted ⊆ (caps.foldl (promoteCapture procName isNamed) st).promoted := by
  induction caps generalizing st with
  | nil => exact List.Subset.refl _
  | cons cap caps ih =>
    exact List.Subset.trans (promoted_subset_promoteCapture st cap) (ih _)

theorem get_foldl_promoteCapture_of_some (caps : List CapturedVar) (st : PromoteState)
    {x : String} {g : LlvmGlobal} {v : LlvmVar} (hg : st.globals.get x = some g)
    (hv : st.locals.get x = some v) :
    (caps.foldl (promoteCapture procName isNamed) st).locals.get x = some v ∧
      (caps.foldl (promoteCapture procName isNamed) st).globals.get x = some g := by
  induction caps generalizing st with
  | nil => exact ⟨hv, hg⟩
  | cons cap caps ih =>
    have hstep : (promoteCapture procName isNamed st cap).locals.get x = some v ∧
        (promoteCapture procName isNamed st cap).globals.get x = some g :=
      get_promoteCapture_of_some st cap hg hv
    exact ih _ hstep.2 hstep.1

/-- The state after a variable was promoted. -/
structure Promoted (procName : String) (isNamed : String → Bool) (x slotTy ty : String)
    (st : PromoteState) : Prop where
  locals : st.locals.get x = some ⟨.global (capturedGlobal procName x), ty⟩
  globals : st.globals.get x = some ⟨capturedGlobal procName x, ty⟩
  promoted : ⟨x, capturedGlobal procName x, slotTy, if isNamed x then "ptr" else ty⟩ ∈ st.promoted

/-- A captured variable with a slot is promoted, if no global of its name is known. -/
theorem promoted_of_mem (caps : List CapturedVar) (st : PromoteState) {x slotTy ty : String}
    (hg : st.globals.get x = none) (hv : st.locals.get x = some ⟨.alloca slotTy, ty⟩)
    (hx : x ∈ caps.map CapturedVar.name) :
    Promoted procName isNamed x slotTy ty (caps.foldl (promoteCapture procName isNamed) st) := by
  induction caps generalizing st with
  | nil => exact absurd hx (by simp)
  | cons cap caps ih =>
    rw [List.foldl_cons]
    by_cases h : x = cap.name
    · subst h
      have hstep : promoteCapture procName isNamed st cap =
          st.promote procName isNamed cap.name slotTy ty := by
        rw [promoteCapture, hg, hv]
      have hlocals : (st.promote procName isNamed cap.name slotTy ty).locals.get cap.name =
          some ⟨.global (capturedGlobal procName cap.name), ty⟩ := by
        rw [PromoteState.promote, NameMap.get_insert, if_pos rfl]
      have hglobals : (st.promote procName isNamed cap.name slotTy ty).globals.get cap.name =
          some ⟨capturedGlobal procName cap.name, ty⟩ := by
        rw [PromoteState.promote, NameMap.get_insert, if_pos rfl]
      rw [hstep]
      refine ⟨(get_foldl_promoteCapture_of_some caps _ hglobals hlocals).1,
        (get_foldl_promoteCapture_of_some caps _ hglobals hlocals).2,
        promoted_subset_foldl caps _ ?_⟩
      simp [PromoteState.promote]
    · refine ih _ ((get_promoteCapture_of_ne st h).2.trans hg)
        ((get_promoteCapture_of_ne st h).1.trans hv) ?_
      simpa [h] using hx

/-- What holds throughout promotion, for the entries and globals it starts from. -/
structure PromoteInvariant (procName : String) (isNamed : String → Bool)
    (locals : NameMap LlvmVar) (globals : NameMap LlvmGlobal) (names : List String)
    (st : PromoteState) : Prop where
  slots : ∀ x slotTy ty, st.locals.get x = some ⟨.alloca slotTy, ty⟩ →
    locals.get x = some ⟨.alloca slotTy, ty⟩
  promoted : ∀ pr ∈ st.promoted, pr.name ∈ names ∧
    pr.global = capturedGlobal procName pr.name ∧ ∃ ty,
      locals.get pr.name = some ⟨.alloca pr.slotTy, ty⟩ ∧
        pr.loadTy = if isNamed pr.name then "ptr" else ty
  kept : ∀ x g, globals.get x = some g → st.globals.get x = some g
  added : ∀ x, x ∉ names ∨ locals.get x = none → st.globals.get x = globals.get x

theorem PromoteInvariant.promoteCapture {locals : NameMap LlvmVar} {globals : NameMap LlvmGlobal}
    {names : List String} {st : PromoteState}
    (h : PromoteInvariant procName isNamed locals globals names st) {cap : CapturedVar}
    (hcap : cap.name ∈ names) :
    PromoteInvariant procName isNamed locals globals names
      (promoteCapture procName isNamed st cap) := by
  rw [CodeGen.promoteCapture]
  split
  · refine { h with slots := ?_ }
    intro x slotTy ty hx
    refine h.slots x slotTy ty ?_
    rw [NameMap.orInsert] at hx
    split_ifs at hx
    · exact hx
    · rw [NameMap.get_insert] at hx
      split_ifs at hx
      · simp at hx
      · exact hx
  · next hg =>
    split
    · next slotTy ty hv =>
      have hslot := h.slots _ _ _ hv
      constructor
      · intro x slotTy' ty' hx
        refine h.slots x slotTy' ty' ?_
        rw [PromoteState.promote, NameMap.get_insert] at hx
        split_ifs at hx
        · simp at hx
        · exact hx
      · intro pr hpr
        rw [PromoteState.promote, List.mem_append, List.mem_singleton] at hpr
        obtain hpr | rfl := hpr
        · exact h.promoted pr hpr
        · exact ⟨hcap, rfl, ty, hslot, rfl⟩
      · intro x g hx
        have hne : x ≠ cap.name := by
          rintro rfl
          rw [h.kept _ _ hx] at hg
          exact absurd hg (by simp)
        rw [PromoteState.promote, NameMap.get_insert, if_neg hne]
        exact h.kept x g hx
      · intro x hx
        have hne : x ≠ cap.name := by
          rintro rfl
          obtain hx | hx := hx
          · exact hx hcap
          · rw [hslot] at hx
            exact absurd hx (by simp)
        rw [PromoteState.promote, NameMap.get_insert, if_neg hne]
        exact h.added x hx
    · exact h

theorem PromoteInvariant.foldl {locals : NameMap LlvmVar} {globals : NameMap LlvmGlobal}
    {names : List String} (caps : List CapturedVar) (hcaps : ∀ cap ∈ caps, cap.name ∈ names)
    {st : PromoteState} (h : PromoteInvariant procName isNamed locals globals names st) :
    PromoteInvariant procName isNamed locals globals names
      (caps.foldl (CodeGen.promoteCapture procName isNamed) st) := by
  induction caps generalizing st with
  | nil => exact h
  | cons cap caps ih =>
    exact ih (fun cap' hcap' => hcaps cap' (List.mem_cons_of_mem _ hcap'))
      (h.promoteCapture (hcaps cap (by simp)))

end Promotion

end Mx.CodeGen

import Mx.HirBuild.Refs
import Mx.Types.Registry

/-!
# Emission of procedures by name

`gen_proc_by_name` of the C backend: the searches for the parts of a procedure, the closure
analysis for the procedures nested in it, and the order in which the functions are written. A
procedure is known by its bare name throughout. Beside it stands what it is for: the emission of
a tree of declarations, in which every procedure has its own data.
-/

namespace Mx.HirBuild

/-! ## The searches -/

/-- The first hit among the procedures nested in top-level ones. -/
def firstNested {β : Type} (f : HirProcDecl → Option β) (name : String)
    (procs : List HirProcDecl) : Option β :=
  (procs.filterMap fun pd => searchProcs f name pd.nestedProcs).head?

namespace HirModule

/-- The embedded module that is emitted. -/
def embedded (m : HirModule) (module : String) : Option HirEmbeddedModule :=
  m.embeddedModules.find? fun e => e.name = module

/-- `find_nested_proc_sig`. -/
def findNestedProcSig (m : HirModule) (procName module : String) : Option HirProcSig :=
  let sig (pd : HirProcDecl) := some pd.sig
  ((m.procDecls.find? fun pd => pd.sig.name = procName ∧ pd.sig.module = module).bind sig).or <|
  (searchProcs sig procName (m.procDecls.flatMap HirProcDecl.nestedProcs)).or <|
  (firstNested sig procName m.procDecls).or <|
  (m.embedded module).bind fun e =>
    ((e.procedures.find? fun pd => pd.sig.name = procName).bind sig).or <|
    firstNested sig procName e.procedures

/-- The search of `find_nested_proc_body` and `find_nested_proc_cfg`. -/
def findNestedProc {β : Type} (f : HirProcDecl → Option β) (m : HirModule)
    (module procName : String)
    (parentName : Option String) : Option β :=
  ((m.procDecls.find? fun pd => pd.sig.name = procName ∧ pd.sig.module = module).bind f).or <|
  (parentName.bind fun parent =>
    (m.procDecls.find? fun pd => pd.sig.name = parent).bind fun pd =>
      searchProcs f procName pd.nestedProcs).or <|
  (firstNested f procName m.procDecls).or <|
  (m.embedded module).bind fun e =>
    ((e.procedures.find? fun pd => pd.sig.name = procName).bind f).or <|
    firstNested f procName e.procedures

/-- `find_nested_proc_body`. -/
def findNestedProcBody (m : HirModule) (module procName : String) (parentName : Option String) :
    Option (List HirStmt) :=
  findNestedProc HirProcDecl.body m module procName parentName

/-- `find_nested_proc_cfg`. -/
def findNestedProcCfg (m : HirModule) (module procName : String) (parentName : Option String) :
    Option Cfg :=
  findNestedProc HirProcDecl.cfg m module procName parentName

/-- The search for the nested procedures. -/
def findChildren (m : HirModule) (module procName : String) : List String :=
  let children (pd : HirProcDecl) := some pd.childNames
  ((searchProcs children procName m.procDecls).or <|
    ((m.procedures.find? fun hp => hp.sourceName = procName).map fun hp =>
      hp.nestedProcs.map HirProc.sourceName).or <|
    (m.embedded module).bind fun e => searchProcs children procName e.procedures).getD []

/-- The search for the local declarations to emit. -/
def findLocals (m : HirModule) (module procName : String) : Option (List HirLocalDecl) :=
  let locals (pd : HirProcDecl) := some pd.locals
  ((m.procDecls.find? fun pd => pd.sig.name = procName ∧ pd.sig.module = module).bind locals).or <|
  (firstNested locals procName m.procDecls).or <|
  ((m.procedures.find? fun hp => hp.sourceName = procName).map HirProc.locals).or <|
  ((m.procedures.flatMap HirProc.nestedProcs).find? fun np => np.sourceName = procName).map
    HirProc.locals

/-- The search for the local declarations of a scope. -/
def findScopeLocals (m : HirModule) (procName : String) : Option (List HirLocalDecl) :=
  (searchProcs (fun pd => some pd.locals) procName m.procDecls).or <|
  (m.procedures.find? fun hp => hp.sourceName = procName).map HirProc.locals

/-- The search for the local variables that a captured name may be instead. -/
def findLocalNames (m : HirModule) (procName : String) : List String :=
  (searchProcs (fun pd => some ((localVars pd.locals).map Prod.fst)) procName m.procDecls).getD []

end HirModule

/-- `collect_nested_refs`. -/
def nestedRefs : List HirProcDecl → List String
  | [] => []
  | ⟨_, body, _, nested, _, _⟩ :: pds =>
    (body.map collectHirVarRefs).getD [] ++ nestedRefs nested ++ nestedRefs pds

/-- `find_proc_and_scan`: what the procedures nested in a procedure mention. -/
def findProcAndScan (name : String) : List HirProcDecl → List String
  | [] => []
  | ⟨sig, _, _, nested, _, _⟩ :: pds =>
    if sig.name = name then nestedRefs nested
    else
      let result := findProcAndScan name nested
      if result ≠ [] then result else findProcAndScan name pds

/-! ## Closure analysis -/

/-- What emission reads of the rest of the compiler. -/
structure EmitContext where
  captures : CaptureContext
  moduleName : String
  mangle : String → String
  typeIdToC : TypeId → String
  /-- The type of `lookup_any`. -/
  lookupAny : String → Option TypeId

/-- What a scope is made of: a signature and local declarations. -/
abbrev ScopeParts := Option HirProcSig × Option (List HirLocalDecl)

/-- The parameters of a procedure as variables of its scope. -/
def addParams (c : EmitContext) (params : List HirParamDecl) (vars : NameMap String) :
    NameMap String :=
  params.foldl (fun vars p =>
    if p.isOpenArray then
      (vars.insert p.name (c.typeIdToC p.typeId ++ "*")).insert (p.name ++ "_high") "uint32_t"
    else vars.insert p.name (c.typeIdToC p.typeId)) vars

/-- Variables of an enclosing scope. -/
def addOuter (c : EmitContext) (outer : List (String × TypeId)) (vars : NameMap String) :
    NameMap String :=
  outer.foldl (fun vars v => vars.orInsert v.1 (c.typeIdToC v.2)) vars

/-- `build_scope_vars`, of the parts that its searches find. -/
def scopeVars (c : EmitContext) (own : ScopeParts) (ancestors : List ScopeParts) :
    NameMap String :=
  let params := (own.1.map HirProcSig.params).getD []
  let locals := localVars (own.2.getD [])
  let vars := locals.foldl (fun vars v => vars.insert v.1 (c.typeIdToC v.2))
    (addParams c params [])
  ancestors.foldl (fun vars a =>
    addOuter c (localVars (a.2.getD []))
      (addOuter c (((a.1.map HirProcSig.params).getD []).map fun p => (p.name, p.typeId)) vars))
    vars

/-- The variables that a procedure receives through its environment, as far as they are new. -/
def addEnvVars (fields : List (String × String)) (access : List String) (vars : NameMap String) :
    NameMap String :=
  access.foldl (fun vars name =>
    if vars.contains name then vars
    else match fields.lookup name with
      | some ty => vars.insert name ty
      | none => vars) vars

/-- What the closure analysis of a nested procedure finds of it. -/
structure NestedParts where
  name : String
  body : Option (List HirStmt)
  params : List String
  localNames : List String
  grandchildRefs : List String

/-- The names that a nested procedure captures itself. -/
def directCaptures (c : EmitContext) (scope : NameMap String) (np : NestedParts) : List String :=
  let outer : NameMap TypeId :=
    scope.map fun v => (v.1, (c.lookupAny v.1).getD tyInteger)
  match np.body with
  | some body =>
    (computeCapturesHir c.captures np.name body np.params np.localNames outer).map CapturedVar.name
  | none => []

/-- The results of the closure analysis so far. -/
structure Closures where
  /-- The fields of the environment, in order. -/
  fields : List (String × String) := []
  /-- The captured names of each nested procedure that has any. -/
  children : List (String × List String) := []

namespace Closures

/-- A field for a variable, if it has none. -/
def addField (scope : NameMap String) (cl : Closures) (name : String) : Closures :=
  if cl.fields.any fun f => f.1 = name then cl
  else { cl with fields := cl.fields ++ [(name, (scope.get name).getD "int32_t")] }

/-- A captured name of a nested procedure, if it is not among them. -/
def addTo (proc name : String) : List (String × List String) → List (String × List String)
  | [] => [(proc, [name])]
  | (p, names) :: children =>
    if p = proc then (p, if name ∈ names then names else names ++ [name]) :: children
    else (p, names) :: addTo proc name children

/-- A captured name of a nested procedure. -/
def addCapture (proc name : String) (cl : Closures) : Closures :=
  { cl with children := addTo proc name cl.children }

/-- The captures of one nested procedure: its own and those it forwards. -/
def addChild (c : EmitContext) (scope : NameMap String) (cl : Closures) (np : NestedParts) :
    Closures :=
  let direct := directCaptures c scope np
  let cl := if direct.isEmpty then cl
    else { direct.foldl (addField scope) cl with children := cl.children ++ [(np.name, direct)] }
  (np.grandchildRefs.filter scope.contains).foldl
    (fun cl name => (cl.addField scope name).addCapture np.name name) cl

end Closures

/-- The closure analysis of a procedure. -/
def analyzeClosures (c : EmitContext) (scope : NameMap String) (nested : List NestedParts) :
    Closures :=
  nested.foldl (Closures.addChild c scope) {}

/-- `env_access_names` of a nested procedure: its own captures and those recorded for it. -/
def accessNames (direct recorded : List String) : List String :=
  recorded.foldl (fun names name => if name ∈ names then names else names ++ [name]) direct

/-- The type of the environment that a procedure sets up for the nested ones. -/
def envTypeName (procName : String) : String := procName ++ "_env"

/-! ## Emission -/

/-- The parts of an emitted C function. -/
structure ProcEmission where
  /-- The procedure and the ones around it. -/
  path : List String
  cName : Option String
  sig : Option HirProcSig
  /-- The type of the environment parameter. -/
  envType : Option String
  /-- The names that are reached through the environment. -/
  envAccess : Option (List String)
  locals : Option (List HirLocalDecl)
  children : List String
  /-- The fields of the environment for the nested procedures, and what each of them captures. -/
  closures : Closures
  cfg : Option Cfg

/-- The tables of the code generator that are keyed by bare names, and its stacks. -/
structure GenState where
  closureEnvType : NameMap String := []
  closureEnvFields : NameMap (List (String × String)) := []
  nestedProcNames : NameMap String := []
  envAccessNames : List (List String) := []
  parentProcStack : List String := []

/-- The environment of a procedure is recorded, and the procedure becomes the parent. -/
def GenState.enter (st : GenState) (procName : String) (closures : Closures) : GenState :=
  { st with
    closureEnvType := closures.children.foldl
      (fun t ch => t.insert ch.1 (envTypeName procName)) st.closureEnvType
    closureEnvFields := if closures.fields.isEmpty then st.closureEnvFields
      else st.closureEnvFields.insert (envTypeName procName) closures.fields
    parentProcStack := procName :: st.parentProcStack }

/-- `rsplit('_').next()`. -/
def lastSegment (name : String) : String :=
  String.ofList (name.toList.reverse.takeWhile (· ≠ '_')).reverse

section Gen

variable (m : HirModule) (c : EmitContext)

/-- The parts of a scope, by name. -/
def scopeParts (name : String) : ScopeParts :=
  (m.findNestedProcSig name c.moduleName, m.findScopeLocals name)

/-- The parts of the scope of an enclosing procedure, whose locals have no older form. -/
def ancestorParts (name : String) : ScopeParts :=
  (m.findNestedProcSig name c.moduleName,
    searchProcs (fun pd => some pd.locals) name m.procDecls)

/-- `build_scope_vars` with the variables received through the environment. -/
def buildScopeVars (st : GenState) (procName : String) : NameMap String :=
  let ancestors := (st.parentProcStack.map lastSegment).filter (· ≠ procName)
  let vars := scopeVars c (scopeParts m c procName) (ancestors.map (ancestorParts m c))
  match st.envAccessNames.head?, st.closureEnvType.get procName with
  | some access, some envType =>
    addEnvVars ((st.closureEnvFields.get envType).getD []) access vars
  | _, _ => vars

/-- What the closure analysis looks up of a nested procedure. -/
def nestedParts (procName npName : String) : NestedParts where
  name := npName
  body := m.findNestedProcBody c.moduleName npName (some procName)
  params := ((m.findNestedProcSig npName c.moduleName).map fun sig =>
    sig.params.map HirParamDecl.name).getD []
  localNames := m.findLocalNames npName
  grandchildRefs := findProcAndScan npName m.procDecls

/-- The C name in a prototype. -/
def protoName (st : GenState) (sig : HirProcSig) : String :=
  sig.exportCName.getD ((st.nestedProcNames.get sig.name).getD (c.mangle sig.name))

/-- One nested procedure in the loop of `gen_proc_by_name`: its C name and its environment are
recorded under its bare name before it is emitted. -/
def genNested (gen : GenState → String → Option (GenState × List ProcEmission))
    (procName : String) (scope : NameMap String) (closures : Closures)
    (acc : GenState × List ProcEmission) (npName : String) :
    Option (GenState × List ProcEmission) := do
  let named : GenState := { acc.1 with
    nestedProcNames := acc.1.nestedProcNames.insert npName (procName ++ "_" ++ npName) }
  let recorded := (closures.children.lookup npName).getD []
  let access := accessNames (directCaptures c scope (nestedParts m c procName npName)) recorded
  let pushed := if named.closureEnvType.contains npName then
      { named with envAccessNames := access :: named.envAccessNames }
    else named
  let (st, emitted) ← gen pushed npName
  let popped := if st.closureEnvType.contains npName then
      { st with envAccessNames := st.envAccessNames.tail }
    else st
  return (popped, acc.2 ++ emitted)

/-- `gen_proc_by_name`. Without fuel the recursion of the source does not end. -/
def genProcByName : Nat → GenState → String → Option (GenState × List ProcEmission)
  | 0, _, _ => none
  | fuel + 1, st, procName => do
    let sig := m.findNestedProcSig procName c.moduleName
    let children := m.findChildren c.moduleName procName
    let scope := buildScopeVars m c st procName
    let closures := analyzeClosures c scope (children.map (nestedParts m c procName))
    let (st', nested) ←
      children.foldlM (genNested m c (genProcByName fuel) procName scope closures)
        (st.enter procName closures, [])
    let emission : ProcEmission := {
      path := procName :: st.parentProcStack
      cName := sig.map (protoName c st')
      sig := sig
      envType := sig.bind fun sig => st'.closureEnvType.get sig.name
      envAccess := if st'.closureEnvType.contains procName then st'.envAccessNames.head? else none
      locals := m.findLocals c.moduleName procName
      children := children
      closures := closures
      cfg := m.findNestedProcCfg c.moduleName procName (st.parentProcStack.head?.map lastSegment) }
    return ({ st' with parentProcStack := st.parentProcStack }, nested ++ [emission])

/-- The C names that `gen_embedded_implementation` records, under bare names, for the procedures
nested in those of the embedded modules. The modules stand in the order of their emission. -/
def embeddedNames : List (String × String) :=
  m.embeddedModules.flatMap fun e => e.procedures.flatMap fun pd => pd.nestedProcs.map fun np =>
    (np.name, e.name ++ "_" ++ (pd.name ++ "_" ++ np.name))

/-- The tables after the embedded modules. -/
def initialState : GenState where
  nestedProcNames := (embeddedNames m).foldl (fun t entry => t.insert entry.1 entry.2) []

/-- The next procedure of the module. -/
def genNext (fuel : Nat) (acc : GenState × List ProcEmission) (name : String) :
    Option (GenState × List ProcEmission) := do
  let (st, emitted) ← genProcByName m c fuel acc.1 name
  return (st, acc.2 ++ emitted)

/-- The procedures of a module, in order. -/
def genProcs (fuel : Nat) : Option (List ProcEmission) := do
  let names := (m.procDecls.filter fun pd => !pd.sig.isNested).map HirProcDecl.name
  let (_, out) ← names.foldlM (genNext m c fuel) (initialState m, [])
  return out

end Gen

end Mx.HirBuild

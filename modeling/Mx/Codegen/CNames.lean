import Mx.HirBuild.OwnProcs

/-!
# Names at file scope

The C identifiers of the procedures, variables, constants and types that stand at file scope. Names
of embedded modules and all constants are joined to their module by an underscore, names of
procedures nested in the main module to the procedure directly around them; other names of the main
module stand alone. The names of the functions come out of `gen_proc_by_name`, which looks them up
by bare name.
-/

namespace Mx.CNames

open Mx.HirBuild

/-! ## Escapes -/

/-- `C_RESERVED`. -/
def cReserved : List String :=
  ["auto", "break", "case", "char", "const", "continue", "default", "do",
    "double", "else", "enum", "extern", "float", "for", "goto", "if",
    "int", "long", "register", "return", "short", "signed", "sizeof",
    "static", "struct", "switch", "typedef", "union", "unsigned", "void",
    "volatile", "while", "inline", "restrict",
    "log", "log2", "log10", "exp", "exp2", "pow", "sqrt", "cbrt",
    "sin", "cos", "tan", "asin", "acos", "atan", "atan2",
    "sinh", "cosh", "tanh", "ceil", "floor", "round", "trunc",
    "fabs", "fmod", "hypot", "nan", "j0", "j1", "y0", "y1",
    "printf", "fprintf", "sprintf", "snprintf", "scanf", "sscanf",
    "fopen", "fclose", "fread", "fwrite", "fgets", "fputs", "puts",
    "getchar", "putchar", "feof", "ferror", "fflush", "fseek", "ftell",
    "rewind", "remove", "rename", "tmpfile", "tmpnam",
    "stdin", "stdout", "stderr",
    "malloc", "calloc", "realloc", "free", "abort", "exit", "atexit",
    "atoi", "atol", "atof", "strtol", "strtoul", "strtod",
    "rand", "srand", "qsort", "bsearch", "abs", "labs", "div", "ldiv",
    "getenv", "system",
    "memcpy", "memmove", "memset", "memcmp", "strlen", "strcpy", "strncpy",
    "strcat", "strncat", "strcmp", "strncmp", "strchr", "strrchr", "strstr",
    "strtok", "strerror",
    "isalpha", "isdigit", "isalnum", "isspace", "isupper", "islower",
    "toupper", "tolower",
    "setjmp", "longjmp",
    "signal", "read", "write", "open", "close", "stat", "pipe", "fork",
    "exec", "wait", "kill", "alarm", "sleep", "time", "clock",
    "errno", "perror",
    "NULL", "EOF", "FILE", "BUFSIZ",
    "main"]

/-- `mangle`. -/
def mangle (name : String) : String :=
  if name = "NIL" then "NULL"
  else if name = "TRUE" then "1"
  else if name = "FALSE" then "0"
  else if "m2_".toList <+: name.toList then "m2v_" ++ String.ofList (name.toList.drop 3)
  else if name ∈ cReserved then "m2_" ++ name
  else name

/-! ## Identifiers -/

/-- The C identifier of something at file scope, as the parts that are written. -/
inductive CIdent where
  /-- A name of the main module that stands alone. -/
  | own (name : String)
  /-- A C name that the program gives itself. -/
  | given (name : String)
  /-- A name after a module or procedure and an underscore. -/
  | joined (scope name : String)
  deriving DecidableEq, Repr

/-- The identifier as text. -/
def CIdent.text : CIdent → String
  | own name => mangle name
  | given name => name
  | joined scope name => scope ++ "_" ++ name

/-! ## What is declared -/

/-- The names at the outermost level of a module, less those of procedures. The names of local
modules are among those of the module around them. -/
structure ScopeNames where
  types : List String
  consts : List String
  vars : List String

/-- A module of foreign declarations. -/
structure ForeignNames extends ScopeNames where
  procs : List String

/-- What the C file of a program is written from. -/
structure CUnit where
  hir : HirModule
  own : ScopeNames
  /-- The names of each embedded module. -/
  embedded : String → ScopeNames
  /-- Definition modules without an implementation. -/
  defOnly : List (String × ScopeNames)
  /-- Foreign modules, less the helpers of the library. -/
  foreign : List ForeignNames

/-- The identifiers of a foreign module, in `gen_foreign_extern_decls`. -/
def foreignIdents (f : ForeignNames) : List CIdent :=
  f.procs.map .given ++ f.vars.map .given ++ f.consts.map .own ++ f.types.map .own

/-- The identifiers of a definition module without an implementation. -/
def defOnlyIdents (module : String) (names : ScopeNames) : List CIdent :=
  names.types.map (fun name => .joined module (mangle name)) ++ names.consts.map (.joined module)

/-- The identifier of an outermost procedure of an embedded module. -/
def embeddedProcIdent (module : String) (pd : HirBuild.HirProcDecl) : CIdent :=
  match pd.sig.exportCName with
  | some cName => .given cName
  | none => .joined module pd.name

/-- The identifiers that `gen_embedded_implementation` declares. -/
def embeddedIdents (names : ScopeNames) (e : HirEmbeddedModule) : List CIdent :=
  names.types.map (fun name => .joined e.name (mangle name)) ++ names.consts.map (.joined e.name) ++
    names.vars.map (.joined e.name) ++ e.procedures.map (embeddedProcIdent e.name) ++
    e.procedures.flatMap fun pd =>
      pd.nestedProcs.map fun np => .joined e.name (pd.name ++ "_" ++ np.name)

/-- The identifiers of the main module, less those of its procedures. -/
def ownIdents (module : String) (names : ScopeNames) : List CIdent :=
  names.types.map .own ++ names.consts.map (.joined module) ++ names.vars.map .own

/-- The identifiers of a program, less those of the procedures of the main module. -/
def CUnit.idents (u : CUnit) : List CIdent :=
  u.foreign.flatMap foreignIdents ++
    (if u.hir.embeddedModules.isEmpty then []
      else u.defOnly.flatMap fun d => defOnlyIdents d.1 d.2) ++
    u.hir.embeddedModules.flatMap (fun e => embeddedIdents (u.embedded e.name) e) ++
    ownIdents u.hir.name u.own

/-- The context in which the procedures of the main module are emitted. -/
def CUnit.context (u : CUnit) (c : EmitContext) : EmitContext :=
  { c with moduleName := u.hir.name, mangle := mangle }

/-- The C identifiers at file scope. -/
def CUnit.cNames (u : CUnit) (c : EmitContext) (fuel : Nat) : Option (List String) :=
  (genProcs u.hir (u.context c) fuel).map fun out =>
    u.idents.map CIdent.text ++ out.filterMap ProcEmission.cName

/-- Whatever is written for the program, its identifiers are distinct. -/
def CUnit.DistinctCNames (u : CUnit) (c : EmitContext) : Prop :=
  ∀ fuel names, u.cNames c fuel = some names → names.Nodup

end Mx.CNames

import Mx.Sema.Ast

/-!
# The syntax of compilation units

Types, statements, declarations and modules as `ast.rs` has them. The positions of these nodes and
their documentation comments, which no function of the parser reads, are left out.
-/

namespace Mx.Ast

/-- A label of a case. -/
inductive CaseLabel where
  | single (e : Expr)
  | range (low high : Expr)

/-- An override of a method. -/
structure OverrideDecl where
  name : String
  procName : QualIdent

mutual

/-- The type forms. -/
inductive TypeNode where
  | named (q : QualIdent)
  | array (indexTypes : List TypeNode) (elemType : TypeNode)
  | openArray (elemType : TypeNode)
  | record (fields : List FieldList)
  | pointer (base : TypeNode)
  | set (base : TypeNode)
  | enumeration (variants : List String)
  | subrange (low high : Expr)
  | procedureType (params : List FormalParam) (returnType : Option TypeNode)
  | ref (target : TypeNode) (branded : Option String)
  | refAny
  | object (parent : Option QualIdent) (fields : List Field) (methods : List MethodDecl)
      (overrides : List OverrideDecl)

/-- Formal parameters of one type. -/
structure FormalParam where
  isVar : Bool
  names : List String
  typ : TypeNode

/-- A method of an object type. -/
structure MethodDecl where
  name : String
  params : List FormalParam
  returnType : Option TypeNode

/-- A field list of a record. -/
structure FieldList where
  fixed : List Field
  variantPart : Option VariantPart

/-- Fields of one type. -/
structure Field where
  names : List String
  typ : TypeNode

/-- The variant part of a record. -/
structure VariantPart where
  tagName : Option String
  tagType : QualIdent
  variants : List Variant
  elseFields : Option (List FieldList)

/-- A variant of a record. -/
structure Variant where
  labels : List CaseLabel
  fields : List FieldList

end

mutual

/-- The statement forms. -/
inductive Statement where
  | empty
  | assign (desig : Designator) (expr : Expr)
  | procCall (desig : Designator) (args : List Expr)
  | ifThen (cond : Expr) (thenBody : List Statement) (elsifs : List (Expr × List Statement))
      (elseBody : Option (List Statement))
  | case (expr : Expr) (branches : List CaseBranch) (elseBody : Option (List Statement))
  | while (cond : Expr) (body : List Statement)
  | repeat (body : List Statement) (cond : Expr)
  | for (var : String) (start stop : Expr) (step : Option Expr) (body : List Statement)
  | loop (body : List Statement)
  | with (desig : Designator) (body : List Statement)
  | return (expr : Option Expr)
  | exit
  | raise (expr : Option Expr)
  | retry
  | try (body : List Statement) (excepts : List ExceptClause)
      (finallyBody : Option (List Statement))
  | lock (mutex : Expr) (body : List Statement)
  | typeCase (expr : Expr) (branches : List TypeCaseBranch) (elseBody : Option (List Statement))

/-- A branch of a case statement. -/
structure CaseBranch where
  labels : List CaseLabel
  body : List Statement

/-- A handler of a `TRY`. -/
structure ExceptClause where
  exception : Option QualIdent
  var : Option String
  body : List Statement

/-- A branch of a `TYPECASE`. -/
structure TypeCaseBranch where
  types : List QualIdent
  var : Option String
  body : List Statement

end

/-- An imported name. -/
structure ImportName where
  name : String
  aliasName : Option String

/-- An import. -/
structure Import where
  fromModule : Option String
  names : List ImportName

/-- An export. -/
structure Export where
  qualified : Bool
  names : List String

/-- A constant declaration. -/
structure ConstDecl where
  name : String
  expr : Expr

/-- A type declaration; an opaque type has no definition. -/
structure TypeDecl where
  name : String
  typ : Option TypeNode

/-- Variables of one type. -/
structure VarDecl where
  names : List String
  typ : TypeNode

/-- An exception declaration. -/
structure ExceptionDecl where
  name : String

/-- The heading of a procedure. -/
structure ProcHeading where
  name : String
  params : List FormalParam
  returnType : Option TypeNode
  raises : Option (List QualIdent)
  exportCName : Option String

mutual

/-- The declarations and the body of a procedure or a module. -/
structure Block where
  decls : List Declaration
  body : Option (List Statement)
  finallyBody : Option (List Statement)
  exceptBody : Option (List Statement)

/-- The declaration forms. -/
inductive Declaration where
  | const (c : ConstDecl)
  | type (t : TypeDecl)
  | var (v : VarDecl)
  | procedure (p : ProcDecl)
  | module (m : ProgramModule)
  | exception (e : ExceptionDecl)

/-- A procedure. -/
structure ProcDecl where
  heading : ProcHeading
  block : Block

/-- A program module or a local module. -/
structure ProgramModule where
  name : String
  priority : Option Expr
  imports : List Import
  exported : Option Export
  block : Block
  isSafe : Bool
  isUnsafe : Bool

end

/-- An item of a definition module. -/
inductive Definition where
  | const (c : ConstDecl)
  | type (t : TypeDecl)
  | var (v : VarDecl)
  | procedure (p : ProcHeading)
  | exception (e : ExceptionDecl)

/-- A definition module. -/
structure DefinitionModule where
  name : String
  imports : List Import
  exported : Option Export
  definitions : List Definition
  isSafe : Bool
  isUnsafe : Bool
  foreignLang : Option String

/-- An implementation module. -/
structure ImplementationModule where
  name : String
  priority : Option Expr
  imports : List Import
  block : Block
  isSafe : Bool
  isUnsafe : Bool

/-- A compilation unit. -/
inductive CompilationUnit where
  | programModule (m : ProgramModule)
  | definitionModule (m : DefinitionModule)
  | implementationModule (m : ImplementationModule)

end Mx.Ast

import Modula.Tree.TypeExpr
/-!
# Compilation units

  A compilation unit is a definition module or a program module.  Both name themselves twice, in
  their header and after their closing `END`; both import, and both declare constants and types in
  sections.  A program module keeps its declarations in a block, which may have an empty body.
-/

namespace Modula

/-! ## Imports -/

/-- What is imported. -/
inductive ImportKind where
  /-- Whole modules. -/
  | qualified (modules : IdentList)
  /-- Names of one module. -/
  | unqualified (source : Ident) (names : IdentList)
deriving DecidableEq, Repr

/-- An import. -/
structure Import where
  kind : ImportKind
  span : Span
deriving DecidableEq, Repr

/-! ## Declarations -/

/-- A constant with its value. -/
structure ConstItem where
  name : Ident
  value : Expr
  span : Span
deriving Repr

/-- A type with its name. -/
structure TypeItem where
  name : Ident
  type : TypeExpr
  span : Span
deriving Repr

/-- The items under one heading. -/
inductive DeclarationKind where
  | constants (items : List ConstItem)
  | types (items : List TypeItem)
deriving Repr

/-- A section of declarations. -/
structure Declaration where
  id : Nat
  kind : DeclarationKind
  span : Span
deriving Repr

/-! ## Modules -/

/-- The interface of a module. -/
structure DefinitionModule where
  name : Ident
  imports : List Import
  declarations : List Declaration
  footer : Ident
  span : Span
deriving Repr

/-- The declarations of a program module, and its body. -/
structure Block where
  declarations : List Declaration
  /-- Where `BEGIN` stands, if the block has a body. -/
  body : Option Span
  span : Span
deriving Repr

/-- A main program, or the implementation of a module. -/
structure ProgramModule where
  isImplementation : Bool
  name : Ident
  imports : List Import
  block : Block
  footer : Ident
  span : Span
deriving Repr

/-- What one source holds. -/
inductive CompilationUnit where
  | definition (m : DefinitionModule)
  | program (m : ProgramModule)
deriving Repr

namespace CompilationUnit

/-- The name in the header. -/
def name : CompilationUnit → Ident
  | .definition m => m.name
  | .program m => m.name

/-- The name after the closing `END`. -/
def footer : CompilationUnit → Ident
  | .definition m => m.footer
  | .program m => m.footer

/-- The sections of declarations. -/
def declarations : CompilationUnit → List Declaration
  | .definition m => m.declarations
  | .program m => m.block.declarations

/-- The text from the header to the closing point. -/
def span : CompilationUnit → Span
  | .definition m => m.span
  | .program m => m.span

end CompilationUnit

end Modula

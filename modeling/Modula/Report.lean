import Modula.Lexer
import Modula.Recovery.Unit
/-!
# Reports

  The front door of the library.  `parse` turns a source into a `Report`: the tree of its compilation
  unit, or the errors that stand in the way of one, never both.

  Lexical errors come first.  If there are any, they are all that is reported, and the tokens are not
  looked at.

  A tree may come with a warning.  The only one there is says that a module is closed with another
  name than it was opened with.
-/

namespace Modula

/-! ## Diagnostics -/

/-- An error of either stage. -/
inductive Diagnostic where
  | lexical (e : LexError)
  | grammatical (e : SyntaxError)
deriving DecidableEq, Repr

/-- The message of an error. -/
def Diagnostic.message : Diagnostic → String
  | .lexical e => e.message
  | .grammatical e => e.message

/-- A doubt about a tree. -/
inductive Warning where
  /-- The names in the header and in the footer differ. -/
  | moduleNameMismatch (header footer : Ident)
deriving DecidableEq, Repr

/-- What a warning says. -/
def Warning.message : Warning → String
  | .moduleNameMismatch header footer =>
    "module '" ++ header.name ++ "' is closed with 'END " ++ footer.name ++ ".'"

/-- The doubts about the names of a module. -/
def CompilationUnit.warnings (u : CompilationUnit) : List Warning :=
  if u.name.name = u.footer.name then [] else [.moduleNameMismatch u.name u.footer]

/-! ## Reports -/

/-- What is found in a source. -/
structure Report where
  /-- The tree, if there is no error. -/
  unit : Option CompilationUnit
  errors : List Diagnostic
  warnings : List Warning
deriving Repr

namespace Report

/-- The report on a source without errors. -/
def ofUnit (u : CompilationUnit) : Report := ⟨some u, [], u.warnings⟩

/-- The report on a source with errors. -/
def ofErrors (errors : List Diagnostic) : Report := ⟨none, errors, []⟩

/-- Whether there is no error. -/
def isOk (r : Report) : Bool := r.errors.isEmpty

/-- The tree, or else the errors. -/
def toExcept (r : Report) : Except (List Diagnostic) CompilationUnit :=
  match r.errors, r.unit with
  | [], some u => .ok u
  | errors, _ => .error errors

/-- The report on a reading that ended with a unit. -/
def ofLog (u : CompilationUnit) : List Recovery → Report
  | [] => ofUnit u
  | log => ofErrors (log.map fun r => .grammatical r.error)

end Report

/-! ## Reading tokens -/

namespace Cursor

/-- Reads an expression, and tells where it ends. -/
def readExpr (c : Cursor) : Except SyntaxError Expr × Cursor :=
  match Parser.expr .compilationUnit c with
  | .ok e c' => (.ok e, c')
  | .error e c' => (.error e, c')

/-- Reads a type, and tells where it ends. -/
def readType (c : Cursor) : Except SyntaxError TypeExpr × Cursor :=
  match Parser.type .compilationUnit c with
  | .ok t c' => (.ok t, c')
  | .error e c' => (.error e, c')

/-- Reads a compilation unit, and tells where reading ends. -/
def readUnit (options : Options) (c : Cursor) : Report × Cursor :=
  match Recovering.unit options ⟨c, []⟩ with
  | .ok u s => (.ofLog u s.log, s.cursor)
  | .error e s => (.ofErrors ((s.log.map Recovery.error ++ [e]).map .grammatical), s.cursor)

end Cursor

/-! ## Reading sources -/

/-- Reads the compilation unit that a source holds. -/
def parse (source : String) (options : Options) : Report :=
  let found := tokenize source
  match found.errors with
  | [] => ((Cursor.ofTokens found.tokens).readUnit options).1
  | errors => .ofErrors ((errors.take (max options.maxErrors 1)).map .lexical)

end Modula

import Modula.Recovery
import Modula.Recovery.Skip
import Modula.Parser.Item
/-!
# Reading compilation units

      unit     =  definitionHeader {import} {section} footer
               |  programHeader {import} {section} ["BEGIN"] footer
      section  =  "CONST" {const} | "TYPE" {type}

  1. **Items.** Imports and declarations are tried one by one.  A broken one is noted and skipped,
     unless the source has ended.
  2. **Features that are passed over.** Variables, procedures and statements are noted where they
     begin, and skipped.
  3. **The footer.** If the source ends inside a module, what is missing is the footer, whatever was
     being read — except inside a bracket, which is then what has to be closed.
-/

namespace Modula.Recovering

/-! ## Items -/

/-- The imports of a module. -/
def imports : (budget : Nat) → Recovering (List Import)
  | 0 => return []
  | budget + 1 => do
    let start ← cursor
    if start.kind = .word .IMPORT ∨ start.kind = .word .FROM then
      match ← attempt .importClause Parser.importClause with
      | .ok i => return i :: (← imports budget)
      | .error e =>
        if (← cursor).atEnd then throw e
        note e start.afterImport
        imports budget
    else return []

/-- The items of a section, each of which begins with a name. -/
def items {α : Type} (construct : Construct) (item : Parser α) :
    (budget : Nat) → Recovering (List α)
  | 0 => return []
  | budget + 1 => do
    let start ← cursor
    if start.kind.isName then
      match ← attempt construct item with
      | .ok a => return a :: (← items construct item budget)
      | .error e =>
        let c ← cursor
        -- there is nothing left to go on with
        if c.atEnd then throw e
        note e (start.resume c)
        items construct item budget
    else return []

/-! ## Sections -/

/-- A section, from its keyword on, with what its items make. -/
def sectionOf {α : Type} (construct : Construct) (item : Parser α)
    (kind : List α → DeclarationKind) : Recovering Declaration := do
  let head ← run .compilationUnit Parser.advance
  let items ← items construct item (← cursor).remaining
  let id ← run .compilationUnit Parser.freshId
  return ⟨id, kind items, ⟨head.span.start, (← cursor).lastEnd⟩⟩

/-- The sections of a module.  A definition module has procedure headings without bodies. -/
def declarations (inDefinition : Bool) : (budget : Nat) → Recovering (List Declaration)
  | 0 => return []
  | budget + 1 => do
    let start ← cursor
    match start.kind with
    | .word .CONST =>
      let d ← sectionOf .constDeclaration Parser.constItem .constants
      return d :: (← declarations inDefinition budget)
    | .word .TYPE =>
      let d ← sectionOf .typeDeclaration Parser.typeItem .types
      return d :: (← declarations inDefinition budget)
    | .word .VAR =>
      note (outerError start (.notSupported .variableDeclarations)) start.afterVariables
      declarations inDefinition budget
    | .word .PROCEDURE =>
      note (outerError start (.notSupported .procedureDeclarations))
        (start.afterProcedure inDefinition)
      declarations inDefinition budget
    | _ => return []

/-- `["BEGIN"]`, of which the place is told.  Statements are passed over. -/
def body : Recovering (Option Span) := do
  if (← cursor).kind = .word .BEGIN then
    let head ← run .compilationUnit Parser.advance
    let c ← cursor
    if c.kind ≠ .word .END then
      note (outerError c (.notSupported .statementSequences)) c.atFooter
    return some head.span
  else return none

/-- The sections and the body of a program module. -/
def block : Recovering Block := do
  let start ← cursor
  let declarations ← declarations false start.remaining
  let body ← body
  let first := start.token.span.start
  return ⟨declarations, body, ⟨first, max (← cursor).lastEnd first⟩⟩

/-! ## Modules -/

/-- What an error in a module is at the end of the source. -/
def asMissingFooter (moduleName : Ident) (e : SyntaxError) (c : Cursor) : SyntaxError :=
  if c.atEnd = false ∨ e.cause.isUnterminated = true then e
  else outerError c (.missingFooter moduleName.name)

/-- Reads a part of a module, in which the source should not end. -/
def inside {α : Type} (moduleName : Ident) (p : Recovering α) : Recovering α := fun options s =>
  match p options s with
  | .ok a s' => .ok a s'
  | .error e s' => .error (asMissingFooter moduleName e s'.cursor) s'

/-- All imports of a module. -/
def allImports : Recovering (List Import) := do imports (← cursor).remaining

/-- All sections of a definition module. -/
def allDeclarations : Recovering (List Declaration) := do declarations true (← cursor).remaining

/-- The footer of a module. -/
def footer : Recovering Ident := run .moduleFooter Parser.footer

/-- A definition module. -/
def definitionModule : Recovering DefinitionModule := do
  let start := (← cursor).token.span.start
  let name ← run .moduleHeader Parser.definitionHeader
  let imports ← inside name allImports
  let declarations ← inside name allDeclarations
  let footer ← inside name footer
  return ⟨name, imports, declarations, footer, ⟨start, (← cursor).lastEnd⟩⟩

/-- A program module. -/
def programModule : Recovering ProgramModule := do
  let start := (← cursor).token.span.start
  let (isImplementation, name) ← run .moduleHeader Parser.programHeader
  let imports ← inside name allImports
  let block ← inside name block
  let footer ← inside name footer
  return ⟨isImplementation, name, imports, block, footer, ⟨start, (← cursor).lastEnd⟩⟩

/-- A module of either kind. -/
def anyModule : Recovering CompilationUnit := do
  match (← cursor).kind with
  | .word .DEFINITION => return .definition (← definitionModule)
  | .word .IMPLEMENTATION | .word .MODULE => return .program (← programModule)
  | _ => run .compilationUnit (Parser.fail (.expected .moduleStart))

/-- The end of the source. -/
def endOfSource : Recovering Unit := do
  if (← cursor).atEnd = false then
    run .compilationUnit (Parser.fail (.expected (.kind .eof)))

/-- A compilation unit, which is all of a source. -/
def unit : Recovering CompilationUnit := do
  let u ← anyModule
  endOfSource
  return u

end Modula.Recovering

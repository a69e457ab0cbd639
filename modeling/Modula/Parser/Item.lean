import Modula.Parser.TypeExpr
import Modula.Tree.Module
/-!
# Reading imports, declarations, headers and footers

      clause  =  "IMPORT" identList ";"
              |  "FROM" ident "IMPORT" identList ";"
      const   =  ident "=" expression ";"
      type    =  ident "=" type ";"
      header  =  "DEFINITION" "MODULE" ident ";"
              |  ["IMPLEMENTATION"] "MODULE" ident ";"
      footer  =  "END" ident "."

  These are the phrases that a module consists of.  Each of them is read as a whole or not at all; what
  happens to a module with a broken one is settled elsewhere.
-/

namespace Modula.Parser

/-! ## Imports -/

/-- What an import imports, without its semicolon. -/
def importKind : Parser ImportKind := do
  if ← accept (.word .FROM) then
    let source ← ident
    let _ ← expect (.word .IMPORT)
    return .unqualified source (← identList)
  else
    let _ ← expect (.word .IMPORT)
    return .qualified (← identList)

/-- An import. -/
def importClause : Parser Import := do
  let start := (← get).token.span.start
  let kind ← importKind
  let _ ← expect (.symbol .semicolon)
  return ⟨kind, ⟨start, ← lastEnd⟩⟩

/-! ## Declarations -/

/-- `ident "=" expression ";"` -/
def constItem : Parser ConstItem := do
  let name ← ident
  let _ ← expect (.symbol .equal)
  let value ← expr
  let _ ← expect (.symbol .semicolon)
  return ⟨name, value, name.span.join value.span⟩

/-- `ident "=" type ";"` -/
def typeItem : Parser TypeItem := do
  let name ← ident
  let _ ← expect (.symbol .equal)
  let type ← type
  let _ ← expect (.symbol .semicolon)
  return ⟨name, type, name.span.join type.span⟩

/-! ## Ends of a module -/

/-- `"MODULE" ident ";"`, which gives the name. -/
def moduleName : Parser Ident := do
  let _ ← expect (.word .MODULE)
  let name ← ident
  let _ ← expect (.symbol .semicolon)
  return name

/-- The header of a definition module. -/
def definitionHeader : Parser Ident := do
  let _ ← expect (.word .DEFINITION)
  moduleName

/-- The header of a program module, and whether it is an implementation. -/
def programHeader : Parser (Bool × Ident) := do
  let isImplementation ← accept (.word .IMPLEMENTATION)
  return (isImplementation, ← moduleName)

/-- `"END" ident "."` -/
def footer : Parser Ident := do
  let _ ← expect (.word .END)
  let name ← ident
  let _ ← expect (.symbol .period)
  return name

end Modula.Parser

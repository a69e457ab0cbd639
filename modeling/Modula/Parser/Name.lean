import Modula.Parser
/-!
# Reading names

  Lists of identifiers and qualified names.  A point belongs to a qualified name only if a name
  follows it, so that the point of a module footer is left alone.
-/

namespace Modula.Parser

/-- `ident {"," ident}` -/
def identList : Parser IdentList := do
  let (first, more) ← sepBy (.symbol .comma) ident
  return .ofIdents first more

/-- Further segments of a qualified name. -/
def segments : (budget : Nat) → Parser (List Ident)
  | 0 => return []
  | budget + 1 => do
    let c ← get
    if c.kind = .symbol .period ∧ c.kindAfter.isName then
      let _ ← advance
      let i ← ident
      let more ← segments budget
      return i :: more
    else return []

/-- `ident {"." ident}` -/
def qualident : Parser Qualident := do
  let first ← ident
  let more ← segments (← remaining)
  return .ofIdents first more

end Modula.Parser

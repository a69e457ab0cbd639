import Modula.Parser.TypeExpr
/-!
# Skipping what cannot be read

  When a phrase is broken, or belongs to a part of the language that is passed over, reading goes on
  behind it.  Where that is depends on the phrase, and it is found by looking at tokens alone.

  * A broken import ends with its semicolon, or before a section of declarations.
  * A broken declaration ends with the first semicolon that is not nested in brackets, or before a
    token that cannot belong to it.
  * Variable declarations end before the next section, the next procedure or the end of the module.
  * A procedure declaration ends with the semicolon of its heading and, outside of definition
    modules, behind the `END` that repeats its name.
  * A statement sequence ends before the module footer.

  Each rule is a function from the tokens that follow to the number of tokens to be skipped.  Brackets
  are counted on the way: `RECORD`, `CASE` and the opening parenthesis, bracket and brace count up,
  their closers count down, and a closer without an opener does not count.
-/

namespace Modula

namespace Token.Kind

/-- Whether the token opens a bracket, a record or a variant part. -/
def isOpener : Kind → Bool
  | .word .RECORD | .word .CASE => true
  | .symbol .openParen | .symbol .openBracket | .symbol .openBrace => true
  | _ => false

/-- Whether the token closes a parenthesis, a bracket or a brace. -/
def isBracketCloser : Kind → Bool
  | .symbol .closeParen | .symbol .closeBracket | .symbol .closeBrace => true
  | _ => false

/-- Whether a broken import cannot go on with the token. -/
def endsImport : Kind → Bool
  | .word .CONST | .word .TYPE | .word .VAR | .word .PROCEDURE | .word .BEGIN | .word .END => true
  | _ => false

/-- Whether a broken declaration outside of all brackets cannot go on with the token. -/
def endsDeclaration : Kind → Bool
  | .word .CONST | .word .TYPE | .word .VAR | .word .BEGIN | .word .IMPORT | .word .FROM => true
  | _ => false

/-- Whether variable declarations cannot go on with the token. -/
def endsVariables : Kind → Bool
  | .word .CONST | .word .TYPE | .word .VAR | .word .BEGIN => true
  | _ => false

end Token.Kind

/-! ## Lengths of what is skipped -/

namespace Skip

/-- Rest of a broken import, its semicolon included. -/
def importRest : List Token → Nat
  | [] => 0
  | t :: ts =>
    if t.kind = .symbol .semicolon then 1
    else if t.kind.endsImport then 0
    else importRest ts + 1

/-- Rest of a broken declaration, its semicolon included, inside so many brackets. -/
def declarationRest (depth : Nat) : List Token → Nat
  | [] => 0
  | t :: ts =>
    if t.kind.isOpener then declarationRest (depth + 1) ts + 1
    else if t.kind.isBracketCloser then declarationRest (depth - 1) ts + 1
    else
      match depth with
      | 0 =>
        -- this END closes something that was open before the declaration
        if t.kind = .word .END then 0
        else if t.kind = .symbol .semicolon then 1
        else if t.kind.endsDeclaration then 0
        else declarationRest 0 ts + 1
      | outer + 1 =>
        if t.kind = .word .END then declarationRest outer ts + 1
        else declarationRest (outer + 1) ts + 1

/-- Whether the next token is a name. -/
def nextIsName : List Token → Bool
  | t :: _ => t.kind.isName
  | [] => false

/-- Rest of variable declarations, inside so many brackets. -/
def variablesRest (depth : Nat) : List Token → Nat
  | [] => 0
  | t :: ts =>
    if t.kind.isOpener then variablesRest (depth + 1) ts + 1
    else if t.kind.isBracketCloser then variablesRest (depth - 1) ts + 1
    else if t.kind.endsVariables then 0
    -- a procedure has a name, a procedure type has none
    else if t.kind = .word .PROCEDURE ∧ nextIsName ts = true then 0
    else if t.kind = .word .END then
      match depth with
      | 0 => 0
      | outer + 1 => variablesRest outer ts + 1
    else variablesRest depth ts + 1

/-- Rest of a procedure heading, its semicolon included, inside so many parentheses. -/
def headingRest (depth : Nat) : List Token → Nat
  | [] => 0
  | t :: ts =>
    if t.kind = .symbol .openParen then headingRest (depth + 1) ts + 1
    else if t.kind = .symbol .closeParen then headingRest (depth - 1) ts + 1
    else if t.kind = .symbol .semicolon ∧ depth = 0 then 1
    else headingRest depth ts + 1

/-- Whether nothing but the footer of the module is left. -/
def isFooter : List Token → Bool
  | [e, n, p] => e.kind == .word .END && n.kind.isName && p.kind == .symbol .period
  | _ => false

/-- Whether the body of the procedure of this name ends here. -/
def isProcedureEnd (name : Option String) : List Token → Bool
  | e :: n :: s :: _ =>
    e.kind == .word .END && name.any (fun text => n.kind == .name text) &&
      s.kind == .symbol .semicolon
  | _ => false

/-- Body of the procedure of this name, its closing semicolon included. -/
def procedureBody (name : Option String) : List Token → Nat
  | [] => 0
  | t :: ts =>
    if isFooter (t :: ts) then 0
    else if isProcedureEnd name (t :: ts) then 3
    else procedureBody name ts + 1

/-- Everything before the footer of the module. -/
def beforeFooter : List Token → Nat
  | [] => 0
  | t :: ts => if isFooter (t :: ts) then 0 else beforeFooter ts + 1

end Skip

/-! ## Cursors behind what is skipped -/

namespace Cursor

/-- Behind the broken import at the cursor. -/
def afterImport (c : Cursor) : Cursor :=
  let d := c.advance
  d.skip (Skip.importRest d.rest)

/-- Behind the broken declaration at the cursor. -/
def afterDeclaration (c : Cursor) : Cursor :=
  let d := c.advance
  d.skip (Skip.declarationRest 0 d.rest)

/-- Behind the variable declarations at the cursor. -/
def afterVariables (c : Cursor) : Cursor :=
  let d := c.advance
  d.skip (Skip.variablesRest 0 d.rest)

/-- The name at the cursor. -/
def nameHere (c : Cursor) : Option String :=
  match c.kind with
  | .name text => some text
  | _ => none

/-- Behind the procedure declaration at the cursor, which may be a heading alone. -/
def afterProcedure (c : Cursor) (headingOnly : Bool) : Cursor :=
  let d := c.advance
  let name := d.nameHere
  let e := d.skip (Skip.headingRest 0 d.rest)
  if headingOnly then e else e.skip (Skip.procedureBody name e.rest)

/-- Before the footer of the module. -/
def atFooter (c : Cursor) : Cursor := c.skip (Skip.beforeFooter c.rest)

/-- Where reading goes on after a declaration that began at `start` and failed at `c`: right there
if a declaration begins there, since then only the end of the broken one is missing; else behind
the broken one. -/
def resume (start c : Cursor) : Cursor :=
  if c.remaining = start.remaining ∨ c.beginsDeclaration = false then start.afterDeclaration else c

end Cursor

end Modula

import Modula.Cursor
import Modula.SyntaxError
import Modula.Tree.Name
/-!
# Parsers

  A parser reads one phrase at a cursor.  It is run inside a `Construct`, the phrase that its errors
  are reported in, and it ends with a value or with an error; in both cases the cursor tells how far
  it came.

  1. **Steps** — look at the token at the cursor, take it, or ask for it (`accept`, `expect`, `name`,
     `close`), and draw an id (`freshId`).
  2. **Lists** — `sepBy` reads items between separators.

  A parser that repeats itself does so at most as often as there are tokens to be read.  That number
  is its budget; when it is used up nothing is left to be read, so the repetition is over.
-/

namespace Modula

/-- A reader of one phrase. -/
abbrev Parser (α : Type) := ReaderT Construct (EStateM SyntaxError Cursor) α

namespace Parser

/-! ## Running -/

@[simp] theorem pure_apply {α : Type} (a : α) (construct : Construct) (c : Cursor) :
    (pure a : Parser α) construct c = .ok a c := rfl

/-- A sequence stops at the first error. -/
theorem bind_apply {α β : Type} (p : Parser α) (f : α → Parser β) (construct : Construct)
    (c : Cursor) :
    (p >>= f) construct c = match p construct c with
      | .ok a c' => f a construct c'
      | .error e c' => .error e c' := by
  show EStateM.bind (p construct) (fun a => f a construct) c = _
  unfold EStateM.bind
  cases p construct c with
  | ok a c' => rfl
  | error e c' => rfl

/-! ## Steps -/

/-- Ends with an error at an earlier place. -/
def failAt {α : Type} (place : Cursor) (cause : SyntaxError.Cause) : Parser α := fun construct c =>
  .error ⟨cause, place.token, place.remaining, construct⟩ c

/-- Ends with an error at the cursor, which is told what stands there. -/
def fail {α : Type} (cause : Token.Kind → SyntaxError.Cause) : Parser α := fun construct c =>
  failAt c (cause c.kind) construct c

/-- What stands at the cursor. -/
def kind : Parser Token.Kind := return (← get).kind

/-- How many tokens are still to be read. -/
def remaining : Parser Nat := return (← get).remaining

/-- Where the last token that was read ends. -/
def lastEnd : Parser Nat := return (← get).lastEnd

/-- Takes the token at the cursor, whatever it is. -/
def advance : Parser Token := fun _ c => .ok c.token c.advance

/-- Takes the token at the cursor if it is this one, and tells whether it was. -/
def accept (wanted : Token.Kind) : Parser Bool := fun _ c =>
  if c.kind = wanted then .ok true c.advance else .ok false c

/-- Takes the token at the cursor, which has to be this one. -/
def expect (wanted : Token.Kind) : Parser Token := fun construct c =>
  if c.kind = wanted then .ok c.token c.advance
  else fail (.expected (.kind wanted)) construct c

/-- Takes the name at the cursor. -/
def ident : Parser Ident := fun construct c =>
  match c.kind with
  | .name text => .ok ⟨text, c.token.span⟩ c.advance
  | _ => fail (.expected .name) construct c

/-- Takes the token that closes a bracket, of which the opening token is known. -/
def close (bracket : Bracket) (opener : Token) : Parser Unit := fun construct c =>
  if c.kind = bracket.closer then .ok () c.advance
  else fail (.unterminated bracket opener) construct c

/-- Reports the errors of a parser in another phrase.  Afterwards they are reported in the phrase before
again, which is never forgotten here; a machine has to go back to it (`Program.within`). -/
def within {α : Type} (construct : Construct) (p : Parser α) : Parser α := fun _ c =>
  p construct c

/-- Draws an id. -/
def freshId : Parser Nat := fun _ c => .ok c.nextId { c with nextId := c.nextId + 1 }

/-! ## Lists -/

/-- Further items, each with a separator in front of it. -/
def moreAfter {α : Type} (separator : Token.Kind) (item : Parser α) :
    (budget : Nat) → Parser (List α)
  | 0 => return []
  | budget + 1 => do
    if ← accept separator then
      let a ← item
      let more ← moreAfter separator item budget
      return a :: more
    else return []

/-- One or more items with separators between them. -/
def sepBy {α : Type} (separator : Token.Kind) (item : Parser α) : Parser (α × List α) := do
  let first ← item
  let more ← moreAfter separator item (← remaining)
  return (first, more)

end Parser

end Modula

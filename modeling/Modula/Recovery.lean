import Modula.Cursor
import Modula.SyntaxError
import Modula.Parser
/-!
# Recovery

  A module with several faults should be told about all of them.  A `Recovering` reader therefore
  keeps a `Session`: the cursor, and a log of the errors after which it went on, each with the place
  where it did.

  * `note e resumption` puts an error into the log and moves the cursor — or gives up, with that very
    error, if the options do not allow to go on.
  * `run` runs a parser; its error ends the reading.
  * `attempt` runs a parser and hands out its error, with the cursor left where the error arose.
-/

namespace Modula

/-- How far reading goes after an error. -/
structure Options where
  /-- Reading ends with the error that makes this many. -/
  maxErrors : Nat
  /-- Whether reading goes on after an error at all. -/
  recover : Bool
deriving DecidableEq, Repr

namespace Options

/-- Up to 20 errors. -/
def default : Options := ⟨20, true⟩

/-- The first error only. -/
def failFast : Options := ⟨1, false⟩

end Options

/-- An error after which reading went on. -/
structure Recovery where
  error : SyntaxError
  /-- How many tokens were still to be read where reading went on. -/
  resumption : Nat
deriving DecidableEq, Repr

/-- How far the reading of a module has come. -/
structure Session where
  cursor : Cursor
  log : List Recovery
deriving DecidableEq, Repr

/-- A reader that may go on after an error. -/
abbrev Recovering (α : Type) := ReaderT Options (EStateM SyntaxError Session) α

namespace Recovering

/-! ## Running -/

@[simp] theorem pure_apply {α : Type} (a : α) (options : Options) (s : Session) :
    (pure a : Recovering α) options s = .ok a s := rfl

/-- A sequence stops at the first error that is not gone on from. -/
theorem bind_apply {α β : Type} (p : Recovering α) (f : α → Recovering β) (options : Options)
    (s : Session) :
    (p >>= f) options s = match p options s with
      | .ok a s' => f a options s'
      | .error e s' => .error e s' := by
  show EStateM.bind (p options) (fun a => f a options) s = _
  unfold EStateM.bind
  cases p options s with
  | ok a s' => rfl
  | error e s' => rfl

/-! ## Steps -/

/-- The cursor. -/
def cursor : Recovering Cursor := return (← get).cursor

/-- Goes on at another place after an error, if the options allow it.  Ids that have been drawn
stay drawn. -/
def note (e : SyntaxError) (resumption : Cursor) : Recovering Unit := fun options s =>
  if options.recover = false ∨ options.maxErrors ≤ s.log.length + 1 then .error e s
  else
    .ok () ⟨{ resumption with nextId := s.cursor.nextId }, s.log ++ [⟨e, resumption.remaining⟩]⟩

/-- Runs a parser in a phrase. -/
def run {α : Type} (construct : Construct) (p : Parser α) : Recovering α := fun _ s =>
  match p construct s.cursor with
  | .ok a c => .ok a { s with cursor := c }
  | .error e c => .error e { s with cursor := c }

/-- Runs a parser in a phrase, and hands out its error. -/
def attempt {α : Type} (construct : Construct) (p : Parser α) :
    Recovering (Except SyntaxError α) := fun _ s =>
  match p construct s.cursor with
  | .ok a c => .ok (.ok a) { s with cursor := c }
  | .error e c => .ok (.error e) { s with cursor := c }

/-- An error at the cursor, outside of all phrases. -/
def outerError (c : Cursor) (cause : SyntaxError.Cause) : SyntaxError :=
  ⟨cause, c.token, c.remaining, .compilationUnit⟩

end Recovering

end Modula

import Modula.Recovery.Unit
/-!
# Machines

  A parser is told the phrase that its errors are reported in, and a cursor tells where it stands; nothing
  else is handed from one phrase to the next.  A parser in use keeps both in one state for as long as it
  is asked for something, and two things more that are changed while it reads:

  * the errors that have been put aside, until a report takes them;
  * the phrases that have been entered and not been left, with the innermost one in front.  An error is
    reported in that one.

  A phrase is entered before it is read, and it is left when this ends, be it with a value or with an
  error (`Program.within`).  So a machine that is asked for the next thing has whatever the thing before
  has left in it, and it has to be shown that this is nothing.
-/

namespace Modula

/-- The state of a parser in use. -/
structure Machine where
  cursor : Cursor
  /-- The errors after which reading went on. -/
  errors : List Recovery
  /-- The phrases that are being read, the innermost one first. -/
  entered : List Construct
deriving DecidableEq, Repr

namespace Machine

/-- The machine before anything has been read, and between two things that are read. -/
def idle (c : Cursor) : Machine := ⟨c, [], []⟩

/-- The phrase that an error is reported in. -/
def innermost (m : Machine) : Construct := m.entered.head?.getD .compilationUnit

/-- An error at some place, as it is reported now. -/
def errorAt (m : Machine) (place : Cursor) (cause : SyntaxError.Cause) : SyntaxError :=
  ⟨cause, place.token, place.remaining, m.innermost⟩

/-- A phrase begins. -/
def enter (m : Machine) (construct : Construct) : Machine :=
  { m with entered := construct :: m.entered }

/-- The phrase that was entered last is over. -/
def leave (m : Machine) : Machine := { m with entered := m.entered.tail }

@[simp] theorem innermost_enter (m : Machine) (construct : Construct) :
    (m.enter construct).innermost = construct := rfl

@[simp] theorem cursor_enter (m : Machine) (construct : Construct) :
    (m.enter construct).cursor = m.cursor := rfl

/-- What is read meanwhile changes the cursor alone. -/
@[simp] theorem leave_enter (m : Machine) (construct : Construct) (c : Cursor) :
    leave { m.enter construct with cursor := c } = { m with cursor := c } := rfl

end Machine

/-- What is done on a machine. -/
abbrev Program (α : Type) := ReaderT Options (EStateM SyntaxError Machine) α

namespace Program

variable {α : Type}

/-! ## Steps -/

/-- Looks at the cursor, and moves it. -/
def step (f : Cursor → α × Cursor) : Program α := fun _ m =>
  .ok (f m.cursor).1 { m with cursor := (f m.cursor).2 }

/-- The cursor. -/
def cursor : Program Cursor := step fun c => (c, c)

/-- Makes an error out of what stands at some place. -/
def errorAt (place : Cursor) (cause : SyntaxError.Cause) : Program SyntaxError := fun _ m =>
  .ok (m.errorAt place cause) m

/-- Ends with an error. -/
def fail (e : SyntaxError) : Program α := fun _ m => .error e m

/-- Ends with an error at some place. -/
def failAt (place : Cursor) (cause : SyntaxError.Cause) : Program α := do fail (← errorAt place cause)

/-- Puts an error aside, with the number of tokens that are left to be read behind it, or ends with it. -/
def putAside (e : SyntaxError) (resumption : Nat) : Program Unit := fun options m =>
  if options.recover = false ∨ options.maxErrors ≤ m.errors.length + 1 then .error e m
  else .ok () { m with errors := m.errors ++ [⟨e, resumption⟩] }

/-- Goes on at another place.  Ids that have been drawn stay drawn. -/
def goOnAt (c : Cursor) : Program Unit := step fun before => ((), { c with nextId := before.nextId })

/-- Puts an error aside and goes on behind it. -/
def note (e : SyntaxError) (resumption : Cursor) : Program Unit := do
  putAside e resumption.remaining
  goOnAt resumption

/-! ## Phrases -/

/-- Enters a phrase, does what is to be done in it, and leaves it. -/
def within (construct : Construct) (p : Program α) : Program α := fun options m =>
  match p options (m.enter construct) with
  | .ok a m' => .ok a m'.leave
  | .error e m' => .error e m'.leave

/-- Hands out an error instead of ending with it. -/
def attempt (p : Program α) : Program (Except SyntaxError α) := fun options m =>
  match p options m with
  | .ok a m' => .ok (.ok a) m'
  | .error e m' => .ok (.error e) m'

/-- The error that a module ends with, of which something is missing if the source has ended. -/
def asMissingFooter (moduleName : Ident) (e : SyntaxError) (m : Machine) : SyntaxError :=
  if m.cursor.atEnd = false ∨ e.cause.isUnterminated = true then e
  else m.errorAt m.cursor (.missingFooter moduleName.name)

/-- Does what is to be done inside of a module. -/
def inside (moduleName : Ident) (p : Program α) : Program α := fun options m =>
  match p options m with
  | .ok a m' => .ok a m'
  | .error e m' => .error (asMissingFooter moduleName e m') m'

end Program

end Modula

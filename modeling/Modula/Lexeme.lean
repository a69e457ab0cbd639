import Modula.LexError
import Modula.Lexeme.Number
import Modula.Lexeme.Comment
/-!
# Lexemes

  A non-empty source is read from its front: `Lexeme.read c cs` says what stands at the front of
  `c :: cs`, and how many characters of `cs` belong to it.  The first character always belongs to
  it, so that reading moves on by construction.

      blank     space, tab, carriage return, line feed or form feed
      comment   "(*" … "*)", nested
      token     number, string, word, operator or delimiter
      bad       a text that is none of these
-/

namespace Modula

/-- What stands at the front of a source. -/
inductive Lexeme where
  | blank
  | comment
  | token (kind : Token.Kind)
  | bad (cause : LexError.Cause)
deriving DecidableEq, Repr

namespace Lexeme

/-- The characters between tokens that mean nothing; a vertical tab is not among them. -/
def isBlank (c : Char) : Bool :=
  c == ' ' || c == '\t' || c == '\r' || c == '\n' || c == '\x0c'

/-- The two quotes, one of which encloses a string. -/
def isQuote (c : Char) : Bool := c == '\x22' || c == '\x27'

/-- A number, from its first digit. -/
def number (c : Char) (cs : Text) : Lexeme × Nat :=
  let (shape, length) := Number.read (c :: cs)
  let spelling := (c :: cs).take length
  let lexeme := match shape with
    | .integer .decimal => .token (.integer ⟨.decimal, String.ofList spelling⟩)
    | .integer radix => .token (.integer ⟨radix, String.ofList spelling.dropLast⟩)
    | .real => .token (.real (String.ofList spelling))
    | .malformed => .bad (.malformedNumber (String.ofList spelling))
  (lexeme, length - 1)

/-- A string, from its opening quote; it stays on one line. -/
def string (quote : Char) (cs : Text) : Lexeme × Nat :=
  let content := cs.takeWhile fun c => c != quote && c != '\n'
  if (cs.drop content.length).head? = some quote then
    (.token (.string (String.ofList content)), content.length + 1)
  else (.bad .unterminatedString, content.length)

/-- A reserved word or a name, from its first letter. -/
def word (c : Char) (cs : Text) : Lexeme × Nat :=
  let more := cs.takeWhile Number.isAlphanumeric
  let text := String.ofList (c :: more)
  match Keyword.ofSpelling? text with
  | some k => (.token (.word k), more.length)
  | none => (.token (.name text), more.length)

/-- An operator or delimiter, or else a character that begins nothing. -/
def symbol (c : Char) (cs : Text) : Lexeme × Nat :=
  match Symbol.read? c cs with
  | some (s, more) => (.token (.symbol s), more)
  | none => (.bad (.invalidCharacter c), 0)

/-- A comment, from behind its opening delimiter. -/
def commentTail (cs : Text) : Lexeme × Nat :=
  match Comment.length? cs with
  | some length => (.comment, length)
  | none => (.bad .unterminatedComment, cs.length)

/-- What stands at the front of `c :: cs`, and how many characters of `cs` belong to it. -/
def read (c : Char) (cs : Text) : Lexeme × Nat :=
  if isBlank c then (.blank, 0)
  else if Number.isDigit c then number c cs
  else if Number.isLetter c then word c cs
  else if isQuote c then string c cs
  else
    match c, cs with
    | '(', '*' :: inside =>
      let (lexeme, more) := commentTail inside
      (lexeme, more + 1)
    | _, _ => symbol c cs

end Lexeme

end Modula

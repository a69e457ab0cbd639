import Modula.Span
import Modula.Token.Keyword
import Modula.Token.Symbol
import Modula.Token.Integer
/-!
# Tokens

  A token is what the grammar sees of a source: a `Token.Kind` — a literal, a name, a reserved word,
  a sign, or the end of the source — together with the span it covers and the line and column of its
  first byte.  Literals and names carry what was written; the blanks and comments between tokens are
  gone.
-/

namespace Modula

/-- What a token is. -/
inductive Token.Kind where
  /-- An integer, without its suffix letter. -/
  | integer (literal : IntLiteral)
  /-- A real number, as written. -/
  | real (text : String)
  /-- A string, between its quotes. -/
  | string (content : String)
  | name (text : String)
  | word (keyword : Keyword)
  | symbol (symbol : Symbol)
  /-- The end of the source. -/
  | eof
deriving DecidableEq, Repr

namespace Token.Kind

/-- How messages call a token of this kind. -/
def displayName : Kind → String
  | .integer _ => "an integer"
  | .real _ => "a real number"
  | .string _ => "a string"
  | .name _ => "a name"
  | .word k => "'" ++ k.spelling ++ "'"
  | .symbol s => "'" ++ s.spelling ++ "'"
  | .eof => "end of file"

/-- Whether the token is a reserved word. -/
def isKeyword : Kind → Bool
  | .word _ => true
  | _ => false

/-- Whether the token is a name. -/
def isName : Kind → Bool
  | .name _ => true
  | _ => false

/-- Whether the token ends the source. -/
def isEof : Kind → Bool
  | .eof => true
  | _ => false

theorem isEof_iff {k : Kind} : k.isEof = true ↔ k = .eof := by
  cases k <;> simp [isEof]

end Token.Kind

/-- A token with its place in the source. -/
structure Token where
  kind : Token.Kind
  span : Span
  /-- Line of the first byte, from 1. -/
  line : Nat
  /-- Byte column of the first byte, from 1. -/
  column : Nat
deriving DecidableEq, Repr

end Modula

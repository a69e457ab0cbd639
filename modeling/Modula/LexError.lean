import Modula.Token
/-!
# Lexical errors

  Four things can go wrong while a token is read.  Each is a `LexError.Cause`; the wording of the
  messages and of the hints is in `message` and `hint?` and nowhere else.  An error covers the text
  that cannot be read, and reading goes on after it.
-/

namespace Modula

/-- What went wrong while a token was read. -/
inductive LexError.Cause where
  /-- A string that its line ends before its closing quote. -/
  | unterminatedString
  /-- A character that begins no token. -/
  | invalidCharacter (c : Char)
  /-- A number that runs into letters or digits. -/
  | malformedNumber (text : String)
  /-- A comment that the source ends before its closing delimiter. -/
  | unterminatedComment
deriving DecidableEq, Repr

/-- What a message says about the cause. -/
def LexError.Cause.description : LexError.Cause → String
  | .unterminatedString => "unterminated string literal"
  | .invalidCharacter c => "unexpected character '" ++ String.singleton c ++ "'"
  | .malformedNumber text => "malformed number '" ++ text ++ "'"
  | .unterminatedComment => "unterminated comment"

/-- A short suggestion for mending the error. -/
def LexError.Cause.hint? : LexError.Cause → Option String
  | .unterminatedString =>
    some "close the string on the same line with the quote it started with"
  | .invalidCharacter _ => none
  | .malformedNumber _ =>
    some "integer suffixes are B or C (octal), H (hex) and D; hex digits are uppercase"
  | .unterminatedComment => some "every '(*' needs a matching '*)'"

/-- A lexical error with the text that it covers. -/
structure LexError where
  cause : LexError.Cause
  span : Span
  line : Nat
  column : Nat
deriving DecidableEq, Repr

/-- The message, led by its place. -/
def LexError.message (e : LexError) : String :=
  toString e.line ++ ":" ++ toString e.column ++ ": " ++ e.cause.description

end Modula

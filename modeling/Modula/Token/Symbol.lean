import Modula.Text
/-!
# Operators and delimiters

  The signs of the language that are not words.  Five of them begin with another sign, and the longer
  one wins where both would do: `Symbol.read?` looks one character past the first.
-/

namespace Modula

/-- An operator or delimiter. -/
inductive Symbol where
  | plus | minus | times | divide | ampersand
  | equal | hash | notEqual | less | lessEqual | greater | greaterEqual
  | ellipsis | becomes | period | bar
  | openParen | closeParen | openBracket | closeBracket | openBrace | closeBrace
  | comma | semicolon | colon
deriving DecidableEq, Repr

namespace Symbol

/-- How the sign is written. -/
def spelling : Symbol → String
  | .plus => "+"
  | .minus => "-"
  | .times => "*"
  | .divide => "/"
  | .ampersand => "&"
  | .equal => "="
  | .hash => "#"
  | .notEqual => "<>"
  | .less => "<"
  | .lessEqual => "<="
  | .greater => ">"
  | .greaterEqual => ">="
  | .ellipsis => ".."
  | .becomes => ":="
  | .period => "."
  | .bar => "|"
  | .openParen => "("
  | .closeParen => ")"
  | .openBracket => "["
  | .closeBracket => "]"
  | .openBrace => "\x7b"
  | .closeBrace => "\x7d"
  | .comma => ","
  | .semicolon => ";"
  | .colon => ":"

/-- The sign that is one character long. -/
def ofChar? : Char → Option Symbol
  | '+' => some .plus
  | '-' => some .minus
  | '*' => some .times
  | '/' => some .divide
  | '&' => some .ampersand
  | '=' => some .equal
  | '#' => some .hash
  | '<' => some .less
  | '>' => some .greater
  | '.' => some .period
  | '|' => some .bar
  | '(' => some .openParen
  | ')' => some .closeParen
  | '[' => some .openBracket
  | ']' => some .closeBracket
  | '{' => some .openBrace
  | '}' => some .closeBrace
  | ',' => some .comma
  | ';' => some .semicolon
  | ':' => some .colon
  | _ => none

/-- The sign that is written with these two characters. -/
def ofChars? : Char → Char → Option Symbol
  | '<', '>' => some .notEqual
  | '<', '=' => some .lessEqual
  | '>', '=' => some .greaterEqual
  | '.', '.' => some .ellipsis
  | ':', '=' => some .becomes
  | _, _ => none

/-- The longest sign at the front of `c :: cs`, with the number of characters of `cs` in it. -/
def read? (c : Char) : Text → Option (Symbol × Nat)
  | [] => (ofChar? c).map (·, 0)
  | d :: _ =>
    match ofChars? c d with
    | some s => some (s, 1)
    | none => (ofChar? c).map (·, 0)

end Symbol

end Modula

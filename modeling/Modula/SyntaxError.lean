import Modula.Construct
/-!
# Syntax errors

  What can be wrong with a sequence of tokens is a `SyntaxError.Cause`.  The wording follows from the
  cause alone: `Cause.description` says what is wrong, and `Cause.hint?` suggests how to mend it.

  An error points at the offending token.  It also keeps how many tokens were unread at that point,
  the offending one included, so that errors of one source can be put in order without looking at
  positions.
-/

namespace Modula.SyntaxError

/-! ## Causes -/

/-- What the grammar asked for. -/
inductive Expectation where
  /-- One particular token. -/
  | kind (kind : Token.Kind)
  /-- Any name. -/
  | name
  /-- A token that begins a compilation unit. -/
  | moduleStart
deriving DecidableEq, Repr

/-- What the language has and this library passes over. -/
inductive Feature where
  | variableDeclarations | procedureDeclarations | statementSequences
deriving DecidableEq, Repr

/-- What is wrong. -/
inductive Cause where
  | expected (what : Expectation) (found : Token.Kind)
  /-- The name of a tag field has module names in front of it. -/
  | qualifiedTag
  | expectedExpression (found : Token.Kind)
  | expectedType (found : Token.Kind)
  /-- A bracket is not closed where it has to be. -/
  | unterminated (bracket : Bracket) (opener : Token) (found : Token.Kind)
  /-- A second relation in one expression. -/
  | chainedRelation
  /-- The source ends inside a module. -/
  | missingFooter (moduleName : String)
  | notSupported (feature : Feature)
deriving DecidableEq, Repr

/-! ## Wording -/

/-- How messages call what was asked for. -/
def Expectation.text : Expectation → String
  | .kind k => k.displayName
  | .name => "a name"
  | .moduleStart => "'DEFINITION', 'IMPLEMENTATION' or 'MODULE'"

/-- How messages call a feature. -/
def Feature.text : Feature → String
  | .variableDeclarations => "variable declarations"
  | .procedureDeclarations => "procedure declarations"
  | .statementSequences => "statement sequences"

/-- A suggestion when one particular token was asked for. -/
def kindHint? : (wanted found : Token.Kind) → Option String
  | .symbol .semicolon, .symbol .comma => some "declarations end with ';', lists use ','"
  | .symbol .semicolon, _ => some "imports and declarations end with ';'"
  | .symbol .equal, .symbol .colon => some "use '=' for constants and types, ':' for fields"
  | .symbol .equal, .symbol .becomes => some "constants are declared with '=', not ':='"
  | .symbol .colon, .symbol .equal => some "record fields are declared as 'name: Type'"
  | .symbol .colon, _ => some "syntax: name: Type"
  | .word .OF, _ => some "syntax: ARRAY Index OF Element, SET OF Base, CASE tag: T OF"
  | .word .TO, _ => some "pointer types are written POINTER TO Type"
  | .word .IMPORT, _ => some "syntax: FROM Module IMPORT a, b;"
  | .word .MODULE, _ => some "a compilation unit starts with [DEFINITION | IMPLEMENTATION] MODULE"
  | .symbol .ellipsis, _ => some "subranges are written [low .. high]"
  | .word .END, _ => some "every RECORD, CASE and module body ends with 'END'"
  | .symbol .period, _ => some "a module ends with 'END Name.'"
  | .eof, _ => some "nothing may follow the closing 'END Name.'"
  | _, _ => none

/-- A suggestion when a name was asked for. -/
def nameHint : (found : Token.Kind) → String
  | .integer _ | .real _ => "names can't start with a digit"
  | .word _ => "reserved words can't be used as names"
  | _ => "names start with a letter"

/-- A suggestion when an expression was asked for. -/
def expressionHint : (found : Token.Kind) → String
  | .symbol .plus | .symbol .minus =>
    "a sign may only start an expression; use parentheses: a * (-b)"
  | .eof => "the expression is incomplete"
  | .symbol .semicolon => "put the value before ';'"
  | .symbol .openBracket => "set constructors use braces: \x7b1, 2..5\x7d"
  | _ => "try a number, string, name, set \x7b...\x7d or parenthesized expression"

/-- A suggestion when a type was asked for. -/
def typeHint : (found : Token.Kind) → String
  | .integer _ => "subrange types are written in brackets: [1 .. 10]"
  | .word .VAR => "VAR is only allowed in procedure parameter lists"
  | _ => "try a type name, (enumeration), [subrange], ARRAY, RECORD, SET, POINTER or PROCEDURE"

/-- A suggestion when a feature is passed over. -/
def featureHint : Feature → String
  | .variableDeclarations | .procedureDeclarations =>
    "only CONST and TYPE declarations are parsed"
  | .statementSequences => "only declarations are parsed; leave the module body empty"

namespace Cause

/-- What a message says about the cause. -/
def description : Cause → String
  | .expected what found => "expected " ++ what.text ++ ", found " ++ found.displayName
  | .qualifiedTag => "expected a tag name, found a qualified name"
  | .expectedExpression found => "expected expression, found " ++ found.displayName
  | .expectedType found => "expected type, found " ++ found.displayName
  | .unterminated bracket _ found =>
    "expected " ++ bracket.closer.displayName ++ " to close " ++ bracket.construct.name ++
      ", found " ++ found.displayName
  | .chainedRelation => "comparisons cannot be chained"
  | .missingFooter moduleName =>
    "module '" ++ moduleName ++ "' is missing its closing 'END " ++ moduleName ++ ".'"
  | .notSupported feature => feature.text ++ " are not supported"

/-- A short suggestion for mending the error. -/
def hint? : Cause → Option String
  | .expected (.kind wanted) found => kindHint? wanted found
  | .expected .name found => some (nameHint found)
  | .expected .moduleStart _ =>
    some "start with 'MODULE Name;', 'DEFINITION MODULE Name;' or 'IMPLEMENTATION MODULE Name;'"
  | .qualifiedTag => some "the tag field name cannot be qualified"
  | .expectedExpression found => some (expressionHint found)
  | .expectedType found => some (typeHint found)
  | .unterminated bracket opener _ =>
    some ("the " ++ bracket.construct.name ++ " starts at line " ++ toString opener.line ++
      ", column " ++ toString opener.column)
  | .chainedRelation => some "join comparisons with AND: (a < b) AND (b < c)"
  | .missingFooter moduleName => some ("add 'END " ++ moduleName ++ ".' after the last declaration")
  | .notSupported feature => some (featureHint feature)

/-- Whether the cause is a bracket that is not closed. -/
def isUnterminated : Cause → Bool
  | .unterminated _ _ _ => true
  | _ => false

end Cause

end Modula.SyntaxError

namespace Modula

/-! ## Errors -/

/-- A syntax error. -/
structure SyntaxError where
  cause : SyntaxError.Cause
  /-- The offending token. -/
  token : Token
  /-- How many tokens before the end of the source were unread, the offending one included. -/
  remaining : Nat
  /-- The phrase in which the error stands. -/
  construct : Construct
deriving DecidableEq, Repr

/-- The message, led by its place and followed by the phrase. -/
def SyntaxError.message (e : SyntaxError) : String :=
  toString e.token.line ++ ":" ++ toString e.token.column ++ ": " ++ e.cause.description ++
    " (in " ++ e.construct.name ++ ")"

end Modula

import Modula.Token
/-!
# Constructs

  A syntax error names the phrase in which it stands.  `Construct` lists the phrases that are named so,
  and `Bracket` those of them that open with one token and close with another; an error about a
  missing closer points back to the opener.
-/

namespace Modula

/-- A phrase of the grammar that errors may be reported in. -/
inductive Construct where
  | compilationUnit | moduleHeader | moduleFooter | importClause
  | constDeclaration | typeDeclaration
  | arrayType | recordType | setType | pointerType | procedureType
  | enumeration | subrangeType | variantPart | formalParameterList
  | parentheses | setConstructor
deriving DecidableEq, Repr

/-- How messages call a phrase. -/
def Construct.name : Construct → String
  | .compilationUnit => "compilation unit"
  | .moduleHeader => "module header"
  | .moduleFooter => "module footer"
  | .importClause => "import"
  | .constDeclaration => "constant declaration"
  | .typeDeclaration => "type declaration"
  | .arrayType => "array type"
  | .recordType => "record type"
  | .setType => "set type"
  | .pointerType => "pointer type"
  | .procedureType => "procedure type"
  | .enumeration => "enumeration"
  | .subrangeType => "subrange type"
  | .variantPart => "variant part"
  | .formalParameterList => "formal parameter list"
  | .parentheses => "parenthesized expression"
  | .setConstructor => "set constructor"

/-- A phrase with an opening and a closing token. -/
inductive Bracket where
  | record | variantPart | subrange | setConstructor
  | enumeration | parentheses | formalParameters
deriving DecidableEq, Repr

namespace Bracket

/-- The phrase between the two tokens. -/
def construct : Bracket → Construct
  | .record => .recordType
  | .variantPart => .variantPart
  | .subrange => .subrangeType
  | .setConstructor => .setConstructor
  | .enumeration => .enumeration
  | .parentheses => .parentheses
  | .formalParameters => .formalParameterList

/-- The token that opens the phrase. -/
def opener : Bracket → Token.Kind
  | .record => .word .RECORD
  | .variantPart => .word .CASE
  | .subrange => .symbol .openBracket
  | .setConstructor => .symbol .openBrace
  | .enumeration | .parentheses | .formalParameters => .symbol .openParen

/-- The token that closes the phrase. -/
def closer : Bracket → Token.Kind
  | .record | .variantPart => .word .END
  | .subrange => .symbol .closeBracket
  | .setConstructor => .symbol .closeBrace
  | .enumeration | .parentheses | .formalParameters => .symbol .closeParen

end Bracket

end Modula

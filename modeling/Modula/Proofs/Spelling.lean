import Modula.Lexeme
/-!
# How tokens are written

  A kind of token has a spelling, and most kinds have only one.  A string has two, in either quote,
  unless its content holds one of them; an integer is its digits and the suffix letter of its form.

  `Token.Kind.Spells k text` says that the text is a spelling of the kind, whatever payload it carries.
  `Token.Kind.isWellFormed k` says that the payload is one that the kind is made for: a name is no
  reserved word, the digits of an octal number are octal, and so on.  Both are about the kind alone and
  know nothing of how a source is read.
-/

namespace Modula

/-! ## Numbers -/

/-- The letter behind the digits of an integer; a decimal integer has none. -/
def Radix.suffix : Radix → Text
  | .decimal => []
  | .octal => ['B']
  | .char => ['C']
  | .hex => ['H']
  | .double => ['D']

/-- `digit {digit}` -/
def isDigits (text : Text) : Bool := !text.isEmpty && text.all Number.isDigit

/-- Whether these are digits of the form.  A hexadecimal number begins with a decimal digit, or else
it would be a name. -/
def IntLiteral.isWellFormed (n : IntLiteral) : Bool :=
  match n.radix with
  | .decimal => isDigits n.digits.toList
  | .octal | .char => !n.digits.toList.isEmpty && n.digits.toList.all Number.isOctalDigit
  | .hex | .double =>
    n.digits.toList.head?.any Number.isDigit && n.digits.toList.all Number.isHexDigit

/-- `["E" ["+" | "-"] digit {digit}]` -/
def isExponent : Text → Bool
  | [] => true
  | 'E' :: '+' :: digits => isDigits digits
  | 'E' :: '-' :: digits => isDigits digits
  | 'E' :: digits => isDigits digits
  | _ => false

/-- `digit {digit} "." {digit} exponent` -/
def isReal (text : Text) : Bool :=
  let whole := text.takeWhile Number.isDigit
  !whole.isEmpty &&
    match text.drop whole.length with
    | '.' :: rest => isExponent (rest.dropWhile Number.isDigit)
    | _ => false

/-! ## Words and strings -/

/-- `letter {letter | digit}`, but no reserved word. -/
def isFreeName (text : String) : Bool :=
  match text.toList with
  | c :: cs =>
    Number.isLetter c && cs.all Number.isAlphanumeric && (Keyword.ofSpelling? text).isNone
  | [] => false

/-- Whether the content of a string fits between quotes of this kind, on one line. -/
def fitsIn (quote : Char) (content : Text) : Bool := content.all fun c => c != quote && c != '\n'

/-! ## Kinds -/

namespace Token.Kind

/-- Whether the payload is one that the kind is made for.  The end of the source is not written. -/
def isWellFormed : Kind → Bool
  | .integer literal => literal.isWellFormed
  | .real text => isReal text.toList
  | .string content =>
    !content.toList.contains '\n' &&
      !(content.toList.contains '\x22' && content.toList.contains '\x27')
  | .name text => isFreeName text
  | .word _ | .symbol _ => true
  | .eof => false

/-- The text is a spelling of the kind. -/
inductive Spells : Kind → Text → Prop
  | integer (literal : IntLiteral) :
    Spells (.integer literal) (literal.digits.toList ++ literal.radix.suffix)
  | real (text : String) : Spells (.real text) text.toList
  | string (content : String) {quote : Char} :
    Lexeme.isQuote quote = true → fitsIn quote content.toList = true →
      Spells (.string content) (quote :: (content.toList ++ [quote]))
  | name (text : String) : Spells (.name text) text.toList
  | word (keyword : Keyword) : Spells (.word keyword) keyword.spelling.toList
  | symbol (symbol : Symbol) : Spells (.symbol symbol) symbol.spelling.toList

/-- Whatever a string holds, as long as it is well-formed, one of the quotes is left for it. -/
theorem exists_quote {content : Text} (hline : content.contains '\n' = false)
    (hquotes : (content.contains '\x22' && content.contains '\x27') = false) :
    ∃ quote, Lexeme.isQuote quote = true ∧ fitsIn quote content = true := by
  have fits : ∀ {quote : Char}, content.contains quote = false → fitsIn quote content = true := by
    intro quote hq
    refine List.all_eq_true.2 fun c hc => ?_
    have hne : c ≠ quote := by
      rintro rfl
      rw [List.contains_iff_mem.2 hc] at hq
      cases hq
    have hnl : c ≠ '\n' := by
      rintro rfl
      rw [List.contains_iff_mem.2 hc] at hline
      cases hline
    simp [hne, hnl]
  rcases Bool.and_eq_false_iff.1 hquotes with h | h
  · exact ⟨'\x22', rfl, fits h⟩
  · exact ⟨'\x27', rfl, fits h⟩

theorem exists_spelling {k : Kind} (h : k.isWellFormed = true) : ∃ text, Spells k text := by
  cases k with
  | integer literal => exact ⟨_, .integer literal⟩
  | real text => exact ⟨_, .real text⟩
  | string content =>
    rw [isWellFormed, Bool.and_eq_true, Bool.not_eq_true', Bool.not_eq_true'] at h
    obtain ⟨quote, hq, hfit⟩ := exists_quote h.1 h.2
    exact ⟨_, .string content hq hfit⟩
  | name text => exact ⟨_, .name text⟩
  | word k => exact ⟨_, .word k⟩
  | symbol s => exact ⟨_, .symbol s⟩
  | eof => cases h

end Token.Kind

end Modula

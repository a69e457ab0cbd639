import Modula.Lexeme
/-!
# The lexer

  A lexer is a point of a source with the text that follows it.  What it yields is an `Item`, a token
  or a lexical error; blanks and comments are passed over.  Three ways to pull:

  * `Lexer.next` — the next item, and the lexer behind it.  At the end of the source there is an
    end-of-file token, again and again;
  * `Lexer.peek` — the same item, without moving;
  * `Lexer.tokenize` — all items up to the end of the source, tokens and errors apart.  It stops early
    after `Lexer.errorLimit` errors, with an end-of-file token of its own; the lexer it hands back
    can go on from there.

  Reading never stands still: every item other than the end of the source takes at least one
  character (`Lexer.length_next`).
-/

namespace Modula

/-- What a lexer yields. -/
abbrev Item := Except LexError Token

/-- A point of a source and the text from there on. -/
structure Lexer where
  rest : Text
  place : Place
deriving DecidableEq, Repr

/-- Tokens and errors of a source, each in order. -/
structure Tokenized where
  tokens : List Token
  errors : List LexError
deriving DecidableEq, Repr

namespace Lexer

/-- The lexer at the beginning of a source. -/
def ofText (source : Text) : Lexer := ⟨source, .origin⟩

/-- The lexer after `count` more characters. -/
def skip (l : Lexer) (count : Nat) : Lexer :=
  ⟨l.rest.drop count, l.place.advance (l.rest.take count)⟩

/-- The span of the next `count` characters. -/
def spanOf (l : Lexer) (count : Nat) : Span :=
  ⟨l.place.offset, l.place.offset + Text.byteLength (l.rest.take count)⟩

/-- The next `count` characters as a token. -/
def tokenOf (l : Lexer) (kind : Token.Kind) (count : Nat) : Token :=
  ⟨kind, l.spanOf count, l.place.line, l.place.column⟩

/-- The next `count` characters as an error. -/
def errorOf (l : Lexer) (cause : LexError.Cause) (count : Nat) : LexError :=
  ⟨cause, l.spanOf count, l.place.line, l.place.column⟩

/-- The lexer at the end of the source. -/
def atEnd (l : Lexer) : Lexer := l.skip l.rest.length

/-- The end-of-file token of the source. -/
def endToken (l : Lexer) : Token := l.atEnd.tokenOf .eof 0

@[simp] theorem rest_skip (l : Lexer) (count : Nat) : (l.skip count).rest = l.rest.drop count := rfl

/-! ## Single items -/

/-- The next item and the lexer behind it. -/
def next (l : Lexer) : Item × Lexer :=
  match _h : l.rest with
  | [] => (.ok l.endToken, l)
  | c :: cs =>
    let (lexeme, more) := Lexeme.read c cs
    match lexeme with
    | .blank => next (l.skip (more + 1))
    | .comment => next (l.skip (more + 1))
    | .token kind => (.ok (l.tokenOf kind (more + 1)), l.skip (more + 1))
    | .bad cause => (.error (l.errorOf cause (more + 1)), l.skip (more + 1))
termination_by l.rest.length
decreasing_by
  all_goals
    simp only [rest_skip, _h, List.drop_succ_cons, List.length_cons, List.length_drop]
    omega

/-- The next item, with the lexer left where it is. -/
def peek (l : Lexer) : Item := l.next.1

/-- Whether an item is the end of the source. -/
def isEnd : Item → Bool
  | .ok t => t.kind.isEof
  | .error _ => false

/-- An item other than the end of the source leaves less text behind it. -/
theorem length_next (l : Lexer) (h : isEnd l.next.1 = false) :
    l.next.2.rest.length < l.rest.length := by
  fun_induction next l with
  | case1 l hr => exact Bool.noConfusion h
  | case2 l c cs hr more hl ih =>
    have shorter := ih h
    rw [rest_skip, hr, List.drop_succ_cons, List.length_drop] at shorter
    rw [hr, List.length_cons]
    omega
  | case3 l c cs hr more hl ih =>
    have shorter := ih h
    rw [rest_skip, hr, List.drop_succ_cons, List.length_drop] at shorter
    rw [hr, List.length_cons]
    omega
  | case4 l c cs hr more kind hl =>
    rw [rest_skip, hr, List.drop_succ_cons, List.length_drop, List.length_cons]
    omega
  | case5 l c cs hr more cause hl =>
    rw [rest_skip, hr, List.drop_succ_cons, List.length_drop, List.length_cons]
    omega

/-! ## Whole sources -/

/-- Errors after which `tokenize` stops. -/
def errorLimit : Nat := 20

/-- All items up to the end of the source, or up to the error with which none of the `errorsLeft`
further ones is left. -/
def tokenizeFrom (errorsLeft : Nat) (l : Lexer) : Tokenized × Lexer :=
  match _h : l.next with
  | (.ok token, l') =>
    if _he : token.kind.isEof then (⟨[token], []⟩, l')
    else
      let (found, l'') := tokenizeFrom errorsLeft l'
      ({ found with tokens := token :: found.tokens }, l'')
  | (.error e, l') =>
    match errorsLeft with
    -- the end of the source is reported early, but the lexer stays where it is
    | 0 => (⟨[l'.endToken], [e]⟩, l')
    | errorsLeft + 1 =>
      let (found, l'') := tokenizeFrom errorsLeft l'
      ({ found with errors := e :: found.errors }, l'')
termination_by l.rest.length
decreasing_by
  · simpa [_h] using length_next l (by simpa [_h, isEnd] using _he)
  · simpa [_h] using length_next l (by simp [_h, isEnd])

/-- All items up to the end of the source or up to the last error that is collected. -/
def tokenize (l : Lexer) : Tokenized × Lexer := tokenizeFrom (errorLimit - 1) l

end Lexer

/-- The tokens and lexical errors of a source. -/
def tokenize (source : String) : Tokenized := (Lexer.ofText source.toList).tokenize.1

end Modula

import Modula.Lexer
/-!
# Looking ahead

  A reader of tokens may want to see the next item before it takes it.  A `Lookahead` is a lexer
  together with the item that has been looked at.  The lexer itself stands behind that item already;
  the item is kept until somebody takes it, be it a token, an error or the end of the source.

  There are three demands: `next` takes an item, `peek` looks at it, and `tokenize` takes all of them
  up to the end of the source, or up to the error that makes `Lexer.errorLimit`.
-/

namespace Modula

/-- A lexer, and the item in front of it that has been looked at and not been taken. -/
structure Lookahead where
  lexer : Lexer
  seen : Option Item
deriving Repr

namespace Lookahead

/-- Nothing has been looked at in a source. -/
def ofText (source : Text) : Lookahead := ⟨.ofText source, none⟩

/-! ## Single items -/

/-- Takes the next item, which may have been looked at. -/
def next (a : Lookahead) : Item × Lookahead :=
  match a.seen with
  | some item => (item, ⟨a.lexer, none⟩)
  | none =>
    let (item, lexer) := a.lexer.next
    (item, ⟨lexer, none⟩)

/-- Looks at the next item, and keeps it. -/
def peek (a : Lookahead) : Item × Lookahead :=
  let (item, b) := a.next
  (item, { b with seen := some item })

/-- How many characters and items are left at most. -/
def extent (a : Lookahead) : Nat := a.lexer.rest.length + a.seen.toList.length

/-- An item other than the end of the source leaves less behind it. -/
theorem extent_next (a : Lookahead) (h : Lexer.isEnd a.next.1 = false) :
    a.next.2.extent < a.extent := by
  obtain ⟨lexer, seen⟩ := a
  cases seen with
  | none => exact lexer.length_next h
  | some item => exact Nat.lt_succ_self _

/-! ## Whole sources -/

/-- All items up to the end of the source, or up to the error with which none of the `errorsLeft`
further ones is left. -/
def tokenizeFrom (errorsLeft : Nat) (a : Lookahead) : Tokenized × Lookahead :=
  match _h : a.next with
  | (.ok token, b) =>
    if _he : token.kind.isEof then (⟨[token], []⟩, b)
    else
      let (found, c) := tokenizeFrom errorsLeft b
      ({ found with tokens := token :: found.tokens }, c)
  | (.error e, b) =>
    match errorsLeft with
    | 0 => (⟨[b.lexer.endToken], [e]⟩, b)
    | errorsLeft + 1 =>
      let (found, c) := tokenizeFrom errorsLeft b
      ({ found with errors := e :: found.errors }, c)
termination_by a.extent
decreasing_by
  · simpa [_h] using extent_next a (by simpa [_h, Lexer.isEnd] using _he)
  · simpa [_h] using extent_next a (by simp [_h, Lexer.isEnd])

/-- All items up to the end of the source or up to the last error that is collected. -/
def tokenize (a : Lookahead) : Tokenized × Lookahead := tokenizeFrom (Lexer.errorLimit - 1) a

/-! ## Demands -/

/-- What is asked for. -/
inductive Demand where
  | next
  | peek
  | tokenize
deriving DecidableEq, Repr

/-- What is handed out. -/
inductive Supply where
  | item (item : Item)
  | all (found : Tokenized)
deriving Repr

/-- One demand. -/
def supply (a : Lookahead) : Demand → Supply × Lookahead
  | .next => (.item a.next.1, a.next.2)
  | .peek => (.item a.peek.1, a.peek.2)
  | .tokenize => (.all a.tokenize.1, a.tokenize.2)

/-- One demand after the other. -/
def supplies (a : Lookahead) : List Demand → List Supply
  | [] => []
  | demand :: more =>
    let (answer, b) := a.supply demand
    answer :: supplies b more

end Lookahead

end Modula

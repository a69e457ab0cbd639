import Modula.Token
/-!
# Cursors

  A cursor stands in a sequence of tokens: it holds the tokens that are still to be read, and the
  end-of-file token behind them.  That token is never read; a cursor that has reached it stays there.
  Two more things are carried along because phrases need them, the end of the last token that was
  read and the next free id.

  Any list of tokens can be read.  Only its first end-of-file token counts, and a list without one
  gets one behind its last token (`Cursor.ofTokens`).
-/

namespace Modula

/-- A place in a sequence of tokens. -/
structure Cursor where
  /-- The tokens still to be read, without the end of the source. -/
  rest : List Token
  /-- The end of the source. -/
  stop : Token
  /-- Where the last token that was read ends. -/
  lastEnd : Nat
  /-- The next id to be given to a node. -/
  nextId : Nat
deriving DecidableEq, Repr

namespace Cursor

/-- The end-of-file token of a list of tokens: the first one there is, or else one behind the last
token. -/
def stopOf (tokens : List Token) : Token :=
  match tokens.find? (fun t => t.kind.isEof) with
  | some t => t
  | none =>
    match tokens.getLast? with
    | some last => ⟨.eof, ⟨last.span.stop, last.span.stop⟩, last.line, last.column⟩
    | none => ⟨.eof, ⟨0, 0⟩, 1, 1⟩

/-- The cursor at the beginning of a list of tokens. -/
def ofTokens (tokens : List Token) : Cursor :=
  ⟨tokens.takeWhile (fun t => !t.kind.isEof), stopOf tokens, 0, 0⟩

/-! ## Looking -/

/-- How many tokens are still to be read. -/
def remaining (c : Cursor) : Nat := c.rest.length

/-- The token at the cursor. -/
def token (c : Cursor) : Token := c.rest.head?.getD c.stop

/-- What the token at the cursor is. -/
def kind (c : Cursor) : Token.Kind :=
  match c.rest with
  | [] => .eof
  | t :: _ => t.kind

/-- What the token after the one at the cursor is. -/
def kindAfter (c : Cursor) : Token.Kind :=
  match c.rest with
  | _ :: t :: _ => t.kind
  | _ => .eof

/-- Whether everything has been read. -/
def atEnd (c : Cursor) : Bool := c.rest.isEmpty

/-! ## Moving -/

/-- The cursor after the token that it stands at. -/
def advance (c : Cursor) : Cursor :=
  match c.rest with
  | [] => c
  | t :: rest => { c with rest := rest, lastEnd := t.span.stop }

/-- The cursor after `count` more tokens. -/
def skip (c : Cursor) : (count : Nat) → Cursor
  | 0 => c
  | count + 1 => c.advance.skip count

@[simp] theorem rest_advance (c : Cursor) : c.advance.rest = c.rest.tail := by
  unfold advance
  split <;> simp_all

@[simp] theorem rest_skip (c : Cursor) (count : Nat) : (c.skip count).rest = c.rest.drop count := by
  induction count generalizing c with
  | zero => rfl
  | succ n ih => rw [skip, ih, rest_advance, ← List.drop_one, List.drop_drop, Nat.add_comm]

end Cursor

end Modula

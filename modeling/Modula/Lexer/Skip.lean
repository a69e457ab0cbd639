import Modula.Lexer
/-!
# Skipping comments byte by byte

  `Comment.length?` says how many characters a comment takes.  A lexer that moves by bytes counts them while
  it goes over the characters, with one character of look-ahead: a delimiter is two bytes, and another
  character as many as its UTF-8 form has.  Beside the bytes it counts how many comments are open.

  The skip begins behind an opening delimiter.  It is over when no comment is open any more, or at the end
  of the source; then the comment is unterminated.  Either way the lexer moves on by the bytes that have
  been counted (`Lexer.bump?`).
-/

namespace Modula

namespace Comment

/-- A skip that has come to some point of the source. -/
structure Skip where
  /-- How many comments are open. -/
  depth : Nat
  /-- How many bytes have been passed over. -/
  consumed : Nat
  /-- The characters that are still to come. -/
  rest : Text
deriving DecidableEq, Repr

namespace Skip

/-- The skip behind the opening delimiter of a comment. -/
def start (text : Text) : Skip := ⟨1, 0, text⟩

/-- The skip behind one more delimiter or character; `none` when the skip is over. -/
def next? : Skip → Option Skip
  | ⟨0, _, _⟩ => none
  | ⟨depth + 1, consumed, '(' :: '*' :: cs⟩ => some ⟨depth + 2, consumed + 2, cs⟩
  | ⟨depth + 1, consumed, '*' :: ')' :: cs⟩ => some ⟨depth, consumed + 2, cs⟩
  | ⟨depth + 1, consumed, c :: cs⟩ => some ⟨depth + 1, consumed + c.utf8Size, cs⟩
  | ⟨_ + 1, _, []⟩ => none

theorem length_rest_next? {s s' : Skip} (h : s.next? = some s') : s'.rest.length < s.rest.length := by
  unfold next? at h
  split at h <;> cases h <;> simp only [List.length_cons] <;> omega

/-- The skip when it is over. -/
def run (s : Skip) : Skip :=
  match _h : s.next? with
  | some s' => run s'
  | none => s
termination_by s.rest.length
decreasing_by exact length_rest_next? _h

end Skip

/-- How a skip ends. -/
inductive Ending where
  | closed
  | unterminated
deriving DecidableEq, Repr

/-- How the skip behind an opening delimiter ends, and the bytes that it passes over. -/
def skip (text : Text) : Ending × Nat :=
  let s := (Skip.start text).run
  (if s.depth = 0 then .closed else .unterminated, s.consumed)

end Comment

end Modula

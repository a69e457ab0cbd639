import Modula.Text
/-!
# Comments at the front of a text

  Comments nest.  Inside a comment the delimiters are taken greedily from left to right, so that the
  text `(*)` opens a second comment and does not close the first one.  A comment that is never closed
  has no length: it runs to the end of the source.
-/

namespace Modula.Comment

/-- With `depth` comments open, the number of characters up to and including the delimiter that
closes the outermost one; `none` if it is never closed. -/
def lengthAt : (depth : Nat) → Text → Option Nat
  | 0, _ => some 0
  | depth + 1, '(' :: '*' :: cs => (lengthAt (depth + 2) cs).map (· + 2)
  | depth + 1, '*' :: ')' :: cs => (lengthAt depth cs).map (· + 2)
  | depth + 1, _ :: cs => (lengthAt (depth + 1) cs).map (· + 1)
  | _ + 1, [] => none

/-- Length of the rest of a comment after its opening delimiter. -/
def length? (cs : Text) : Option Nat := lengthAt 1 cs

end Modula.Comment

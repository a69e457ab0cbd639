import Modula.Text
/-!
# Spans and places

  Where a piece of the source stands is told in two ways:

  * a `Span` is the half-open range of bytes that the piece covers.  Spans are joined (`Span.join`)
    when a phrase is put together from its parts;
  * a `Place` is one point of the source, read off by walking over the text before it
    (`Place.advance`): an offset, a line and a column.  Lines and columns count from 1, columns
    count bytes, and only a line feed ends a line.
-/

namespace Modula

/-! ## Ranges of bytes -/

/-- The bytes from `start` up to, and without, `stop`. -/
structure Span where
  start : Nat
  stop : Nat
deriving DecidableEq, Repr, Inhabited

namespace Span

/-- The smallest span that covers both. -/
def join (a b : Span) : Span := ⟨min a.start b.start, max a.stop b.stop⟩

/-- Number of bytes covered. -/
def length (s : Span) : Nat := s.stop - s.start

/-- Whether nothing is covered. -/
def isEmpty (s : Span) : Bool := s.start == s.stop

/-- The source text under the span, empty when the span does not lie on whole characters of the
source. -/
def text (s : Span) (source : Text) : Text := (source.slice? s.start s.stop).getD []

theorem join_assoc (a b c : Span) : (a.join b).join c = a.join (b.join c) := by
  simp [join, Nat.min_assoc, Nat.max_assoc]

theorem join_comm (a b : Span) : a.join b = b.join a := by
  simp [join, Nat.min_comm, Nat.max_comm]

@[simp] theorem join_self (a : Span) : a.join a = a := by
  simp [join]

end Span

/-! ## Points of the source -/

/-- A point of the source: the bytes before it, its line and its byte column, both from 1. -/
structure Place where
  offset : Nat
  line : Nat
  column : Nat
deriving DecidableEq, Repr

namespace Place

/-- Where every source begins. -/
def origin : Place := ⟨0, 1, 1⟩

/-- The place just after a character. -/
def step (p : Place) (c : Char) : Place :=
  if c = '\n' then ⟨p.offset + c.utf8Size, p.line + 1, 1⟩
  else ⟨p.offset + c.utf8Size, p.line, p.column + c.utf8Size⟩

/-- The place just after a text. -/
def advance (p : Place) (text : Text) : Place := text.foldl step p

@[simp] theorem advance_nil (p : Place) : p.advance [] = p := rfl

@[simp] theorem advance_cons (p : Place) (c : Char) (cs : Text) :
    p.advance (c :: cs) = (p.step c).advance cs := rfl

@[simp] theorem advance_append (p : Place) (a b : Text) :
    p.advance (a ++ b) = (p.advance a).advance b := List.foldl_append

/-- Walking over a text adds its bytes to the offset. -/
@[simp] theorem offset_advance (p : Place) (text : Text) :
    (p.advance text).offset = p.offset + text.byteLength := by
  induction text generalizing p with
  | nil => simp
  | cons c cs ih =>
    have h : (p.step c).offset = p.offset + c.utf8Size := by unfold step; split <;> rfl
    simp [ih, h, Nat.add_assoc]

end Place

end Modula

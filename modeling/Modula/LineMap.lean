import Modula.Span
/-!
# Line maps

  A line map is the table of the offsets at which the lines of a source begin.  It answers in two
  directions:

  * `LineMap.place` — from an offset to its line and column: the line is the last one that begins
    at or before the offset, and an offset past the end counts on in the last line;
  * `LineMap.lineText?` — from a line number to the text of that line, without its line feed and
    without one carriage return before it.

  The table holds 32-bit offsets, so an offset is reduced modulo 2³² before it is looked up.  Lines are
  counted in 32 bits as well (`LineMap.lineCount`).
-/

namespace Modula

/-- The offsets, after `offset`, at which the lines of a text begin. -/
def Text.lineStartsFrom (offset : Nat) : Text → List Nat
  | [] => []
  | c :: cs =>
    let after := offset + c.utf8Size
    if c = '\n' then after :: lineStartsFrom after cs else lineStartsFrom after cs

/-- A source with the offsets at which its lines begin.  Line 1 begins at 0, so the table is kept
without it. -/
structure LineMap where
  source : Text
  laterStarts : List Nat
deriving Repr

namespace LineMap

/-- Offsets below this bound, which is 2³², are told apart. -/
def offsetBound : Nat := 4294967296

/-- The line map of a source. -/
def ofText (source : Text) : LineMap := ⟨source, source.lineStartsFrom 0⟩

/-- All line starts, in rising order. -/
def lineStarts (m : LineMap) : List Nat := 0 :: m.laterStarts

/-- How many lines there are, as far as a word of 32 bits tells; a final line feed opens one more, empty
line. -/
def lineCount (m : LineMap) : Nat := m.lineStarts.length % offsetBound

/-- The line, with its start, that an offset below the bound belongs to. -/
def locate (offset : Nat) : (line start : Nat) → List Nat → Nat × Nat
  | line, start, [] => (line, start)
  | line, start, next :: later =>
    if next ≤ offset then locate offset (line + 1) next later else (line, start)

/-- The place of an offset. -/
def place (m : LineMap) (offset : Nat) : Place :=
  let reduced := offset % offsetBound
  let (line, start) := locate reduced 1 0 m.laterStarts
  ⟨offset, line, reduced - start + 1⟩

/-- A line loses one carriage return at its end. -/
def dropReturn (line : Text) : Text :=
  if line.getLast? = some '\r' then line.dropLast else line

/-- The text of a line, counted from 1. -/
def lineText? (m : LineMap) (line : Nat) : Option Text :=
  match m.lineStarts.drop (line - 1) with
  | [] => none
  | start :: later =>
    if line = 0 then none
    else
      let stop := match later with
        | [] => m.source.byteLength
        | next :: _ => next - 1
      (m.source.slice? start stop).map dropReturn

end LineMap

end Modula

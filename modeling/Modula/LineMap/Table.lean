import Modula.LineMap
/-!
# Line tables

  The line map as it is kept for many questions: a table with the offset at which each line begins, in
  words of 32 bits, which is searched by halving.

  * `LineTable.search` — the index of a word in a table in rising order, or the index where it would have
    to be put in;
  * `LineTable.lineColumn?` — the line and the column of an offset.  A word that is found is the beginning
    of a line, and otherwise the line begins at the word in front.  There is no answer where a step has
    none: an index beyond the table, or a word that is too small or too large;
  * `LineTable.lineText?` — the text of a line.  It is cut out up to the line feed in front of the next
    line, or up to the end of the source;
  * `LineTable.lineCount` — the number of lines, in a word.

  The answers are those of the line map (`LineMap.place`, `LineMap.lineText?`, `LineMap.lineCount`).
-/

namespace Modula

/-- The offsets at which the lines of a source begin, in rising order. -/
structure LineTable where
  starts : Array UInt32
deriving Repr

namespace LineTable

/-- The offsets behind the line feeds of some bytes; the first of the bytes stands at `offset`. -/
def behindFeeds (offset : Nat) (bytes : List UInt8) : List Nat :=
  ((bytes.zipIdx offset).filter fun b => b.1 == '\n'.toUInt8).map fun b => b.2 + 1

/-- The table of a source, of which the bytes are given. -/
def ofBytes (bytes : List UInt8) : LineTable := ⟨(0 :: (behindFeeds 0 bytes).map Nat.toUInt32).toArray⟩

/-- Looks for a word from one index up to another. -/
def searchFrom (words : Array UInt32) (wanted : UInt32) (low high : Nat) (h : high ≤ words.size) :
    Except Nat Nat :=
  if hlow : low < high then
    let middle := (low + high) / 2
    if words[middle] = wanted then .ok middle
    else if words[middle] < wanted then searchFrom words wanted (middle + 1) high h
    else searchFrom words wanted low middle (by omega)
  else .error low
termination_by high - low

/-- Where a word stands, or else where it would have to be put in. -/
def search (words : Array UInt32) (wanted : UInt32) : Except Nat Nat :=
  searchFrom words wanted 0 words.size (Nat.le_refl _)

/-- The difference of two words, unless it is negative. -/
def sub? (a b : UInt32) : Option UInt32 := if b ≤ a then some (a - b) else none

/-- The word after a word, unless it is the last one. -/
def next? (a : UInt32) : Option UInt32 :=
  if a.toNat + 1 < LineMap.offsetBound then some (a + 1) else none

/-- The index of the line that an offset is in. -/
def lineIndex (t : LineTable) (offset : UInt32) : Nat :=
  match search t.starts offset with
  | .ok found => found
  | .error place => place - 1

/-- The line and the column of an offset, both from 1. -/
def lineColumn? (t : LineTable) (offset : Nat) : Option (UInt32 × UInt32) := do
  let word := offset.toUInt32
  let index := t.lineIndex word
  let start ← t.starts[index]?
  let column ← next? (← sub? word start)
  return ((index + 1).toUInt32, column)

/-- The text of a line of the source, counted from 1. -/
def lineText? (t : LineTable) (source : Text) (line : UInt32) : Option Text := do
  let index ← if line.toNat = 0 then none else some (line.toNat - 1)
  let start ← t.starts[index]?
  let stop := match t.starts[index + 1]? with
    | some next => next.toNat - 1
    | none => source.byteLength
  (source.slice? start.toNat stop).map LineMap.dropReturn

/-- How many lines there are, in a word. -/
def lineCount (t : LineTable) : UInt32 := t.starts.size.toUInt32

end LineTable

end Modula

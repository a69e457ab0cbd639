import Modula.Proofs.LineMap.Positions
import Modula.Proofs.Place
/-!
# Texts of lines

  Splitting the source at its line feeds gives the texts of its lines, in their order, once a carriage
  return at the end of a piece is dropped (`lineText?_isLine`, `IsLine.getElem?_splitOn`).  It does not
  matter whether characters are split or bytes (`Text.map_bytes_splitOn`), so no character is cut.

  The place of an offset leads back to its byte: the byte stands in the text of the line, in front of as
  many bytes as the column says, unless it is not in the text of any line (`Visible`).
-/

namespace Modula

/-! ## Splitting at line feeds

  The pieces between line feeds are the lines, counted from 0. -/

namespace Text

theorem splitOn_newline (a b : Text) :
    List.splitOn '\n' (a ++ '\n' :: b) = List.splitOn '\n' a ++ List.splitOn '\n' b :=
  List.splitOnP_append_cons a b rfl

theorem length_splitOn (text : Text) : (List.splitOn '\n' text).length = text.count '\n' + 1 := by
  induction text using induction_lines with
  | last line hline =>
    rw [List.splitOn_eq_singleton hline, List.count_eq_zero.2 hline]
    rfl
  | more line behind hline ih =>
    rw [splitOn_newline, List.splitOn_eq_singleton hline, List.length_append, ih, List.count_append,
      List.count_eq_zero.2 hline, List.count_cons_self, List.length_singleton]
    omega

/-- Bytes are split as characters are. -/
theorem map_bytes_splitOn (text : Text) :
    (List.splitOn '\n' text).map bytes = List.splitOn '\n'.toUInt8 text.bytes := by
  -- By induction on the lines, each of which is cut off in front.
  induction text using induction_lines with
  | last line hline =>
    rw [List.splitOn_eq_singleton hline, List.splitOn_eq_singleton (newline_mem_bytes hline)]
    rfl
  | more line behind hline ih =>
    -- A line feed is one byte, and no other character has this byte in it.
    have hsplit : List.splitOn '\n'.toUInt8 (line.bytes ++ '\n'.toUInt8 :: behind.bytes) =
        List.splitOn '\n'.toUInt8 line.bytes ++ List.splitOn '\n'.toUInt8 behind.bytes :=
      List.splitOnP_append_cons _ _ rfl
    have hbytes : Text.bytes (line ++ '\n' :: behind) = line.bytes ++ '\n'.toUInt8 :: behind.bytes :=
      bytes_append line ('\n' :: behind)
    rw [splitOn_newline, List.map_append, ih, hbytes, hsplit, List.splitOn_eq_singleton hline,
      List.splitOn_eq_singleton (newline_mem_bytes hline)]
    rfl

end Text

/-- A line is the piece whose number is that of the line feeds in front of it. -/
theorem IsLine.getElem?_splitOn {source before line after : Text} (h : IsLine source before line after) :
    (List.splitOn '\n' source)[before.count '\n']? = some line := by
  -- What begins with the line has it as its first piece.
  have hfirst : (List.splitOn '\n' (line ++ after))[0]? = some line := by
    rcases h.after_begins with rfl | ⟨behind, rfl⟩
    · rw [List.append_nil, List.splitOn_eq_singleton h.not_mem]
      rfl
    · rw [Text.splitOn_newline, List.splitOn_eq_singleton h.not_mem]
      rfl
  rw [h.source_eq]
  rcases h.before_ends with rfl | ⟨front, rfl⟩
  · exact hfirst
  -- In front of it are as many pieces as there are line feeds.
  · have hcount : (front ++ ['\n']).count '\n' = (List.splitOn '\n' front).length := by
      rw [Text.length_splitOn, List.count_append]
      rfl
    rw [hcount, List.append_assoc, List.singleton_append, Text.splitOn_newline,
      List.getElem?_append_right (Nat.le_refl _), Nat.sub_self]
    exact hfirst

/-! ## The text of a line

  The table is looked up at the number of the line and at the next one. -/

/-- A line without the carriage return that it may end with. -/
def Trims (line text : Text) : Prop :=
  line = text ++ ['\r'] ∨ line = text ∧ line.getLast? ≠ some '\r'

namespace LineMap

theorem trims_dropReturn (line : Text) : Trims line (dropReturn line) := by
  rw [dropReturn]
  split
  · next hlast =>
    refine Or.inl ?_
    obtain ⟨front, rfl⟩ := List.getLast?_eq_some_iff.1 hlast
    rw [List.dropLast_concat]
  · next hlast => exact Or.inr ⟨rfl, hlast⟩

variable {source : Text}

theorem lineText?_isLine {before line after : Text} (h : IsLine source before line after) :
    (ofText source).lineText? (before.count '\n' + 1) = some (dropReturn line) := by
  obtain ⟨front, hfront, hstarts⟩ := h.lineStarts_eq
  -- The table holds the line's start, and behind it the starts of the lines that follow.
  have hdrop : (ofText source).lineStarts.drop (before.count '\n' + 1 - 1) =
      before.byteLength :: after.lineStartsFrom (before.byteLength + line.byteLength) := by
    rw [Nat.add_sub_cancel, hstarts, ← hfront, List.drop_left]
  have hpiece : source.slice? before.byteLength (before.byteLength + line.byteLength) = some line := by
    rw [h.source_eq]
    exact Text.slice?_piece before line after
  rw [lineText?, hdrop]
  dsimp only
  rw [if_neg (Nat.succ_ne_zero _)]
  rcases h.after_begins with rfl | ⟨behind, rfl⟩
  -- The last line ends where the source ends.
  · have hend : (ofText source).source.byteLength = before.byteLength + line.byteLength := by
      show source.byteLength = _
      rw [h.source_eq, List.append_nil, Text.byteLength_append]
    rw [Text.lineStartsFrom]
    dsimp only
    rw [hend]
    exact congrArg _ hpiece
  · rw [Text.lineStartsFrom_newline]
    dsimp only
    rw [Nat.add_sub_cancel]
    exact congrArg _ hpiece

/-- The text of a line is the piece with the number of the line. -/
theorem lineText?_eq_some {n : Nat} (hpos : 1 ≤ n) (hle : n ≤ 1 + source.bytes.count '\n'.toUInt8) :
    ∃ piece text, (List.splitOn '\n' source)[n - 1]? = some piece ∧ Trims piece text ∧
      (ofText source).lineText? n = some text := by
  rw [Text.count_bytes] at hle
  have hfeeds : n - 1 ≤ source.count '\n' := by omega
  obtain ⟨before, line, after, hline, hcount⟩ := exists_isLine_of_lt hfeeds
  have hpiece := hline.getElem?_splitOn
  have htext := lineText?_isLine hline
  rw [hcount] at hpiece
  rw [hcount, Nat.sub_add_cancel hpos] at htext
  exact ⟨line, dropReturn line, hpiece, trims_dropReturn line, htext⟩

/-- There is no line 0, and none behind the last one. -/
theorem lineText?_eq_none {n : Nat} :
    (ofText source).lineText? n = none ↔ n = 0 ∨ 1 + source.bytes.count '\n'.toUInt8 < n := by
  constructor
  · intro hnone
    refine Classical.or_iff_not_imp_left.2 fun hn => Nat.lt_of_not_le fun hle => ?_
    obtain ⟨piece, text, -, -, hsome⟩ := lineText?_eq_some (Nat.pos_of_ne_zero hn) hle
    rw [hnone] at hsome
    cases hsome
  · rintro (rfl | hlt)
    · rfl
    · rw [← length_lineStarts] at hlt
      -- No start is left in the table behind the last line.
      have hdrop : (ofText source).lineStarts.drop (n - 1) = [] :=
        List.drop_eq_nil_of_le (Nat.le_sub_one_of_lt hlt)
      rw [lineText?, hdrop]

/-! ## Bytes of a line

  An offset may be within a character, so what is found in a line is told by bytes. -/

/-- The byte at an offset is neither a line feed nor dropped as a carriage return. -/
structure Visible (bytes : List UInt8) (offset : Nat) (b : UInt8) : Prop where
  byte_at : bytes[offset]? = some b
  ne_newline : b ≠ '\n'.toUInt8
  not_dropped : b = '\r'.toUInt8 →
    bytes[offset + 1]? ≠ some '\n'.toUInt8 ∧ offset + 1 ≠ bytes.length

theorem Visible.offset_lt {source : Text} {offset : Nat} {b : UInt8}
    (h : Visible source.bytes offset b) : offset < source.byteLength := by
  rw [← Text.length_bytes]
  exact (List.getElem?_eq_some_iff.1 h.byte_at).1

end LineMap

namespace IsLine

variable {source before line after : Text} (h : IsLine source before line after) {offset : Nat}

include h

/-- Behind a line the source ends, or there is a line feed. -/
theorem behind_bytes : before.byteLength + line.byteLength = source.bytes.length ∨
    source.bytes[before.byteLength + line.byteLength]? = some '\n'.toUInt8 := by
  have hlength : (before.bytes ++ line.bytes).length = before.byteLength + line.byteLength := by
    rw [List.length_append, Text.length_bytes, Text.length_bytes]
  rw [h.bytes_eq, ← List.append_assoc, ← hlength]
  rcases h.after_begins with rfl | ⟨behind, rfl⟩
  · exact Or.inl (congrArg _ (List.append_nil _)).symm
  · refine Or.inr ?_
    rw [List.getElem?_append_right (Nat.le_refl _), Nat.sub_self]
    rfl

theorem getElem?_bytes (hbefore : before.byteLength ≤ offset)
    (hlt : offset < before.byteLength + line.byteLength) :
    source.bytes[offset]? = line.bytes[offset - before.byteLength]? := by
  rw [h.bytes_eq, List.getElem?_append_right (by rwa [Text.length_bytes]), Text.length_bytes,
    List.getElem?_append_left (by rw [Text.length_bytes]; omega)]

/-- A line feed is not in the line that it ends. -/
theorem lt_of_visible {b : UInt8}
    (hin : offset ≤ before.byteLength + line.byteLength ∨ after = [])
    (hb : LineMap.Visible source.bytes offset b) : offset < before.byteLength + line.byteLength := by
  have hlt := hb.offset_lt
  rcases hin with hle | rfl
  · refine Nat.lt_of_le_of_ne hle fun heq => ?_
    have hbyte := hb.byte_at
    rw [heq] at hbyte hlt
    rcases h.behind_bytes with hend | hfeed
    · exact absurd (hend.trans (Text.length_bytes source)) (Nat.ne_of_lt hlt)
    · rw [hfeed] at hbyte
      exact hb.ne_newline (Option.some.inj hbyte).symm
  · rwa [h.source_eq, List.append_nil, Text.byteLength_append] at hlt

end IsLine

/-- Only a carriage return at the end of a line is missing in its text. -/
theorem Trims.getElem?_bytes {line text : Text} {b : UInt8} {i : Nat} (h : Trims line text)
    (hbyte : line.bytes[i]? = some b) (hkeep : b = '\r'.toUInt8 → i + 1 ≠ line.bytes.length) :
    text.bytes[i]? = some b := by
  rcases h with rfl | ⟨rfl, -⟩
  · have hbytes : Text.bytes (text ++ ['\r']) = text.bytes ++ ['\r'.toUInt8] := Text.bytes_append _ _
    rw [hbytes] at hbyte hkeep
    rw [List.length_append, List.length_singleton] at hkeep
    have hlt := (List.getElem?_eq_some_iff.1 hbyte).1
    rw [List.length_append, List.length_singleton] at hlt
    -- A byte that is not in the trimmed text is the carriage return that was dropped.
    by_cases hi : i < text.bytes.length
    · rwa [List.getElem?_append_left hi] at hbyte
    · have hend : i = text.bytes.length := by omega
      rw [hend, List.getElem?_append_right (Nat.le_refl _), Nat.sub_self] at hbyte
      exact absurd (congrArg (· + 1) hend) (hkeep (Option.some.inj hbyte).symm)
  · exact hbyte

namespace LineMap

variable {source : Text} {offset : Nat} {b : UInt8}

/-- The place of an offset leads back to the byte there. -/
theorem lineText?_place (hsize : source.byteLength < offsetBound) (hb : Visible source.bytes offset b) :
    ∃ text, (ofText source).lineText? ((ofText source).place offset).line = some text ∧
      text.bytes[((ofText source).place offset).column - 1]? = some b := by
  obtain ⟨before, line, after, hline, hbefore, hin⟩ := exists_isLine source offset
  have hlt := hline.lt_of_visible hin hb
  have hbyte := hline.getElem?_bytes hbefore hlt
  rw [hb.byte_at] at hbyte
  rw [place_isLine hline hbefore hin (Nat.lt_trans hb.offset_lt hsize)]
  refine ⟨dropReturn line, lineText?_isLine hline, ?_⟩
  show (dropReturn line).bytes[offset - before.byteLength + 1 - 1]? = some b
  rw [Nat.add_sub_cancel]
  -- A visible carriage return is not the last one of its line, and so it is not dropped.
  refine (trims_dropReturn line).getElem?_bytes hbyte.symm fun hreturn hlast => ?_
  rw [Text.length_bytes] at hlast
  have hnext : offset + 1 = before.byteLength + line.byteLength := by omega
  obtain ⟨hfeed, hend⟩ := hb.not_dropped hreturn
  rw [hnext] at hfeed hend
  rcases hline.behind_bytes with hend' | hfeed'
  · exact hend hend'
  · exact hfeed hfeed'

end LineMap

/-! ## Texts of the table

  The same for the table of words: the line is asked for by a word, and the entries are words. -/

namespace LineTable

variable {source : Text} (hsize : source.byteLength < LineMap.offsetBound)

include hsize

/-- No entry of the table loses by being kept in a word. -/
theorem getElem?_starts (i : Nat) : (ofBytes source.bytes).starts[i]?.map UInt32.toNat =
    (LineMap.ofText source).lineStarts[i]? := by
  rw [starts_ofBytes, List.getElem?_toArray, List.getElem?_map, Option.map_map]
  cases hstart : (LineMap.ofText source).lineStarts[i]? with
  | none => rfl
  | some start =>
    have hle := LineMap.lineStarts_le (List.mem_of_getElem? hstart)
    exact congrArg some (toNat_toUInt32 (Nat.lt_of_le_of_lt hle hsize))

theorem lineText?_ofBytes (n : UInt32) :
    (ofBytes source.bytes).lineText? source n = (LineMap.ofText source).lineText? n.toNat := by
  rw [lineText?, LineMap.lineText?]
  by_cases hn : n.toNat = 0
  · rw [if_pos hn, hn]
    rfl
  · rw [if_neg hn, Option.bind_eq_bind, Option.bind_some]
    dsimp only
    -- The two tables hold the same starts, here that of the line and of the next one.
    have hstart := getElem?_starts hsize (n.toNat - 1)
    have hnext := getElem?_starts hsize (n.toNat - 1 + 1)
    rw [← List.head?_drop] at hstart hnext
    rw [← List.tail_drop] at hnext
    cases hdrop : (LineMap.ofText source).lineStarts.drop (n.toNat - 1) with
    | nil =>
      rw [hdrop] at hstart
      rw [Option.map_eq_none_iff.1 hstart]
      rfl
    | cons start later =>
      rw [hdrop] at hstart hnext
      obtain ⟨word, hword, rfl⟩ := Option.map_eq_some_iff.1 hstart
      rw [hword, Option.bind_eq_bind, Option.bind_some]
      dsimp only
      rw [if_neg hn]
      cases later with
      | nil =>
        rw [Option.map_eq_none_iff.1 hnext]
        rfl
      | cons next later =>
        obtain ⟨word', hword', rfl⟩ := Option.map_eq_some_iff.1 hnext
        rw [hword']
        rfl

end LineTable

/-! ## Splitting and looking up -/

namespace LineMap

variable {source : Text}

/-- The texts of the lines are the pieces of the source, and places lead back to their bytes.  The table
of words gives the same texts.  There is a text for the numbers from 1 up to the number of the lines, as
it is counted in a word if it fits in one. -/
theorem lineTexts_exact (hsize : source.byteLength < offsetBound) :
    (∀ n, (ofText source).lineText? n = none ↔ n = 0 ∨ 1 + source.bytes.count '\n'.toUInt8 < n) ∧
      (∀ n, 1 ≤ n → n ≤ 1 + source.bytes.count '\n'.toUInt8 →
        ∃ piece text, (List.splitOn '\n' source)[n - 1]? = some piece ∧ Trims piece text ∧
          (ofText source).lineText? n = some text) ∧
      (List.splitOn '\n' source).map Text.bytes = List.splitOn '\n'.toUInt8 source.bytes ∧
      (∀ offset b, Visible source.bytes offset b →
        ∃ text, (ofText source).lineText? ((ofText source).place offset).line = some text ∧
          text.bytes[((ofText source).place offset).column - 1]? = some b) ∧
      (∀ n : UInt32, (LineTable.ofBytes source.bytes).lineText? source n =
        (ofText source).lineText? n.toNat) ∧
      (∀ offset b, Visible source.bytes offset b → ∃ line column text,
        (LineTable.ofBytes source.bytes).lineColumn? offset = some (line, column) ∧
          (LineTable.ofBytes source.bytes).lineText? source line = some text ∧
            text.bytes[column.toNat - 1]? = some b) ∧
      (1 + source.bytes.count '\n'.toUInt8 < offsetBound → ∀ n : UInt32,
        (LineTable.ofBytes source.bytes).lineText? source n = none ↔
          n = 0 ∨ (LineTable.ofBytes source.bytes).lineCount < n) ∧
      (1 + source.bytes.count '\n'.toUInt8 < offsetBound ↔ source ≠ allFeeds) := by
  refine ⟨fun n => lineText?_eq_none, fun n => lineText?_eq_some, Text.map_bytes_splitOn source,
    fun offset b => lineText?_place hsize, LineTable.lineText?_ofBytes hsize, ?_, ?_,
    lines_lt_iff hsize⟩
  -- The position that the search by halving finds is the place of the byte.
  · intro offset b hb
    obtain ⟨line, column, hfound, hline, hcolumn⟩ :=
      (positioned hsize (Nat.lt_of_lt_of_le hb.offset_lt (Nat.le_sub_one_of_lt hsize))).halving
    obtain ⟨text, htext, hbyte⟩ := lineText?_place hsize hb
    rw [← hline, ← LineTable.lineText?_ofBytes hsize] at htext
    rw [← hcolumn] at hbyte
    exact ⟨line, column, text, hfound, htext, hbyte⟩
  -- With fewer than 2^32 lines the count is no remainder.
  · intro hlines n
    rw [LineTable.lineText?_ofBytes hsize, lineText?_eq_none, UInt32.lt_iff_toNat_lt,
      LineTable.lineCount_of_lt hlines, ← UInt32.toNat_inj]
    rfl

/-- The second byte of a character has a place in the text of its line as well. -/
theorem lineTexts_exact_umlaut : Text.byteLength "ä\r\nb".toList < offsetBound ∧
    (∃ piece text, (List.splitOn '\n' "ä\r\nb".toList)[0]? = some piece ∧ Trims piece text ∧
      (ofText "ä\r\nb".toList).lineText? 1 = some text) ∧
    (∃ text, (ofText "ä\r\nb".toList).lineText? ((ofText "ä\r\nb".toList).place 1).line = some text ∧
      text.bytes[((ofText "ä\r\nb".toList).place 1).column - 1]? = some 0xA4) ∧
    ((LineTable.ofBytes (Text.bytes "ä\r\nb".toList)).lineText? "ä\r\nb".toList 3 = none ↔
      (3 : UInt32) = 0 ∨ (LineTable.ofBytes (Text.bytes "ä\r\nb".toList)).lineCount < 3) := by
  have hsize : Text.byteLength "ä\r\nb".toList < offsetBound := by decide +kernel
  obtain ⟨-, hpiece, -, hbyte, -, -, hnone, -⟩ := lineTexts_exact hsize
  have hvisible : Visible (Text.bytes "ä\r\nb".toList) 1 0xA4 := by
    refine ⟨by decide, by decide, fun hreturn => ?_⟩
    cases hreturn
  exact ⟨hsize, hpiece 1 (by decide) (by decide), hbyte 1 0xA4 hvisible, hnone (by decide) 3⟩

/-- With a line feed at every byte the first line has its text, which is empty, although the lines are
counted as none. -/
theorem lineTexts_beyond_count : allFeeds.byteLength < offsetBound ∧
    (LineTable.ofBytes allFeeds.bytes).lineCount = 0 ∧
      (LineTable.ofBytes allFeeds.bytes).lineText? allFeeds 1 = some [] := by
  obtain ⟨behind, hfeeds⟩ : ∃ behind, allFeeds = '\n' :: behind := ⟨_, List.replicate_succ⟩
  have hline : IsLine allFeeds [] [] allFeeds :=
    ⟨rfl, List.not_mem_nil, Or.inl rfl, Or.inr ⟨behind, hfeeds⟩⟩
  refine ⟨byteLength_allFeeds_lt, lineCount_allFeeds, ?_⟩
  rw [LineTable.lineText?_ofBytes byteLength_allFeeds_lt]
  exact lineText?_isLine hline

end LineMap

end Modula

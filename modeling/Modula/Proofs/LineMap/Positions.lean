import Modula.Proofs.LineMap.Count
/-!
# Positions are exact

  The line of an offset is one more than the number of line feeds in front of the offset, and its column
  is counted from the beginning of that line (`StartsLineOf`).  This holds inside of characters and past
  the end of the source as well.

  The line map finds the line by going along its table, a table of words by halving.  Both stop at the
  last line that begins at or before the offset (`locate_of_divides`, `search_eq`), and there is only
  one such line.  The rest follows from what that line is: offsets that grow go down the lines, and to
  the right in one line.

  Lines and columns fit in words of 32 bits, and so does the number of lines if it is below 2³².  In a
  source below 2³² bytes this fails for one source only, which has a line feed at every byte: all its
  offsets have their places, but its lines are counted as none (`lineCount_wraps`).
-/

namespace Modula

/-! ## Line feeds in front of an offset

  How many of them there are is the number of the line, counted from 0. -/

/-- The line that the offset is in begins at `start`: there is a line feed in front of it, unless it is
the first line, and none from there to the offset. -/
structure StartsLineOf (bytes : List UInt8) (offset start : Nat) : Prop where
  le : start ≤ offset
  begins : start = 0 ∨ bytes[start - 1]? = some '\n'.toUInt8
  no_feed : ∀ i, start ≤ i → i < offset → bytes[i]? ≠ some '\n'.toUInt8

namespace IsLine

variable {source before line after : Text} (h : IsLine source before line after) {offset : Nat}
  (hbefore : before.byteLength ≤ offset)
  (hin : offset ≤ before.byteLength + line.byteLength ∨ after = [])

include h

theorem bytes_eq : source.bytes = before.bytes ++ (line.bytes ++ after.bytes) := by
  rw [h.source_eq, Text.bytes_append, Text.bytes_append]

include hbefore hin

/-- In front of an offset in the line are the lines before and a part of the line itself. -/
theorem take_bytes : source.bytes.take offset =
    before.bytes ++ line.bytes.take (offset - before.byteLength) := by
  rw [h.bytes_eq, List.take_append, Text.length_bytes, List.take_of_length_le (by rwa [Text.length_bytes])]
  congr 1
  rcases hin with hle | rfl
  · rw [List.take_append, Text.length_bytes]
    have hzero : offset - before.byteLength - line.byteLength = 0 := by omega
    rw [hzero, List.take_zero, List.append_nil]
  · rw [show Text.bytes [] = [] from rfl, List.append_nil]

theorem count_take_bytes : (source.bytes.take offset).count '\n'.toUInt8 = before.count '\n' := by
  have hnone : '\n'.toUInt8 ∉ line.bytes.take (offset - before.byteLength) :=
    fun hmem => Text.newline_mem_bytes h.not_mem (List.mem_of_mem_take hmem)
  rw [h.take_bytes hbefore hin, List.count_append, List.count_eq_zero.2 hnone, Text.count_bytes]
  rfl

theorem startsLineOf : StartsLineOf source.bytes offset before.byteLength where
  le := hbefore
  begins := by
    rcases h.before_ends with rfl | ⟨front, rfl⟩
    · exact Or.inl rfl
    · refine Or.inr ?_
      have hlength : (front ++ ['\n']).byteLength = front.bytes.length + 1 := by
        rw [Text.byteLength_append, Text.length_bytes]
        rfl
      rw [hlength, Nat.add_sub_cancel, h.bytes_eq, Text.bytes_append, List.append_assoc,
        List.getElem?_append_right (Nat.le_refl _), Nat.sub_self]
      rfl
  no_feed := by
    intro i hi hlt hfeed
    -- A line feed in between would be one in the line itself.
    have htake : (source.bytes.take offset)[i]? = some '\n'.toUInt8 := by
      rw [List.getElem?_take_of_lt hlt, hfeed]
    rw [h.take_bytes hbefore hin, List.getElem?_append_right (by rwa [Text.length_bytes])] at htake
    exact Text.newline_mem_bytes h.not_mem (List.mem_of_mem_take (List.mem_of_getElem? htake))

end IsLine

/-! ## Searching

  Both searches are shown to stop at the entry that divides the table, one going along it and one halving
  it. -/

namespace LineMap

/-- The search passes the lines that begin at or before the offset. -/
theorem locate_append {offset start : Nat} {front later : List Nat} (hfront : ∀ s ∈ front, s ≤ offset)
    (hstart : start ≤ offset) (hlater : ∀ s ∈ later, offset < s) (line first : Nat) :
    locate offset line first (front ++ start :: later) = (line + front.length + 1, start) := by
  induction front generalizing line first with
  | nil =>
    rw [List.nil_append, locate, if_pos hstart]
    exact locate_of_lt hlater _ _
  | cons s front ih =>
    obtain ⟨hs, hfront⟩ := List.forall_mem_cons.1 hfront
    rw [List.cons_append, locate, if_pos hs, ih hfront, List.length_cons, Nat.add_assoc line 1,
      Nat.add_comm 1]

/-- The search ends at the last line that begins at or before the offset. -/
theorem locate_of_divides {offset first start : Nat} {starts front later : List Nat}
    (h : Divides (first :: starts) offset front start later) :
    locate offset 1 first starts = (front.length + 1, start) := by
  obtain ⟨hstarts, hfront, hstart, hlater⟩ := h
  cases front with
  | nil =>
    obtain ⟨rfl, rfl⟩ := List.cons.inj hstarts
    exact locate_of_lt hlater _ _
  | cons s front =>
    obtain ⟨rfl, rfl⟩ : first = s ∧ starts = front ++ start :: later := List.cons.inj hstarts
    have hle : ∀ s' ∈ front, s' ≤ offset :=
      fun s' hs' => Nat.le_of_lt (Nat.lt_of_lt_of_le (hfront s' (List.mem_cons_of_mem _ hs')) hstart)
    rw [locate_append hle hstart hlater, List.length_cons, Nat.add_comm 1]

end LineMap

namespace LineTable

/-- What halving relies on: up to some index the words are too small, and behind it too large. -/
structure Parted (words : Array UInt32) (wanted : UInt32) (index : Nat) : Prop where
  lt_size : index < words.size
  lt_wanted : ∀ j (_ : j < words.size), j < index → words[j] < wanted
  le_wanted : words[index] ≤ wanted
  wanted_lt : ∀ j (_ : j < words.size), index < j → wanted < words[j]

variable {words : Array UInt32} {wanted : UInt32} {index : Nat}

section

variable (h : Parted words wanted index) {j : Nat} (hj : j < words.size)

include h

theorem Parted.le_index (hlt : words[j] < wanted) : j ≤ index :=
  Nat.le_of_not_lt fun hbehind => UInt32.lt_irrefl _ (UInt32.lt_trans hlt (h.wanted_lt j hj hbehind))

theorem Parted.index_lt (hne : words[j] ≠ wanted) (hlt : ¬ words[j] < wanted) : index < j := by
  refine Nat.lt_of_not_le fun hle => hlt ?_
  rcases Nat.lt_or_eq_of_le hle with hfront | rfl
  · exact h.lt_wanted j hj hfront
  · exact UInt32.lt_of_le_of_ne h.le_wanted hne

/-- Only at the index itself the word can be found. -/
theorem Parted.eq_index (heq : words[j] = wanted) : j = index := by
  refine Nat.le_antisymm (Nat.le_of_not_lt fun hbehind => ?_) (Nat.le_of_not_lt fun hfront => ?_)
  · exact UInt32.lt_irrefl _ (heq ▸ h.wanted_lt j hj hbehind)
  · exact UInt32.lt_irrefl _ (heq ▸ h.lt_wanted j hj hfront)

end

/-- Halving keeps the index between its bounds, or right below the lower one. -/
theorem searchFrom_eq (h : Parted words wanted index) (low high : Nat) (hhigh : high ≤ words.size)
    (hle : low ≤ index + 1) (hlt : index < high) (hfound : words[index]? = some wanted → low ≤ index) :
    searchFrom words wanted low high hhigh =
      if words[index]? = some wanted then .ok index else .error (index + 1) := by
  -- By induction on the search: the index that is looked for stays between its bounds.
  fun_induction searchFrom words wanted low high hhigh with
  | case1 low high hhigh hlow middle hmiddle =>
    -- The offset is the start of a line, so the search hits it.
    obtain rfl : middle = index := h.eq_index _ hmiddle
    rw [if_pos (Array.getElem?_eq_some_iff.2 ⟨_, hmiddle⟩)]
  | case2 low high hhigh hlow middle hmiddle hsmall ih =>
    have hmle : middle ≤ index := h.le_index _ hsmall
    refine ih (Nat.succ_le_succ hmle) hlt fun heq => Nat.lt_of_le_of_ne hmle ?_
    rintro rfl
    exact hmiddle (Array.getElem?_eq_some_iff.1 heq).2
  | case3 low high hhigh hlow middle hmiddle hsmall ih =>
    exact ih hle (h.index_lt _ hmiddle hsmall) hfound
  | case4 low high hhigh hlow =>
    -- The bounds have met behind the index, so the offset is not the start of a line.
    have hlow' : low = index + 1 := by omega
    have hnone : words[index]? ≠ some wanted := by
      intro heq
      have hle' := hfound heq
      omega
    rw [if_neg hnone, hlow']

theorem search_eq (h : Parted words wanted index) : search words wanted =
    if words[index]? = some wanted then .ok index else .error (index + 1) :=
  searchFrom_eq h 0 words.size (Nat.le_refl _) (Nat.zero_le _) h.lt_size fun _ => Nat.zero_le _

/-! ## The table of a source

  The table is kept in words.  As all offsets are less than 2^32, the words divide as the numbers do. -/

/-- A table in words is divided as the table in numbers. -/
theorem parted_of_divides {starts front later : List Nat} {offset start : Nat}
    (h : Divides starts offset front start later) (hbound : ∀ s ∈ starts, s < LineMap.offsetBound)
    (hoffset : offset < LineMap.offsetBound) :
    Parted (starts.map Nat.toUInt32).toArray offset.toUInt32 front.length := by
  obtain ⟨rfl, hfront, hstart, hlater⟩ := h
  have hlength : ((front ++ start :: later).map Nat.toUInt32).toArray.size =
      (front ++ start :: later).length := by
    rw [List.size_toArray, List.length_map]
  -- Starts are less than 2^32, so words compare as numbers do.
  have hword : ∀ j (_ : j < ((front ++ start :: later).map Nat.toUInt32).toArray.size)
      (_ : j < (front ++ start :: later).length),
      (((front ++ start :: later).map Nat.toUInt32).toArray[j]).toNat = (front ++ start :: later)[j] := by
    intro j _ _
    rw [List.getElem_toArray, List.getElem_map]
    exact toNat_toUInt32 (hbound _ (List.getElem_mem _))
  constructor
  case lt_size => simp
  case lt_wanted =>
    intro j hj hlt
    have hj' := hlength ▸ hj
    have hmem : (front ++ start :: later)[j] ∈ front := by
      rw [List.getElem_append_left hlt]
      exact List.getElem_mem hlt
    rw [UInt32.lt_iff_toNat_lt, hword j hj hj', toNat_toUInt32 hoffset]
    exact Nat.lt_of_lt_of_le (hfront _ hmem) hstart
  case le_wanted =>
    rw [UInt32.le_iff_toNat_le, hword _ _ (by simp), toNat_toUInt32 hoffset]
    simpa using hstart
  case wanted_lt =>
    intro j hj hlt
    have hj' := hlength ▸ hj
    have hmem : (front ++ start :: later)[j] ∈ later := by
      rw [List.getElem_append_right (Nat.le_of_lt hlt), List.getElem_cons, dif_neg (by omega)]
      exact List.getElem_mem _
    rw [UInt32.lt_iff_toNat_lt, hword j hj hj', toNat_toUInt32 hoffset]
    exact hlater _ hmem

/-- The line that halving finds is the last one that begins at or before the offset.  Only a column may
be too large for a word. -/
theorem lineColumn?_eq {starts front later : List Nat} {offset start : Nat}
    (h : Divides starts offset front start later) (hbound : ∀ s ∈ starts, s < LineMap.offsetBound)
    (hoffset : offset < LineMap.offsetBound) (hcolumn : offset - start + 1 < LineMap.offsetBound) :
    lineColumn? ⟨(starts.map Nat.toUInt32).toArray⟩ offset =
      some ((front.length + 1).toUInt32, (offset - start + 1).toUInt32) := by
  have hstart' : start < LineMap.offsetBound := Nat.lt_of_le_of_lt h.start_le hoffset
  have hparted := parted_of_divides h hbound hoffset
  -- Whether the search hits a start or not, the line is the last one that begins in front.
  have hindex : lineIndex ⟨(starts.map Nat.toUInt32).toArray⟩ offset.toUInt32 = front.length := by
    rw [lineIndex, search_eq hparted]
    split_ifs <;> rfl
  have hstart : (starts.map Nat.toUInt32).toArray[front.length]? = some start.toUInt32 := by
    rw [h.starts_eq]
    simp
  -- No step fails: the start is not behind the offset, and the column is a word.
  have hsub : sub? offset.toUInt32 start.toUInt32 = some (offset - start).toUInt32 := by
    have hle : start.toUInt32 ≤ offset.toUInt32 := by
      rw [UInt32.le_iff_toNat_le, toNat_toUInt32 hoffset, toNat_toUInt32 hstart']
      exact h.start_le
    rw [sub?, if_pos hle]
    refine congrArg some (UInt32.toNat_inj.1 ?_)
    rw [UInt32.toNat_sub_of_le _ _ hle, toNat_toUInt32 hoffset, toNat_toUInt32 hstart',
      toNat_toUInt32 (Nat.lt_of_le_of_lt (Nat.sub_le _ _) hoffset)]
  have hnext : next? (offset - start).toUInt32 = some (offset - start + 1).toUInt32 := by
    rw [next?, toNat_toUInt32 (Nat.lt_of_succ_lt hcolumn), if_pos hcolumn]
    exact congrArg some (UInt32.ofNat_add _ _).symm
  rw [lineColumn?, hindex]
  dsimp only
  rw [hstart, Option.bind_eq_bind, Option.bind_some, hsub, Option.bind_some, hnext]
  rfl

end LineTable

/-! ## Positions

  Put together: the answer for an offset is the number of its line and the distance from where the line
  begins. -/

/-- Places in the order of a source: line by line, and from left to right in a line. -/
def Place.Precedes (p q : Place) : Prop := p.line < q.line ∨ p.line = q.line ∧ p.column < q.column

theorem Place.Precedes.ne {p q : Place} (h : p.Precedes q) : p.line ≠ q.line ∨ p.column ≠ q.column := by
  rcases h with hline | ⟨-, hcolumn⟩
  · exact Or.inl (Nat.ne_of_lt hline)
  · exact Or.inr (Nat.ne_of_lt hcolumn)

namespace LineMap

variable {source : Text} {offset start : Nat} {front later : List Nat}

theorem lineStarts_le {s : Nat} (hs : s ∈ (ofText source).lineStarts) : s ≤ source.byteLength := by
  rcases List.mem_cons.1 hs with rfl | hs
  · exact Nat.zero_le _
  · have hle := Text.le_of_mem_lineStartsFrom hs
    rwa [Nat.zero_add] at hle

theorem place_of_divides (h : Divides (ofText source).lineStarts offset front start later)
    (hoffset : offset < offsetBound) :
    (ofText source).place offset = ⟨offset, front.length + 1, offset - start + 1⟩ := by
  have hlocate : locate offset 1 0 (ofText source).laterStarts = (front.length + 1, start) :=
    locate_of_divides h
  rw [place, Nat.mod_eq_of_lt hoffset, hlocate]

/-- An offset is in the line behind the line feeds in front of it. -/
theorem place_isLine {before line after : Text} (h : IsLine source before line after)
    (hbefore : before.byteLength ≤ offset) (hin : offset ≤ before.byteLength + line.byteLength ∨ after = [])
    (hoffset : offset < offsetBound) : (ofText source).place offset =
      ⟨offset, before.count '\n' + 1, offset - before.byteLength + 1⟩ := by
  obtain ⟨front, hfront, hdivides⟩ := h.divides hbefore hin
  rw [place_of_divides hdivides hoffset, hfront]

/-- No place is below the last line. -/
theorem line_place_le (hoffset : offset < offsetBound) :
    ((ofText source).place offset).line ≤ 1 + source.bytes.count '\n'.toUInt8 := by
  obtain ⟨before, line, after, hline, hbefore, hin⟩ := exists_isLine source offset
  rw [place_isLine hline hbefore hin hoffset, ← hline.count_take_bytes hbefore hin, Nat.add_comm]
  exact Nat.add_le_add_left ((List.take_sublist _ _).count_le _) _

/-- A line begins at the beginning of the source, or behind it. -/
theorem column_place_le (m : LineMap) (offset : Nat) : (m.place offset).column ≤ offset + 1 :=
  Nat.succ_le_succ (Nat.le_trans (Nat.sub_le _ _) (Nat.mod_le _ _))

/-- Halving leads to the place that the line map gives, in words, unless the column is too large for
one. -/
theorem lineColumn?_place (hsize : source.byteLength < offsetBound) (hoffset : offset < offsetBound)
    (hcolumn : ((ofText source).place offset).column < offsetBound) :
    (LineTable.ofBytes source.bytes).lineColumn? offset =
      some (((ofText source).place offset).line.toUInt32,
        ((ofText source).place offset).column.toUInt32) := by
  obtain ⟨before, line, after, hline, hbefore, hin⟩ := exists_isLine source offset
  obtain ⟨front, -, hdivides⟩ := hline.divides hbefore hin
  have hbound : ∀ s ∈ (ofText source).lineStarts, s < offsetBound :=
    fun s hs => Nat.lt_of_le_of_lt (lineStarts_le hs) hsize
  rw [place_of_divides hdivides hoffset] at hcolumn ⊢
  have hfound := LineTable.lineColumn?_eq hdivides hbound hoffset hcolumn
  rwa [← LineTable.starts_ofBytes] at hfound

/-- What is right about the answers for one offset. -/
structure Positioned (source : Text) (offset : Nat) : Prop where
  line_eq : ((ofText source).place offset).line =
    1 + (source.bytes.take (min offset source.byteLength)).count '\n'.toUInt8
  column_eq : ∃ start, StartsLineOf source.bytes offset start ∧
    ((ofText source).place offset).column = offset - start + 1
  line_pos : 1 ≤ ((ofText source).place offset).line
  line_le : ((ofText source).place offset).line ≤ 1 + source.bytes.count '\n'.toUInt8
  column_pos : 1 ≤ ((ofText source).place offset).column
  /-- Halving gives an answer as well, and the same one. -/
  halving : ∃ line column, (LineTable.ofBytes source.bytes).lineColumn? offset = some (line, column) ∧
    line.toNat = ((ofText source).place offset).line ∧
      column.toNat = ((ofText source).place offset).column

theorem positioned (hsize : source.byteLength < offsetBound) (hoffset : offset < offsetBound - 1) :
    Positioned source offset := by
  have hoffset' : offset < offsetBound := Nat.lt_of_lt_of_le hoffset (Nat.sub_le _ _)
  obtain ⟨before, line, after, hline, hbefore, hin⟩ := exists_isLine source offset
  have hplace := place_isLine hline hbefore hin hoffset'
  have hcount := hline.count_take_bytes hbefore hin
  have hfeeds : (source.bytes.take offset).count '\n'.toUInt8 ≤ offset :=
    Nat.le_trans List.count_le_length (List.length_take_le _ _)
  constructor
  case line_eq =>
    have hmin : source.bytes.take (min offset source.byteLength) = source.bytes.take offset := by
      rw [← Text.length_bytes source, ← List.take_eq_take_min]
    rw [hplace, hmin, hcount, Nat.add_comm]
  case column_eq => exact ⟨before.byteLength, hline.startsLineOf hbefore hin, by rw [hplace]⟩
  case line_pos =>
    rw [hplace]
    exact Nat.succ_pos _
  case line_le => exact line_place_le hoffset'
  case column_pos =>
    rw [hplace]
    exact Nat.succ_pos _
  case halving =>
    -- neither of the two goes beyond one more than the offset
    have hline' : ((ofText source).place offset).line < offsetBound := by
      rw [hplace]
      show before.count '\n' + 1 < offsetBound
      omega
    have hcolumn' : ((ofText source).place offset).column < offsetBound :=
      Nat.lt_of_le_of_lt (column_place_le _ _) (Nat.succ_lt_of_lt_pred hoffset)
    exact ⟨_, _, lineColumn?_place hsize hoffset' hcolumn', LineTable.toNat_toUInt32 hline',
      LineTable.toNat_toUInt32 hcolumn'⟩

/-- A later offset is in a later line, or further to the right. -/
theorem place_precedes {a b : Nat} (hab : a < b) (hb : b < offsetBound) :
    ((ofText source).place a).Precedes ((ofText source).place b) := by
  obtain ⟨before, line, after, hline, hbefore, hin⟩ := exists_isLine source a
  obtain ⟨before', line', after', hline', hbefore', hin'⟩ := exists_isLine source b
  obtain ⟨front, hfront, hdivides⟩ := hline.divides hbefore hin
  obtain ⟨front', hfront', hdivides'⟩ := hline'.divides hbefore' hin'
  -- In front of the greater offset there are at least as many line feeds.
  have hle : front.length ≤ front'.length := by
    rw [hfront, hfront', ← hline.count_take_bytes hbefore hin, ← hline'.count_take_bytes hbefore' hin']
    exact ((List.take_prefix_take_left (Nat.le_of_lt hab)).sublist).count_le _
  rw [place_of_divides hdivides (Nat.lt_trans hab hb), place_of_divides hdivides' hb]
  rcases Nat.lt_or_eq_of_le hle with hlt | heq
  · exact Or.inl (Nat.succ_lt_succ hlt)
  · -- as many lines begin before, so it is the same line
    obtain ⟨-, htail⟩ := List.append_inj (hdivides.starts_eq.symm.trans hdivides'.starts_eq) heq
    have hstart : before.byteLength = before'.byteLength := (List.cons.inj htail).1
    refine Or.inr ⟨congrArg (· + 1) heq, ?_⟩
    show a - before.byteLength + 1 < b - before'.byteLength + 1
    omega

/-- The lines and columns of a source are those that counting gives, and they tell offsets apart.  The
lines are counted right if their number fits in a word, which it does for all sources below the bound but
one. -/
theorem positions_exact (hsize : source.byteLength < offsetBound) :
    (∀ offset < offsetBound - 1, Positioned source offset) ∧
      (∀ a b, a < b → b < offsetBound - 1 →
        ((ofText source).place a).Precedes ((ofText source).place b)) ∧
      (∀ a b, a < offsetBound - 1 → b < offsetBound - 1 →
        ((ofText source).place a).line = ((ofText source).place b).line →
        ((ofText source).place a).column = ((ofText source).place b).column → a = b) ∧
      (1 + source.bytes.count '\n'.toUInt8 < offsetBound →
        (LineTable.ofBytes source.bytes).lineCount.toNat = 1 + source.bytes.count '\n'.toUInt8 ∧
          ∀ offset < offsetBound - 1, ((ofText source).place offset).line ≤
            (LineTable.ofBytes source.bytes).lineCount.toNat) ∧
      (1 + source.bytes.count '\n'.toUInt8 < offsetBound ↔ source ≠ allFeeds) := by
  have hprecedes : ∀ a b, a < b → b < offsetBound - 1 →
      ((ofText source).place a).Precedes ((ofText source).place b) :=
    fun a b hab hb => place_precedes hab (Nat.lt_of_lt_of_le hb (Nat.sub_le _ _))
  refine ⟨fun offset => positioned hsize, hprecedes, ?_, fun hlines => ?_, lines_lt_iff hsize⟩
  · intro a b ha hb hline hcolumn
    -- Of two different offsets one precedes the other, so their positions differ.
    rcases Nat.lt_trichotomy a b with hab | rfl | hba
    · rcases (hprecedes a b hab hb).ne with hne | hne
      · exact absurd hline hne
      · exact absurd hcolumn hne
    · rfl
    · rcases (hprecedes b a hba ha).ne with hne | hne
      · exact absurd hline.symm hne
      · exact absurd hcolumn.symm hne
  -- The last line is the one with the greatest number, and the count is this number.
  · refine ⟨LineTable.lineCount_of_lt hlines, fun offset hoffset => ?_⟩
    rw [LineTable.lineCount_of_lt hlines]
    exact (positioned hsize hoffset).line_le

/-- A line feed belongs to the line that it ends, and so does the space behind the last line. -/
theorem positions_exact_umlaut : Text.byteLength "ä\nb".toList < offsetBound ∧
    ((ofText "ä\nb".toList).place 2).Precedes ((ofText "ä\nb".toList).place 3) ∧
      Positioned "ä\nb".toList 2 ∧ Positioned "ä\nb".toList 7 ∧
      (LineTable.ofBytes (Text.bytes "ä\nb".toList)).lineCount.toNat = 2 := by
  have hsize : Text.byteLength "ä\nb".toList < offsetBound := by decide +kernel
  obtain ⟨hpositioned, hprecedes, -, hcount, -⟩ := positions_exact hsize
  exact ⟨hsize, hprecedes 2 3 (by decide) (by decide), hpositioned 2 (by decide),
    hpositioned 7 (by decide), (hcount (by decide)).1⟩

/-- With a line feed at every byte there are 2³² lines.  The first of them is found, but the word says
that there is none. -/
theorem lineCount_wraps : allFeeds.byteLength < offsetBound ∧
    1 + allFeeds.bytes.count '\n'.toUInt8 = 4294967296 ∧
      (LineTable.ofBytes allFeeds.bytes).lineCount = 0 ∧
      ∃ line column, (LineTable.ofBytes allFeeds.bytes).lineColumn? 0 = some (line, column) ∧
        (LineTable.ofBytes allFeeds.bytes).lineCount < line := by
  have hoffset : 0 < offsetBound - 1 := by decide
  obtain ⟨-, -, hpos, -, -, line, column, hfound, hline, -⟩ := positioned byteLength_allFeeds_lt hoffset
  refine ⟨byteLength_allFeeds_lt, lines_allFeeds, lineCount_allFeeds, line, column, hfound, ?_⟩
  rw [lineCount_allFeeds, UInt32.lt_iff_toNat_lt, hline]
  exact hpos

end LineMap

end Modula

import Modula.Proofs.Bytes
import Modula.Proofs.Lexer.Gaps
/-!
# Lexical errors are local

  A lexical error claims the bytes that it covers and nothing else.  If these bytes are blanked, a space
  for each of them, except for line feeds, then the source is read without an error, and the tokens are
  exactly those that it had before, down to their lines and columns (`tokenize_blanked`).

      source    a := 'open      ?  :=  1x  +  é  ;  (* open
      blanked   a :=               :=      +     ;

  It has to be said for bytes, since columns are counted in bytes; the text that is read consists of
  characters.  The two meet in the blanking of one piece (`Text.bytes_blank`).

  The pieces of the tiling are what the argument goes along.  A gap stays, a token stays, and the piece
  of an error turns into blanks, which the gap behind it takes up (`Tiled.blanked`).  The token in front
  of an error is read as before, since blanks end it as well.
-/

namespace Modula

/-! ## Bytes -/

/-- A blank in place of a byte; a line feed stays. -/
def blankByte (b : UInt8) : UInt8 := if b = '\n'.toUInt8 then b else ' '.toUInt8

/-- Whether one of the spans covers the byte. -/
def covers (spans : List Span) (offset : Nat) : Bool :=
  spans.any fun s => s.start ≤ offset && offset < s.stop

/-- Bytes that begin at an offset, blanked where one of the spans covers them. -/
def blankedFrom (start : Nat) (spans : List Span) (bytes : List UInt8) : List UInt8 :=
  bytes.mapIdx fun n b => if covers spans (start + n) then blankByte b else b

section

variable {start : Nat} {s : Span} {spans : List Span}

theorem blankedFrom_append (a b : List UInt8) :
    blankedFrom start spans (a ++ b) =
      blankedFrom start spans a ++ blankedFrom (start + a.length) spans b := by
  simp only [blankedFrom, List.mapIdx_append, Nat.add_assoc, Nat.add_comm a.length]

/-- What stands in front of all spans is not blanked. -/
theorem blankedFrom_before {bytes : List UInt8} (h : ∀ s ∈ spans, start + bytes.length ≤ s.start) :
    blankedFrom start spans bytes = bytes := by
  refine List.ext_getElem List.length_mapIdx fun n hn hn' => ?_
  have hnone : covers spans (start + n) = false := by
    refine List.any_eq_false.2 fun s hs => ?_
    have hle := h s hs
    simp only [Bool.and_eq_true, decide_eq_true_eq, not_and]
    omega
  simp only [blankedFrom, List.getElem_mapIdx, hnone, Bool.false_eq_true, if_false]

/-- A span in front of the bytes blanks none of them. -/
theorem blankedFrom_behind {bytes : List UInt8} (h : s.stop ≤ start) :
    blankedFrom start (s :: spans) bytes = blankedFrom start spans bytes := by
  refine List.ext_getElem (by simp only [blankedFrom, List.length_mapIdx]) fun n hn hn' => ?_
  have hnone : covers (s :: spans) (start + n) = covers spans (start + n) := by
    have hout : (s.start ≤ start + n && start + n < s.stop : Bool) = false := by
      simp only [Bool.and_eq_false_iff, decide_eq_false_iff_not]
      omega
    rw [covers, List.any_cons, hout, Bool.false_or, covers]
  simp only [blankedFrom, List.getElem_mapIdx, hnone]

/-- What a span covers is blanked. -/
theorem blankedFrom_inside {bytes : List UInt8} (hstart : s.start ≤ start)
    (hstop : start + bytes.length ≤ s.stop) :
    blankedFrom start (s :: spans) bytes = bytes.map blankByte := by
  refine List.ext_getElem (by simp only [blankedFrom, List.length_mapIdx, List.length_map])
    fun n hn hn' => ?_
  have hn'' : n < bytes.length := by simpa using hn'
  have hall : covers (s :: spans) (start + n) = true := by
    have hin : (s.start ≤ start + n && start + n < s.stop : Bool) = true := by
      simp only [Bool.and_eq_true, decide_eq_true_eq]
      omega
    rw [covers, List.any_cons, hin, Bool.true_or]
  simp only [blankedFrom, List.getElem_mapIdx, hall, if_true, List.getElem_map]

/-- A gap and a token stay as they are. -/
theorem blankedFrom_token {front bytes : List UInt8}
    (h : ∀ s ∈ spans, start + front.length ≤ s.start) :
    blankedFrom start spans (front ++ bytes) =
      front ++ blankedFrom (start + front.length) spans bytes := by
  rw [blankedFrom_append, blankedFrom_before h]

/-- A gap stays, and the error behind it is blanked. -/
theorem blankedFrom_error {gap text bytes : List UInt8} (hstart : s.start = start + gap.length)
    (hstop : s.stop = start + gap.length + text.length) (h : ∀ s' ∈ spans, s.stop ≤ s'.start) :
    blankedFrom start (s :: spans) (gap ++ (text ++ bytes)) =
      gap ++ (text.map blankByte ++ blankedFrom s.stop spans bytes) := by
  have hgap : ∀ s' ∈ s :: spans, start + gap.length ≤ s'.start := by
    refine List.forall_mem_cons.2 ⟨hstart.ge, fun s' hs' => ?_⟩
    have hle := h s' hs'
    omega
  rw [blankedFrom_token hgap, blankedFrom_append, blankedFrom_inside hstart.le hstop.ge, ← hstop,
    blankedFrom_behind (Nat.le_refl _)]

end

/-! ## Blank pieces -/

/-- As many blanks as a character has bytes; a line feed stays. -/
def blankChar (c : Char) : Text := if c = '\n' then [c] else List.replicate c.utf8Size ' '

/-- The text in blanks. -/
def Text.blank (text : Text) : Text := text.flatMap blankChar

theorem bytes_blankChar (c : Char) :
    Text.bytes (blankChar c) = (String.utf8EncodeChar c).map blankByte := by
  unfold blankChar
  split_ifs with hc
  · rw [hc]
    decide
  · have hspaces : ∀ n, Text.bytes (List.replicate n ' ') = List.replicate n ' '.toUInt8 := by
      intro n
      induction n with
      | zero => rfl
      | succ n ih => exact congrArg (' '.toUInt8 :: ·) ih
    -- No byte of another character is a line feed, so all of them are blanked.
    have hblank : (String.utf8EncodeChar c).map blankByte =
        (String.utf8EncodeChar c).map fun _ => ' '.toUInt8 :=
      List.map_congr_left fun b hb => if_neg (ne_newline_of_mem_utf8EncodeChar hc b hb)
    rw [hspaces, hblank, List.map_const', String.length_utf8EncodeChar]

/-- Blanking a text is blanking its bytes. -/
theorem Text.bytes_blank (text : Text) : text.blank.bytes = text.bytes.map blankByte := by
  induction text with
  | nil => rfl
  | cons c cs ih =>
    have hfirst : Text.bytes (c :: cs) = String.utf8EncodeChar c ++ Text.bytes cs := List.flatMap_cons
    rw [blank, List.flatMap_cons, bytes_append, bytes_blankChar, hfirst, List.map_append, ← ih, blank]

theorem isGap_blankChar (c : Char) : IsGap (blankChar c) := by
  have hspaces : ∀ n, IsGap (List.replicate n ' ') := by
    intro n
    induction n with
    | zero => exact .nil
    | succ n ih => exact .blank rfl ih
  unfold blankChar
  split_ifs with hc
  · exact .blank (hc ▸ rfl) .nil
  · exact hspaces _

theorem Text.isGap_blank (text : Text) : IsGap text.blank := by
  induction text with
  | nil => exact .nil
  | cons c cs ih =>
    rw [blank, List.flatMap_cons]
    exact (isGap_blankChar c).append ih

theorem Text.blank_ne_nil {text : Text} (h : text ≠ []) : text.blank ≠ [] := by
  obtain ⟨c, cs, rfl⟩ := List.exists_cons_of_ne_nil h
  have hpos := Char.utf8Size_pos c
  have hfirst : blankChar c ≠ [] := by
    unfold blankChar
    split_ifs
    · exact List.cons_ne_nil _ _
    · rw [Ne, List.replicate_eq_nil_iff]
      omega
  rw [blank, List.flatMap_cons]
  exact fun hnil => hfirst (List.append_eq_nil_iff.1 hnil).1

/-- One gets as far, and as far down, with the blanks. -/
theorem Place.advance_blank (p : Place) (text : Text) : p.advance text.blank = p.advance text := by
  have hspaces : ∀ (n : Nat) (p : Place),
      p.advance (List.replicate n ' ') = ⟨p.offset + n, p.line, p.column + n⟩ := by
    intro n
    induction n with
    | zero => exact fun p => rfl
    | succ n ih =>
      intro p
      have hstep : p.step ' ' = ⟨p.offset + 1, p.line, p.column + 1⟩ := rfl
      rw [List.replicate_succ, advance_cons, ih, hstep]
      simp only [Nat.add_assoc, Nat.add_comm 1 n]
  -- A character leads as far in bytes as its blanks, and a line feed stays one.
  have hchar : ∀ (c : Char) (p : Place), p.advance (blankChar c) = p.step c := by
    intro c p
    unfold blankChar step
    split_ifs with hc
    · rw [hc]
      rfl
    · rw [hspaces]
  induction text generalizing p with
  | nil => rfl
  | cons c cs ih =>
    rw [Text.blank, List.flatMap_cons, advance_append, hchar, advance_cons]
    exact ih (p.step c)

namespace Lexer

/-! ## Blanked tilings -/

theorem errorSpan_start {p : Place} {text : Text} {items : List Item} (h : Tiled p text items) :
    ∀ s ∈ (errorsOf items).map LexError.span, p.offset ≤ s.start := by
  intro s hs
  obtain ⟨e, he, rfl⟩ := List.mem_map.1 hs
  obtain ⟨item, hitem, he⟩ := List.mem_filterMap.1 he
  cases item with
  | ok t => cases he
  | error e' =>
    obtain rfl := Option.some.inj he
    exact h.le_start hitem

/-- A text with its errors blanked is tiled by its tokens alone. -/
theorem Tiled.blanked {p : Place} {text : Text} {items : List Item} (h : Tiled p text items) :
    ∃ blank : Text, blank.bytes =
        blankedFrom p.offset ((errorsOf items).map LexError.span) text.bytes ∧
      StopsLike text blank ∧ p.advance blank = p.advance text ∧
      Tiled p blank ((tokensOf items).map .ok) := by
  induction h with
  | @last p gap hgap =>
    exact ⟨gap, (blankedFrom_before fun s hs => absurd hs List.not_mem_nil).symm, .refl gap, rfl,
      .last hgap⟩
  | @piece p gap text rest item items hgap hstands htiled ih =>
    obtain ⟨blank, hbytes, hstops, hplace, hblank⟩ := ih
    have hspan := hstands.span_eq
    have hbehind := errorSpan_start htiled
    simp only [Place.offset_advance, ← Text.length_bytes, Text.bytes_append] at hbytes hspan hbehind
    cases item with
    | ok t =>
      -- the piece stays, and what is behind it ends it still
      refine ⟨gap ++ (text ++ blank), ?_, stopsLike_gap hgap (stopsLike_token hstands _), ?_,
        .piece hgap (Item.Stands.congr hstands hstops) hblank⟩
      · have htoken := @blankedFrom_token _ _ _ rest.bytes hbehind
        rw [← hbytes, List.append_assoc, List.append_assoc] at htoken
        simp only [Text.bytes_append]
        exact htoken.symm
      · rw [← List.append_assoc, Place.advance_append, hplace, ← Place.advance_append,
          List.append_assoc]
    | error e =>
      -- the piece turns into a gap, with the gaps on both sides of it
      have hspan : e.span =
        ⟨p.offset + gap.bytes.length, p.offset + gap.bytes.length + text.bytes.length⟩ := hspan
      have hstop : e.span.stop = p.offset + (gap.bytes ++ text.bytes).length := by
        rw [hspan, List.length_append, Nat.add_assoc]
      have hplace' : p.advance (gap ++ text.blank) = p.advance (gap ++ text) := by
        rw [Place.advance_append, Place.advance_append, Place.advance_blank]
      refine ⟨gap ++ (text.blank ++ blank), ?_, stopsLike_gap hgap ?_, ?_, ?_⟩
      · simp only [Text.bytes_append, errorsOf_error, List.map_cons]
        rw [blankedFrom_error (by rw [hspan]) (by rw [hspan]) (hstop ▸ hbehind), hstop, ← hbytes,
          Text.bytes_blank]
      · exact .of_gap text.isGap_blank (Text.blank_ne_nil hstands.ne_nil) _ _
      · rw [← List.append_assoc, Place.advance_append, hplace', hplace, ← Place.advance_append,
          List.append_assoc]
      · rw [← List.append_assoc]
        exact Tiled.behind_gap (hgap.append text.isGap_blank) (hplace' ▸ hblank)

end Lexer

/-- Lexical errors are local: if a source has fewer of them than it takes to stop, then the source with
all of them blanked is read without an error as exactly the same tokens. -/
theorem tokenize_blanked (source : String)
    (h : (tokenize source).errors.length < Lexer.errorLimit) :
    ∃ blanked : String,
      blanked.toUTF8.data.toList =
        blankedFrom 0 ((tokenize source).errors.map LexError.span) source.toUTF8.data.toList ∧
      tokenize blanked = ⟨(tokenize source).tokens, []⟩ := by
  -- Since the run was not stopped by the limit, the items are all that is in the text.
  obtain ⟨items, hfound, htiled⟩ := Lexer.tokenizeFrom_items (Nat.le_of_lt_succ h)
  have hread : tokenize source =
      ⟨tokensOf items ++ [Lexer.eofAt (Place.origin.advance source.toList)], errorsOf items⟩ :=
    hfound.trans (by rw [Lexer.endToken_eq]; rfl)
  obtain ⟨blank, hbytes, -, hplace, hblank⟩ := htiled.blanked
  have hplace : Place.origin.advance blank = Place.origin.advance source.toList := hplace
  refine ⟨String.ofList blank, ?_, ?_⟩
  · have hsource := Text.toUTF8_ofList source.toList
    rw [String.ofList_toList] at hsource
    rw [Text.toUTF8_ofList, hsource, hread, hbytes]
    rfl
  -- The blanked text is tiled by the tokens alone, and no error is left in it.
  · have hnew := hblank.tokenizes (Lexer.errorLimit - 1)
    rw [show (Lexer.ofText source.toList).place = .origin from rfl, hplace] at hnew
    rw [hread, tokenize, String.toList_ofList]
    exact hnew

/-- An open string, a broken number, a character of two bytes and an open comment. -/
theorem tokenize_blanked_open :
    (tokenize "a'b\n1x é(*").errors.length < Lexer.errorLimit ∧ ∃ blanked : String,
      blanked.toUTF8.data.toList = Text.bytes "a  \n       ".toList ∧
      tokenize blanked = ⟨[⟨.name "a", ⟨0, 1⟩, 1, 1⟩, ⟨.eof, ⟨11, 11⟩, 2, 8⟩], []⟩ := by
  have hsource : tokenize "a'b\n1x é(*" =
      ⟨[⟨.name "a", ⟨0, 1⟩, 1, 1⟩, ⟨.eof, ⟨11, 11⟩, 2, 8⟩],
        [⟨.unterminatedString, ⟨1, 3⟩, 1, 2⟩, ⟨.malformedNumber "1x", ⟨4, 6⟩, 2, 1⟩,
          ⟨.invalidCharacter 'é', ⟨7, 9⟩, 2, 4⟩, ⟨.unterminatedComment, ⟨9, 11⟩, 2, 6⟩]⟩ := by
    decide +kernel
  have hfew : (tokenize "a'b\n1x é(*").errors.length < Lexer.errorLimit := by
    rw [hsource]
    decide
  obtain ⟨blanked, hbytes, hread⟩ := tokenize_blanked "a'b\n1x é(*" hfew
  have hsourceBytes := Text.toUTF8_ofList "a'b\n1x é(*".toList
  rw [String.ofList_toList] at hsourceBytes
  refine ⟨hfew, blanked, ?_, by rw [hread, hsource]⟩
  rw [hbytes, hsourceBytes, hsource]
  decide +kernel

end Modula

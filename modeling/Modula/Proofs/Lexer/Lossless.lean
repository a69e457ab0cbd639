import Modula.Proofs.Lexer.Items
import Modula.Proofs.Place
/-!
# Nothing of a source is lost

  The items of a source tell all there is to tell about it, up to blanks, comments and what cannot be
  read.  Each covers some whole characters of the source; they come in order and do not overlap; what
  none of them covers is a gap; and what a token covers is a spelling of it (`Lossless`).  Lines and
  columns are what one finds by counting from the beginning of the source.

  All of it is read off the way in which the pulls take a source apart.  The invariant of the pulls is
  that the place of the lexer is the place after the text before it.
-/

namespace Modula

namespace Item

/-- The bytes that the item covers. -/
def span : Item → Span
  | .ok t => t.span
  | .error e => e.span

/-- The line of its first byte. -/
def line : Item → Nat
  | .ok t => t.line
  | .error e => e.line

/-- The column of its first byte. -/
def column : Item → Nat
  | .ok t => t.column
  | .error e => e.column

end Item

/-- The tokens among items. -/
def tokensOf (items : List Item) : List Token := items.filterMap Except.toOption

/-- The error in an item. -/
def Item.error? : Item → Option LexError
  | .ok _ => none
  | .error e => some e

/-- The errors among items. -/
def errorsOf (items : List Item) : List LexError := items.filterMap Item.error?

theorem tokensOf_ok (t : Token) (items : List Item) : tokensOf (.ok t :: items) = t :: tokensOf items :=
  rfl

theorem errorsOf_error (e : LexError) (items : List Item) :
    errorsOf (.error e :: items) = e :: errorsOf items := rfl

/-- From one byte of the source up to another there is a gap. -/
def IsGapBetween (source : Text) (start stop : Nat) : Prop :=
  ∃ gap, source.slice? start stop = some gap ∧ IsGap gap

/-- Line and column of a byte: one more than the line feeds before it, and one more than the bytes
between the last of them and it. -/
def AreCounted (source : Text) (offset line column : Nat) : Prop :=
  ∃ before, source.takeBytes? offset = some before ∧
    line = 1 + before.count '\n' ∧ column = 1 + before.lastLine.byteLength

/-- The items, and the end of the source behind them, cover the source without loss. -/
structure Lossless (source : Text) (items : List Item) (eof : Token) : Prop where
  not_end : ∀ item ∈ items, Lexer.isEnd item = false
  length_le : items.length ≤ source.byteLength
  inside : ∀ item ∈ items,
    item.span.start < item.span.stop ∧ item.span.stop ≤ source.byteLength
  /-- No span begins or ends inside a character. -/
  whole : ∀ item ∈ items, (source.slice? item.span.start item.span.stop).isSome = true
  ordered : items.Pairwise fun a b => a.span.stop ≤ b.span.start
  /-- Before the first span, between two neighbours and behind the last span. -/
  gaps : List.IsChain (fun a b => IsGapBetween source a.stop b.start)
    (⟨0, 0⟩ :: (items.map Item.span ++ [eof.span]))
  spelled : ∀ t, .ok t ∈ items → t.kind.Spells (t.span.text source)
  counted : ∀ item ∈ items, AreCounted source item.span.start item.line item.column
  eof_kind : eof.kind = .eof
  eof_span : eof.span = ⟨source.byteLength, source.byteLength⟩
  eof_counted : AreCounted source source.byteLength eof.line eof.column

/-! ## Single items -/

namespace Item.Stands

variable {p : Place} {text rest : Text} {item : Item}

theorem span_eq (h : Stands p rest text item) :
    item.span = ⟨p.offset, p.offset + text.byteLength⟩ := by
  cases h <;> rfl

theorem line_eq (h : Stands p rest text item) : item.line = p.line := by
  cases h <;> rfl

theorem column_eq (h : Stands p rest text item) : item.column = p.column := by
  cases h <;> rfl

/-- The end of the source is not written. -/
theorem not_end (h : Stands p rest text item) : Lexer.isEnd item = false := by
  cases item with
  | ok t =>
    have hspells := h.spells
    show t.kind.isEof = false
    generalize t.kind = k at hspells
    cases hspells <;> rfl
  | error e => rfl

end Item.Stands

theorem areCounted_piece (before rest : Text) :
    AreCounted (before ++ rest) before.byteLength
      (Place.origin.advance before).line (Place.origin.advance before).column := by
  refine ⟨before, Text.takeBytes?_byteLength before rest, ?_, ?_⟩
  · rw [Place.advance_origin]
  · rw [Place.advance_origin]

theorem offset_advance_origin (before : Text) :
    (Place.origin.advance before).offset = before.byteLength := by
  rw [Place.advance_origin]

/-! ## All items -/

namespace Lexer.Tiled

variable {p : Place} {rest : Text} {items : List Item}

/-- Every item stands on a piece of the text. -/
theorem mem (h : Tiled p rest items) {item : Item} (hitem : item ∈ items) :
    ∃ before text after, rest = before ++ (text ++ after) ∧
      Item.Stands (p.advance before) after text item := by
  induction h with
  | last => cases hitem
  | @piece p gap text rest first items hgap hstands htiled ih =>
    rcases List.mem_cons.1 hitem with rfl | hmem
    · exact ⟨gap, text, rest, rfl, hstands⟩
    · obtain ⟨before, text', after, rfl, hstands'⟩ := ih hmem
      refine ⟨gap ++ text ++ before, text', after, by simp, ?_⟩
      rw [Place.advance_append]
      exact hstands'

theorem le_start (h : Tiled p rest items) {item : Item} (hitem : item ∈ items) :
    p.offset ≤ item.span.start := by
  obtain ⟨before, text, after, -, hstands⟩ := h.mem hitem
  rw [hstands.span_eq, Place.offset_advance]
  exact Nat.le_add_right _ _

theorem ordered (h : Tiled p rest items) :
    items.Pairwise fun a b => a.span.stop ≤ b.span.start := by
  induction h with
  | last => exact .nil
  | piece hgap hstands htiled ih =>
    refine .cons (fun item hitem => ?_) ih
    have hle := htiled.le_start hitem
    rw [hstands.span_eq]
    rwa [Place.advance_append, Place.offset_advance] at hle

theorem length_le (h : Tiled p rest items) : items.length ≤ rest.byteLength := by
  induction h with
  | last => exact Nat.zero_le _
  | piece hgap hstands htiled ih =>
    have hpos := Text.byteLength_pos hstands.ne_nil
    rw [List.length_cons, Text.byteLength_append, Text.byteLength_append]
    omega

/-- Gaps are what stands between the items, from a span on that ends where the text begins. -/
theorem gaps {before : Text} {s : Span} (hs : s.stop = before.byteLength)
    (h : Tiled (Place.origin.advance before) rest items) :
    List.IsChain (fun a b => IsGapBetween (before ++ rest) a.stop b.start)
      (s :: (items.map Item.span ++
        [⟨(before ++ rest).byteLength, (before ++ rest).byteLength⟩])) := by
  generalize hp : Place.origin.advance before = p at h
  induction h generalizing before s with
  | @last p gap hgap =>
    refine .cons_cons ⟨gap, ?_, hgap⟩ (.singleton _)
    have hslice := Text.slice?_piece before gap []
    rw [List.append_nil] at hslice
    rw [hs, Text.byteLength_append]
    exact hslice
  | @piece p gap text rest item items hgap hstands htiled ih =>
    subst hp
    have hspan := hstands.span_eq
    rw [Place.offset_advance, offset_advance_origin] at hspan
    refine .cons_cons ⟨gap, ?_, hgap⟩ ?_
    · rw [hs, hspan]
      exact Text.slice?_piece before gap (text ++ rest)
    · have hcut : before ++ (gap ++ (text ++ rest)) = before ++ (gap ++ text) ++ rest := by simp
      rw [hcut]
      refine ih ?_ (Place.advance_append ..)
      rw [hspan, Text.byteLength_append, Text.byteLength_append, Nat.add_assoc]

/-- Items that stand on the pieces of a source cover it without loss. -/
theorem lossless {source : Text} {items : List Item} (h : Tiled .origin source items) :
    Lossless source items (eofAt (Place.origin.advance source)) where
  not_end item hitem := by
    obtain ⟨before, text, after, -, hstands⟩ := h.mem hitem
    exact hstands.not_end
  length_le := h.length_le
  inside item hitem := by
    obtain ⟨before, text, after, rfl, hstands⟩ := h.mem hitem
    have hpos := Text.byteLength_pos hstands.ne_nil
    rw [hstands.span_eq, offset_advance_origin, Text.byteLength_append, Text.byteLength_append]
    constructor
    · show before.byteLength < before.byteLength + text.byteLength
      omega
    · show before.byteLength + text.byteLength ≤ _
      omega
  whole item hitem := by
    obtain ⟨before, text, after, rfl, hstands⟩ := h.mem hitem
    rw [hstands.span_eq, offset_advance_origin, Text.slice?_piece]
    rfl
  ordered := h.ordered
  gaps := by
    have hstart : (⟨0, 0⟩ : Span).stop = Text.byteLength [] := rfl
    have hgaps := gaps hstart h
    have heof : (eofAt (Place.origin.advance source)).span =
        ⟨source.byteLength, source.byteLength⟩ := by
      rw [eofAt, offset_advance_origin]
    rw [heof]
    exact hgaps
  spelled t ht := by
    obtain ⟨before, text, after, rfl, hstands⟩ := h.mem ht
    have hspan : t.span = _ := hstands.span_eq
    rw [hspan, offset_advance_origin, Span.text, Text.slice?_piece, Option.getD_some]
    exact hstands.spells
  counted item hitem := by
    obtain ⟨before, text, after, rfl, hstands⟩ := h.mem hitem
    rw [hstands.span_eq, hstands.line_eq, hstands.column_eq, offset_advance_origin]
    exact areCounted_piece before (text ++ after)
  eof_kind := rfl
  eof_span := by rw [eofAt, offset_advance_origin]
  eof_counted := by
    have hcounted := areCounted_piece source []
    rw [List.append_nil] at hcounted
    exact hcounted

end Lexer.Tiled

/-- With fewer errors than it takes to stop, what is collected are the tokens and the errors of all items
up to the end of the source. -/
theorem Lexer.tokenizeFrom_items {errorsLeft : Nat} {l : Lexer}
    (h : (l.tokenizeFrom errorsLeft).1.errors.length ≤ errorsLeft) :
    ∃ items, (l.tokenizeFrom errorsLeft).1 = ⟨tokensOf items ++ [l.endToken], errorsOf items⟩ ∧
      Tiled l.place l.rest items := by
  fun_induction tokenizeFrom errorsLeft l with
  | case1 errorsLeft l token l' hnext hend =>
    rcases next_spec l with ⟨hgap, hpull⟩ | ⟨gap, text, rest, item, -, -, hstands, hpull⟩
    · rw [hnext] at hpull
      cases hpull
      exact ⟨[], rfl, .last hgap⟩
    · rw [hnext] at hpull
      cases hpull
      have hgoesOn : token.kind.isEof = false := hstands.not_end
      rw [hend] at hgoesOn
      cases hgoesOn
  | case2 errorsLeft l token l' hnext hgoesOn found l'' hrest ih =>
    rcases next_spec l with ⟨hgap, hpull⟩ | ⟨gap, text, rest, item, hl, hgap, hstands, hpull⟩
    · rw [hnext] at hpull
      cases hpull
      exact absurd rfl hgoesOn
    · rw [hnext] at hpull
      cases hpull
      rw [hrest] at ih
      obtain ⟨items, hfound, htiled⟩ := ih h
      obtain rfl : found = _ := hfound
      rw [endToken_behind hl]
      refine ⟨.ok token :: items, rfl, ?_⟩
      rw [hl]
      exact .piece hgap hstands htiled
  | case3 l e l' hnext => cases h
  | case4 l e l' hnext errorsLeft found l'' hrest ih =>
    rcases next_spec l with ⟨hgap, hpull⟩ | ⟨gap, text, rest, item, hl, hgap, hstands, hpull⟩
    · rw [hnext] at hpull
      cases hpull
    · rw [hnext] at hpull
      cases hpull
      rw [hrest] at ih
      obtain ⟨items, hfound, htiled⟩ := ih (Nat.le_of_succ_le_succ h)
      obtain rfl : found = _ := hfound
      rw [endToken_behind hl]
      refine ⟨.error e :: items, rfl, ?_⟩
      rw [hl]
      exact .piece hgap hstands htiled

theorem eq_map_ok_of_errorsOf {items : List Item} (h : errorsOf items = []) :
    items = (tokensOf items).map .ok := by
  induction items with
  | nil => rfl
  | cons item items ih =>
    cases item with
    | ok t => exact congrArg (.ok t :: ·) (ih h)
    | error e => cases h

/-- Without an error, what is collected are the items of the source, and the end of it behind them. -/
theorem Lexer.tokenizeFrom_tiled {errorsLeft : Nat} {l : Lexer}
    (h : (l.tokenizeFrom errorsLeft).1.errors = []) :
    ∃ tokens, (l.tokenizeFrom errorsLeft).1.tokens = tokens ++ [l.endToken] ∧
      Tiled l.place l.rest (tokens.map .ok) := by
  obtain ⟨items, hfound, htiled⟩ := tokenizeFrom_items (by rw [h]; exact Nat.zero_le errorsLeft)
  rw [hfound] at h
  rw [eq_map_ok_of_errorsOf h] at htiled
  exact ⟨tokensOf items, by rw [hfound], htiled⟩

/-- Tokens that are collected without an error cover the source without loss. -/
theorem tokenize_lossless {source : String} (h : (tokenize source).errors = []) :
    ∃ tokens eof, (tokenize source).tokens = tokens ++ [eof] ∧
      Lossless source.toList (tokens.map .ok) eof := by
  obtain ⟨tokens, htokens, htiled⟩ := Lexer.tokenizeFrom_tiled h
  refine ⟨tokens, _, htokens, ?_⟩
  rw [Lexer.endToken_eq]
  exact htiled.lossless

end Modula

import Modula.Proofs.Lexeme.Local
import Modula.Proofs.Lexer.Lossless
import Modula.Proofs.Lexer.Written
import Modula.Proofs.Takes
/-!
# Slices of a source

  A slice of a source that reaches from the beginning of one token to the end of another one is read on
  its own as these tokens, with those in between (`Tiled.slice`).  Four steps lead there.

  1. **What is tiled is read.**  A text on which tokens stand, with gaps between them, is read as these
     tokens, without an error (`Tiled.tokenizes`).

  2. **Cutting at the front.**  What is behind some of the tokens begins where one of them ends; the gap
     there is left out as well (`Tiled.behind`, `Tiled.past_gap`).

  3. **Cutting at the back.**  Every token is read in front of less than what stood behind it, since the
     cut only takes away what is behind another token, or all (`Tiled.cut`, by `Lexeme.read_congr`).

  4. **Moving.**  The same text at another place has the same tokens, moved (`Tiled.moved`).
-/

namespace Modula.Lexer

/-! ## What is tiled is read

  A text is tiled if it consists of gaps and of tokens that stand there.  The lexer finds this tiling and
  no other one. -/

theorem skip_of_append (c : Char) (t rest : Text) (p : Place) :
    (Lexer.mk (c :: (t ++ rest)) p).skip (t.length + 1) = ⟨rest, p.advance (c :: t)⟩ := by
  rw [skip, List.drop_succ_cons, List.take_succ_cons, List.drop_left, List.take_left]

theorem spanOf_append (c : Char) (t rest : Text) (p : Place) :
    (Lexer.mk (c :: (t ++ rest)) p).spanOf (t.length + 1) =
      ⟨p.offset, p.offset + Text.byteLength (c :: t)⟩ := by
  rw [spanOf, List.take_succ_cons, List.take_left]

theorem read_of_opening (inside : Text) : Lexeme.read '(' ('*' :: inside) =
    ((Lexeme.commentTail inside).1, (Lexeme.commentTail inside).2 + 1) := rfl

theorem read_of_comment {u : Text} (h : IsCommentTail u) (rest : Text) :
    Lexeme.read '(' ('*' :: (u ++ rest)) = (.comment, u.length + 1) := by
  rw [read_of_opening, Lexeme.commentTail, length?_tail h]

/-- A gap is passed over, whatever follows it. -/
theorem next_of_gap {gap : Text} (h : IsGap gap) (rest : Text) (p : Place) :
    (Lexer.mk (gap ++ rest) p).next = (Lexer.mk rest (p.advance gap)).next := by
  -- By induction on the gap: a blank is passed over, and so is a comment.
  induction h generalizing p with
  | nil => rfl
  | @blank c u hc _ ih =>
    have hread : Lexeme.read c (u ++ rest) = (.blank, 0) := by
      unfold Lexeme.read
      rw [if_pos hc]
    rw [List.cons_append, next]
    dsimp only
    rw [hread]
    exact ih (p.step c)
  | @comment u v hu _ ih =>
    cases hu with
    | @comment u hu =>
      -- The lexer stands behind the whole comment, however many characters it has.
      have hskip := skip_of_append '(' ('*' :: u) (v ++ rest) p
      rw [List.append_assoc, List.cons_append, List.cons_append, next]
      dsimp only
      rw [read_of_comment hu]
      dsimp only
      rw [← List.cons_append, ← List.length_cons, hskip, ih, Place.advance_append]

/-- What stands at a place is pulled there. -/
theorem next_of_stands {p : Place} {text rest : Text} {item : Item}
    (h : Item.Stands p rest text item) :
    (Lexer.mk (text ++ rest) p).next = (item, ⟨rest, p.advance text⟩) := by
  cases h with
  | token hread =>
    rw [List.cons_append, next]
    dsimp only
    rw [hread]
    dsimp only
    rw [tokenOf, spanOf_append, skip_of_append]
  | error hread =>
    rw [List.cons_append, next]
    dsimp only
    rw [hread]
    dsimp only
    rw [errorOf, spanOf_append, skip_of_append]

theorem next_of_end {p : Place} {gap : Text} (h : IsGap gap) :
    (Lexer.mk gap p).next = (.ok (eofAt (p.advance gap)), ⟨[], p.advance gap⟩) := by
  have hgap := next_of_gap h [] p
  rw [List.append_nil, next_of_nil, endToken_eq] at hgap
  exact hgap

/-- Tokens that stand on a text, with gaps between them, are what it is read as. -/
theorem Tiled.tokenizes {p : Place} {text : Text} {tokens : List Token}
    (h : Tiled p text (tokens.map .ok)) (errorsLeft : Nat) :
    (tokenizeFrom errorsLeft ⟨text, p⟩).1 = ⟨tokens ++ [eofAt (p.advance text)], []⟩ := by
  generalize hitems : tokens.map Except.ok = items at h
  -- By induction on the tiling, one piece for each token.
  induction h generalizing tokens with
  | @last p gap hgap =>
    obtain rfl := List.map_eq_nil_iff.1 hitems
    rw [tokenizeFrom_eq, next_of_end hgap]
    rfl
  | @piece p gap text rest item items hgap hstands _ ih =>
    obtain ⟨t, tokens, rfl, rfl, rfl⟩ := List.map_eq_cons_iff.1 hitems
    -- A token that stands in the text is no end, so reading goes on.
    have hgoesOn : t.kind.isEof = false := hstands.not_end
    rw [tokenizeFrom_eq, next_of_gap hgap, next_of_stands hstands]
    dsimp only
    rw [if_neg (by rw [hgoesOn]; exact Bool.false_ne_true), ← Place.advance_append, ih rfl,
      ← Place.advance_append, List.append_assoc]
    rfl

/-! ## Cutting at the front

  What is in front of a token has no part in how the token is read. -/

theorem Tiled.behind {p : Place} {text : Text} {items more : List Item}
    (h : Tiled p text (items ++ more)) :
    ∃ front rest, text = front ++ rest ∧ Tiled (p.advance front) rest more := by
  induction items generalizing p text with
  | nil => exact ⟨[], text, rfl, h⟩
  | cons item items ih =>
    cases h with
    | @piece _ gap text rest _ _ _ _ htiled =>
      obtain ⟨front, rest, rfl, hmore⟩ := ih htiled
      refine ⟨gap ++ text ++ front, rest, by simp, ?_⟩
      rw [Place.advance_append]
      exact hmore

theorem stopsLike_cons {c : Char} (hc : c ≠ '.') (rest rest' : Text) :
    StopsLike (c :: rest) (c :: rest') := by
  refine ⟨fun _ h => Or.inl h, fun h => ?_⟩
  obtain ⟨_, heq, _⟩ := Number.eq_of_startsFraction h
  exact absurd (List.cons.inj heq).1 hc

theorem stopsLike_gap {gap rest rest' : Text} (hgap : IsGap gap) (h : StopsLike rest rest') :
    StopsLike (gap ++ rest) (gap ++ rest') := by
  cases hgap with
  | nil => exact h
  | @blank c u hc _ =>
    refine stopsLike_cons ?_ _ _
    rintro rfl
    cases hc
  | comment hu _ =>
    cases hu with
    | comment _ => exact stopsLike_cons (by decide) _ _

theorem startsFraction_point {cs : Text} :
    Number.startsFraction ('.' :: cs) = true ↔ cs.head? ≠ some '.' := by
  unfold Number.startsFraction
  split
  · next heq =>
    rw [(List.cons.inj heq).2]
    exact ⟨nofun, fun h => absurd rfl h⟩
  · next cs' hno heq =>
    refine ⟨fun _ hhead => ?_, fun _ => rfl⟩
    obtain ⟨tail, rfl⟩ := List.head?_eq_some_iff.1 hhead
    exact hno tail (List.cons.inj heq).2.symm
  · next hno => exact absurd rfl (hno cs)

/-- A token in front makes the same end of what stands before it, whatever follows it. -/
theorem stopsLike_token {p : Place} {text rest : Text} {t : Token}
    (h : Item.Stands p rest text (.ok t)) (rest' : Text) :
    StopsLike (text ++ rest) (text ++ rest') := by
  cases h with
  | @token c t k hread =>
    by_cases hc : c = '.'
    · subst hc
      refine ⟨fun _ h => Or.inl h, fun h => startsFraction_point.2 ?_⟩
      cases t with
      | cons d t => exact (startsFraction_point.1 h :)
      | nil =>
        -- two points would have been read together
        intro hhead
        obtain ⟨tail, rfl⟩ := List.head?_eq_some_iff.1 hhead
        exact absurd (congrArg Prod.snd hread) (show (1 : Nat) ≠ 0 by decide)
    · exact stopsLike_cons hc _ _

theorem Item.Stands.congr {p : Place} {text rest rest' : Text} {t : Token}
    (h : Item.Stands p rest text (.ok t)) (hstops : StopsLike rest rest') :
    Item.Stands p rest' text (.ok t) := by
  cases h with
  | token hread => exact .token (Lexeme.read_congr hstops hread)

theorem stopOf?_cons (t : Token) (ts : List Token) :
    stopOf? (t :: ts) = some ((stopOf? ts).getD t.span.stop) := by
  rw [stopOf?, stopOf?, List.getLast?_cons]
  cases ts.getLast? <;> rfl

/-- What is behind the tokens is cut off. -/
theorem Tiled.cut {p : Place} {text : Text} {tokens : List Token} {more : List Item}
    (h : Tiled p text (tokens.map .ok ++ more)) :
    ∃ front back, text = front ++ back ∧ Tiled p front (tokens.map .ok) ∧ StopsLike text front ∧
      (stopOf? tokens).getD p.offset = p.offset + front.byteLength := by
  -- The text is cut behind the last of the tokens, wherever the others end.
  induction tokens generalizing p text with
  | nil => exact ⟨[], text, rfl, .last .nil, .nil text, rfl⟩
  | cons t tokens ih =>
    cases h with
    | @piece _ gap text rest _ _ hgap hstands htiled =>
      obtain ⟨front, back, rfl, hfront, hstops, hlast⟩ := ih htiled
      refine ⟨gap ++ (text ++ front), back, by simp, ?_, ?_, ?_⟩
      · exact .piece hgap (Item.Stands.congr hstands hstops) hfront
      · exact stopsLike_gap hgap (stopsLike_token hstands front)
      -- The offset at which the last token stops is that of the cut.
      · have hspan : t.span.stop = (p.advance (gap ++ text)).offset := by
          rw [show t.span = _ from hstands.span_eq]
          simp only [Place.offset_advance, Text.byteLength_append, Nat.add_assoc]
        rw [stopOf?_cons, hspan, Option.getD_some, hlast]
        simp only [Place.offset_advance, Text.byteLength_append, Nat.add_assoc]

/-! ## Moving

  Tokens know their places, so that the same text further on has the same tokens with other places. -/

/-- The same token of a text that begins at the first offset, and then at the second. -/
structure Carried (first second : Nat) (t t' : Token) : Prop where
  kind : t'.kind = t.kind
  start : t'.span.start + first = t.span.start + second
  stop : t'.span.stop + first = t.span.stop + second

/-- At another place, everything is moved as the place is. -/
theorem Tiled.carried {p : Place} (q : Place) {text : Text} {tokens : List Token}
    (h : Tiled p text (tokens.map .ok)) :
    ∃ tokens', Tiled q text (tokens'.map .ok) ∧
      List.Forall₂ (Carried p.offset q.offset) tokens tokens' := by
  induction tokens generalizing p q text with
  | nil =>
    cases h with
    | last hgap => exact ⟨[], .last hgap, .nil⟩
  | cons t tokens ih =>
    cases h with
    | @piece _ gap text rest _ _ hgap hstands htiled =>
      -- What is behind the piece begins equally far behind both places.
      obtain ⟨tokens', htiled', hall⟩ := ih (q.advance (gap ++ text)) htiled
      have hcarried : List.Forall₂ (Carried p.offset q.offset) tokens tokens' := by
        refine hall.imp fun t t' h => ?_
        have hstart := h.start
        have hstop := h.stop
        simp only [Place.offset_advance] at hstart hstop
        exact ⟨h.kind, by omega, by omega⟩
      cases hstands with
      | token hread =>
        refine ⟨_ :: tokens', .piece hgap (.token hread) htiled', .cons ⟨rfl, ?_, ?_⟩ hcarried⟩
        · simp only [Place.offset_advance]
          omega
        · simp only [Place.offset_advance]
          omega

/-- The place of a text that begins so many bytes further up. -/
theorem Tiled.moved {p q : Place} {bytes : Nat} (ids : Nat) {text : Text} {tokens : List Token}
    (h : Tiled p text (tokens.map .ok)) (hp : p.offset = q.offset + bytes) :
    ∃ tokens', Tiled q text (tokens'.map .ok) ∧
      List.Forall₂ (Token.MovedBy (.forth bytes ids)) tokens' tokens := by
  obtain ⟨tokens', htiled, hall⟩ := h.carried q
  refine ⟨tokens', htiled, hall.flip.imp fun t' t h => ⟨h.kind.symm, ?_⟩⟩
  have hstart := h.start
  have hstop := h.stop
  show Span.mk t.span.start t.span.stop = ⟨t'.span.start + bytes, t'.span.stop + bytes⟩
  congr 1 <;> omega

/-! ## Slices -/

end Modula.Lexer

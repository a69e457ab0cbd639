import Modula.Proofs.Lexer.Lines
/-!
# Gaps mean nothing

  Blanks and comments may be put in wherever a token begins or ends, and nothing else happens: the same
  tokens are read, and those behind the new gap have moved by its bytes (`tokenize_insert_gap`).

      source    …  1  │  ..  2  …          `1` and `..` touch here
      widened   …  1  (* up to *)  ..  2  …

  1. **A gap ends a token.**  What begins a gap continues no token, so that every token in front of the
     new gap is read as before, even one that touched the token behind it (`StopsLike.of_gap`).

  2. **Seams.**  A place where a token begins or ends cuts the tokens into those in front of it and
     those behind it (`Seam`, `Tiled.exists_seam`).  It stands in a gap, which may be empty.

  3. **Widening.**  At a seam the gap is made wider.  The tokens in front of it stand where they stood,
     the others are those of the same text at a later place (`Seam.widened`).
-/

namespace Modula

theorem StopsLike.refl (rest : Text) : StopsLike rest rest := ⟨fun _ h => Or.inl h, id⟩

theorem IsGap.beginsGap {c : Char} {cs : Text} (h : IsGap (c :: cs)) : Lexeme.beginsGap c = true := by
  generalize hgap : c :: cs = gap at h
  cases h with
  | nil => cases hgap
  | blank hblank _ =>
    obtain rfl := (List.cons.inj hgap).1
    rw [Lexeme.beginsGap, hblank, Bool.true_or]
  | comment hcomment _ =>
    cases hcomment with
    | comment _ =>
      obtain rfl := (List.cons.inj hgap).1
      rfl

/-- A gap makes an end of everything, whatever stood in its place. -/
theorem StopsLike.of_gap {gap : Text} (hgap : IsGap gap) (hne : gap ≠ []) (rest rest' : Text) :
    StopsLike rest (gap ++ rest') := by
  obtain ⟨c, cs, rfl⟩ := List.exists_cons_of_ne_nil hne
  have hc := hgap.beginsGap
  constructor
  · intro d hd
    obtain rfl : c = d := Option.some.inj hd
    exact Or.inr hc
  · intro hfraction
    obtain ⟨_, heq, _⟩ := Number.eq_of_startsFraction hfraction
    obtain rfl := (List.cons.inj heq).1
    cases hc

namespace Lexer

/-! ## Seams -/

/-- A tiled text, cut in a gap where a token ends or the next one begins: the text before the cut and
the text behind it, and so the tokens. -/
inductive Seam : Place → Text → Text → List Token → List Token → Prop
  | here {p : Place} {gap rest : Text} {back : List Token} :
    IsGap gap → Tiled (p.advance gap) rest (back.map .ok) → Seam p gap rest [] back
  | further {p : Place} {gap text before rest : Text} {t : Token} {front back : List Token} :
    IsGap gap → Item.Stands (p.advance gap) (before ++ rest) text (.ok t) →
      Seam (p.advance (gap ++ text)) before rest front back →
      Seam p (gap ++ (text ++ before)) rest (t :: front) back

variable {p : Place} {before behind : Text} {front back : List Token}

/-- The tokens in front of a seam end there, or before it. -/
theorem Seam.stop_le (h : Seam p before behind front back) :
    ∀ t ∈ front, t.span.stop ≤ p.offset + before.byteLength := by
  induction h with
  | here => exact fun t ht => absurd ht List.not_mem_nil
  -- What was said of the tokens behind the first one holds from its end on.
  | @further p gap text before rest t front back hgap hstands hseam ih =>
    have hspan : t.span = _ := hstands.span_eq
    rw [Place.offset_advance] at hspan ih
    simp only [Text.byteLength_append] at ih ⊢
    intro t' ht'
    rcases List.mem_cons.1 ht' with rfl | hmem
    · rw [hspan]
      show p.offset + gap.byteLength + text.byteLength ≤ _
      omega
    · have hle := ih t' hmem
      omega

end Lexer

end Modula

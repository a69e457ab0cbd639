import Modula.Proofs.Tracking
import Modula.Proofs.Reading.Expr
/-!
# How far the parsers of names and expressions come

  All of them track the sentences that they read.  The operators of one level, each with its operand,
  make up a Kleene star, and the left-recursive grammar is met by the law that `p * q∗` is the least
  language that contains `p` and is closed under `q` on the right.
-/

namespace Modula

open Token.Kind (word symbol)
open Computability

/-- The operators of a level. -/
def Operator.Level.words (level : Operator.Level) : Language Token.Kind :=
  {w | ∃ k op, w = [k] ∧ Operator.ofKindAt? level k = some op}

/-- Operators are applied from left to right. -/
theorem Operands.words_le {level : Operator.Level} {p q : Phrase Expr} :
    p.words * (level.words * q.words)∗ ≤ Phrase.words (Operands level p q) := by
  refine mul_kstar_le ?_ ?_
  · rintro w ⟨e, hw⟩
    exact ⟨e, .first hw⟩
  · rintro _ ⟨u, ⟨lhs, hu⟩, _, ⟨_, ⟨k, op, rfl, hop⟩, v, ⟨rhs, hv⟩, rfl⟩, rfl⟩
    exact ⟨_, .operation hu hop hv⟩

namespace Parser

/-! ## Names -/

/-- Names with commas. -/
theorem identList_tracks : identList.Tracks IsIdentList.words := by
  refine .mono ((sepBy_tracks (by nofun) ident_tracks).bind_one fun _ => pure_tracks _) ?_
  rintro w ⟨_ | ⟨i, l⟩, hw⟩
  · cases hw
  · exact ⟨_, .idents hw⟩

/-- By induction on the budget: a period is only taken if a name follows it. -/
theorem segments_tracks (budget : Nat) :
    (segments budget).Tracks (Phrase.words (Further (symbol .period) IsIdent)) := by
  have hnone : ([] : List Token.Kind) ∈ Phrase.words (Further (symbol .period) IsIdent) :=
    ⟨[], Or.inl ⟨rfl, rfl⟩⟩
  induction budget with
  | zero => exact (pure_tracks _).mono (by rintro _ rfl; exact hnone)
  | succ budget ih =>
    intro construct c
    rw [segments]
    refine get_bind_tracksFrom ?_
    split
    · next hk =>
      refine .mono ((advance_tracksFrom hk.1 (by decide)).bind (fun _ => ident_tracks.bind
        (fun i => ih.bind_one fun more => pure_tracks _) hnone)
        (Language.append_mem_mul ⟨_, .name ""⟩ hnone)) ?_
      rintro _ ⟨_, rfl, _, ⟨u, ⟨i, hu⟩, v, ⟨l, hv⟩, rfl⟩, rfl⟩
      exact ⟨i :: l, Or.inr ⟨u ++ v, rfl, separated_cons_iff.2 ⟨u, v, rfl, hu, hv⟩⟩⟩
    · exact (pure_tracks _ construct c).mono (by rintro _ rfl; exact hnone)

/-- A name and further segments. -/
theorem qualident_tracks : qualident.Tracks IsQualident.words := by
  have hmore : ∀ first : Ident, (do
      let more ← segments (← remaining)
      return .ofIdents first more : Parser Qualident).Tracks
        (Phrase.words (Further (symbol .period) IsIdent)) :=
    fun first construct c => remaining_bind_tracksFrom
      ((segments_tracks _).bind_one (fun more => pure_tracks _) construct c)
  refine .mono (ident_tracks.bind hmore ⟨[], Or.inl ⟨rfl, rfl⟩⟩) ?_
  rintro _ ⟨u, ⟨i, hu⟩, v, ⟨l, hv⟩, rfl⟩
  exact ⟨_, .parts (separated_cons_iff.2 ⟨u, v, rfl, hu, hv⟩)⟩

/-! ## Operators

  The language of a level is a first operand and a star of operators with operands.  The loop tracks the
  star. -/

/-- By induction on the budget: each round adds an operator and an operand to a word of the star. -/
theorem operations_tracks {level : Operator.Level} {operand : Parser Expr}
    {L : Language Token.Kind} {w : List Token.Kind} (hw : w ∈ L) (ho : operand.Tracks L)
    (budget : Nat) : ∀ lhs, (operations level operand budget lhs).Tracks (level.words * L)∗ := by
  have hnone := Language.nil_mem_kstar (level.words * L)
  induction budget with
  | zero => exact fun lhs => (pure_tracks lhs).mono one_le_kstar
  | succ budget ih =>
    intro lhs construct c
    rw [operations]
    refine kind_bind_tracksFrom fun k hk => ?_
    split
    · exact (pure_tracks lhs).mono one_le_kstar construct c
    · next op hop =>
      refine .mono ((advance_tracksFrom hk (ne_eof_of_operator hop)).bind (fun _ => ho.bind
        (fun rhs => freshId_tracks.bind_of_one (fun id => ih _) hnone) hnone)
        (Language.append_mem_mul hw hnone)) ?_
      calc oneToken k * (L * (level.words * L)∗)
          ≤ level.words * (L * (level.words * L)∗) := by
            gcongr
            rintro _ rfl
            exact ⟨k, op, rfl, hop⟩
        _ = level.words * L * (level.words * L)∗ := (mul_assoc _ _ _).symm
        _ ≤ (level.words * L)∗ := mul_kstar_le_kstar

/-- A first operand and the operators behind it. -/
theorem leveled_tracks {level : Operator.Level} {first operand : Parser Expr} {p q : Phrase Expr}
    {w : List Token.Kind} (hw : w ∈ q.words) (hf : first.Tracks p.words)
    (ho : operand.Tracks q.words) :
    (do let a ← first; operations level operand (← remaining) a).Tracks
      (Phrase.words (Operands level p q)) := by
  have hmore : ∀ a, (do operations level operand (← remaining) a).Tracks
      (level.words * q.words)∗ :=
    fun a construct c => remaining_bind_tracksFrom (operations_tracks hw ho _ a construct c)
  exact (hf.bind hmore (Language.nil_mem_kstar _)).mono Operands.words_le

/-- A second relation is an error behind a whole expression, where the first one may end. -/
theorem noRelation_tracks : noRelation.Tracks 1 := by
  intro construct c
  refine kind_bind_tracksFrom fun k _ => ?_
  split
  · exact fail_tracksFrom rfl nofun
  · exact pure_tracks _ construct c

/-! ## Sentences

  The languages of the levels are put together by sums and products, which are contained in those of the
  grammar. -/

/-- A literal is a factor, and so there is one to go on with. -/
theorem isFactor_nonempty : [.string ""] ∈ IsFactor.words := ⟨_, .string ""⟩

/-- And an expression. -/
theorem isExpr_nonempty : [.string ""] ∈ IsExpr.words := ⟨_, (IsFactor.string "").isExpr⟩

section

variable {factor : Parser Expr} (hf : factor.Tracks IsFactor.words)

include hf

/-- A term is a factor and a star of operators with factors. -/
theorem termWith_tracks : (termWith factor).Tracks IsTerm.words :=
  (leveled_tracks isFactor_nonempty hf hf).mono fun _ ⟨_, hw⟩ => ⟨_, .operands hw⟩

/-- A term, or a sign and a term. -/
theorem signedTermWith_tracks : (signedTermWith factor).Tracks IsSigned.words := by
  intro construct c
  refine kind_bind_tracksFrom fun k hk => ?_
  split
  · exact .mono (termWith_tracks hf construct c) fun _ ⟨_, hw⟩ => ⟨_, .unsigned hw⟩
  · next sign hs =>
    refine .mono ((advance_tracksFrom hk (ne_eof_of_sign hs)).bind (fun _ =>
      (termWith_tracks hf).bind_one fun _ => freshId_tracks.bind_one fun _ => pure_tracks _)
      ⟨_, (IsFactor.string "").isTerm⟩) ?_
    rintro _ ⟨_, rfl, w, ⟨e, hw⟩, rfl⟩
    exact ⟨_, .signed hs hw⟩

/-- A term that may have a sign, and a star of operators with terms. -/
theorem simpleWith_tracks : (simpleWith factor).Tracks IsSimple.words :=
  (leveled_tracks ⟨_, (IsFactor.string "").isTerm⟩ (signedTermWith_tracks hf)
    (termWith_tracks hf)).mono fun _ ⟨_, hw⟩ => ⟨_, .operands hw⟩

/-- One relation at most, so there is no star at this level. -/
theorem exprWith_tracks : (exprWith factor).Tracks IsExpr.words := by
  -- behind the first operand there may be a relation with a second one
  refine .mono ((simpleWith_tracks hf).bind
    (M := Operator.Level.words .relational * IsSimple.words + 1) (fun lhs construct c => ?_)
    (Or.inr rfl)) ?_
  · refine kind_bind_tracksFrom fun k hk => ?_
    split
    · exact (pure_tracks lhs construct c).mono le_add_self
    · next op hop =>
      refine .mono ((advance_tracksFrom hk (ne_eof_of_operator hop)).bind (fun _ =>
        (simpleWith_tracks hf).bind_one fun _ => freshId_tracks.bind_one fun _ =>
          noRelation_tracks.bind_one fun _ => pure_tracks _)
        ⟨_, (IsFactor.string "").isTerm.isSimple⟩) ?_
      rintro _ ⟨_, rfl, w, hw, rfl⟩
      exact Or.inl (Language.append_mem_mul ⟨k, op, rfl, hop⟩ hw)
  · rintro _ ⟨u, ⟨lhs, hu⟩, _, ⟨_, ⟨k, op, rfl, hop⟩, v, ⟨rhs, hv⟩, rfl⟩ | rfl, rfl⟩
    · exact ⟨_, .relation hu hop hv⟩
    · exact ⟨lhs, by simpa using IsExpr.simple hu⟩

/-! ## Factors

  Each beginning of a factor has its own words, and all of them are factors. -/

/-- One bound or two. -/
theorem rangeItemWith_tracks : (rangeItemWith factor).Tracks IsElement.words := by
  refine .mono ((exprWith_tracks hf).bind (fun lhs => accept_bind_tracks (by nofun)
    ((exprWith_tracks hf).bind_one fun rhs => pure_tracks _) (pure_tracks _)) (Or.inr rfl)) ?_
  rintro _ ⟨u, ⟨lhs, hu⟩, _, ⟨_, rfl, v, ⟨rhs, hv⟩, rfl⟩ | rfl, rfl⟩
  · exact ⟨_, .range hu hv⟩
  · exact ⟨_, by simpa using IsElement.one hu⟩

/-- A list of elements, or nothing in front of the closing brace. -/
theorem elementsWith_tracks : (elementsWith factor).Tracks IsElements.words := by
  intro construct c
  refine kind_bind_tracksFrom fun k _ => ?_
  split
  · exact (pure_tracks _ construct c).mono (by rintro _ rfl; exact ⟨_, .none⟩)
  · exact .mono ((sepBy_tracks (by nofun) (rangeItemWith_tracks hf)).bind_one (fun _ =>
      pure_tracks _) construct c) fun _ ⟨_, hw⟩ => ⟨_, .some hw⟩

/-- A set is tracked from its opening brace to its closing one. -/
theorem setWith_tracks (base : Option Qualident) (start : Nat) :
    (setWith factor base start).Tracks
      (oneToken (symbol .openBrace) * (IsElements.words * oneToken (symbol .closeBrace))) :=
  within_tracks _ ((expect_tracks (by nofun)).bind (fun opener => (elementsWith_tracks hf).bind
    (fun elements => (close_tracks .setConstructor opener).bind_one fun _ =>
      freshId_tracks.bind_one fun _ => lastEnd_tracks.bind_one fun _ => pure_tracks _) rfl)
    (Language.append_mem_mul ⟨_, .none⟩ rfl))

omit hf in
theorem node_tracks (kind : ExprKind) (start : Nat) : (node kind start).Tracks 1 :=
  freshId_tracks.bind_one fun _ => lastEnd_tracks.bind_one fun _ => pure_tracks _

omit hf in
/-- A factor of one token. -/
theorem literal_tracksFrom {kind : ExprKind} {start : Nat} {k : Token.Kind} {construct : Construct}
    {c : Cursor} {e : Expr} (hc : c.kind = k) (hk : k ≠ .eof) (he : IsFactor [k] e) :
    (do let _ ← advance; node kind start : Parser Expr).TracksFrom IsFactor.words construct c := by
  refine .mono ((advance_tracksFrom hc hk).bind (fun _ => node_tracks kind start) rfl) ?_
  rw [mul_one]
  rintro _ rfl
  exact ⟨e, he⟩

/-- A set may have its type in front. -/
theorem designator_tracks (start : Nat) : (do
    let name ← qualident
    if (← kind) = Bracket.setConstructor.opener then setWith factor (some name) start
    else node (.designator name) start : Parser Expr).Tracks IsFactor.words := by
  refine .mono (qualident_tracks.bind (M := oneToken (symbol .openBrace) *
    (IsElements.words * oneToken (symbol .closeBrace)) + 1) (fun name construct c => ?_)
    (Or.inr rfl)) ?_
  · refine kind_bind_tracksFrom fun k _ => ?_
    split
    · exact (setWith_tracks hf _ _ construct c).mono le_self_add
    · exact (node_tracks _ _ construct c).mono le_add_self
  · rintro _ ⟨u, ⟨q, hu⟩, _, ⟨_, rfl, _, ⟨w, ⟨l, hw⟩, _, rfl, rfl⟩, rfl⟩ | rfl, rfl⟩
    · exact ⟨_, .typedSet hu hw⟩
    · exact ⟨_, by simpa using IsFactor.designator hu⟩

/-- An expression in parentheses is a factor. -/
theorem parenthesesWith_tracksFrom {construct : Construct} {c : Cursor}
    (hc : c.kind = symbol .openParen) :
    (parenthesesWith factor).TracksFrom IsFactor.words construct c := by
  refine .mono ((advance_tracksFrom hc nofun).bind (fun opener => within_tracks _
    ((exprWith_tracks hf).bind (fun inner => (close_tracks .parentheses opener).bind_one fun _ =>
      lastEnd_tracks.bind_one fun _ => pure_tracks _) rfl))
    (Language.append_mem_mul isExpr_nonempty rfl)) ?_
  rintro _ ⟨_, rfl, _, ⟨w, ⟨e, hw⟩, _, rfl, rfl⟩, rfl⟩
  exact ⟨_, .parentheses hw⟩

/-- One case for each beginning of a factor; at any other token a factor is missing. -/
theorem factorWith_tracks : (factorWith factor).Tracks IsFactor.words := by
  intro construct c
  refine get_bind_tracksFrom (kind_bind_tracksFrom fun k hk => ?_)
  split
  · exact literal_tracksFrom hk nofun (.integer _)
  · exact literal_tracksFrom hk nofun (.real _)
  · exact literal_tracksFrom hk nofun (.string _)
  · exact designator_tracks hf _ construct c
  · refine (setWith_tracks hf _ _ construct c).mono ?_
    rintro _ ⟨_, rfl, _, ⟨w, ⟨l, hw⟩, _, rfl, rfl⟩, rfl⟩
    exact ⟨_, .set hw⟩
  · exact parenthesesWith_tracksFrom hf hk
  · refine .mono ((advance_tracksFrom hk nofun).bind (fun _ =>
      hf.bind_one fun operand => node_tracks _ _) isFactor_nonempty) ?_
    rintro _ ⟨_, rfl, w, ⟨e, hw⟩, rfl⟩
    exact ⟨_, .not hw⟩
  · exact fail_tracksFrom isFactor_nonempty nofun

end

/-- By induction on the budget. -/
theorem factorAt_tracks (budget : Nat) : (factorAt budget).Tracks IsFactor.words := by
  induction budget with
  | zero => exact fail_tracks isFactor_nonempty nofun
  | succ budget ih => exact factorWith_tracks ih

/-- Expressions are tracked. -/
theorem expr_tracks : expr.Tracks IsExpr.words :=
  fun construct c => remaining_bind_tracksFrom (exprWith_tracks (factorAt_tracks _) construct c)

theorem rangeItem_tracks : rangeItem.Tracks IsElement.words :=
  fun construct c => remaining_bind_tracksFrom (rangeItemWith_tracks (factorAt_tracks _) construct c)

end Parser

end Modula

import Modula.Parser.Expr
import Modula.Proofs.Abreast
/-!
# Readers of names and expressions abreast

  What is asked about a token on the way through an expression is whether it is a certain plain one, and
  which operator it stands for.  Both spellings of an operator stand for the same one.

  Every phrase eats a token before it looks back at the end of one: `lastEnd` is asked for behind a
  closing bracket, a name or a literal.
-/

namespace Modula.Parser

open Token.Kind (word symbol)

variable {r : Retelling} {begun : Bool}

/-! ## Names -/

/-- The span of a list of names joins those of the first and the last one, and places retold keep their
order. -/
theorem identList_abreast :
    Abreast r begun true (IdentList.relabel r.toRelabeling) identList identList := by
  refine (sepBy_abreast (by decide) fun _ => ident_abreast).and_then fun ⟨first, more⟩ => ?_
  exact .pure_begun (IdentList.relabel_ofIdents_of_join r.span_join first more)

/-- Whether another segment follows is seen two tokens ahead: a period and then a name. -/
theorem segments_abreast (budget : Nat) :
    Abreast r begun false (List.map (Ident.relabel r.toRelabeling)) (segments budget)
      (segments budget) := by
  induction budget with
  | zero => exact .pure rfl
  | succ budget ih =>
    refine get_bind_abreast fun c c' hc => .ite ?_ ?_ (.pure rfl)
    -- Only one of the tokens after a period is looked at, for being a name.
    · have hperiod : Retelling.IsPlain (symbol .period) := by decide
      rw [hc.kindAfter_eq, r.apply_kind Token.Kind.isName rfl rfl, kind_iff hperiod hc]
    · exact .bind advance_abreast fun _ => .bind ident_abreast.weaken fun i =>
        .bind ih fun more => .pure rfl

/-- A qualified name eats its first segment, whatever comes behind it. -/
theorem qualident_abreast :
    Abreast r begun true (Qualident.relabel r.toRelabeling) qualident qualident := by
  refine ident_abreast.and_then fun first => .bind remaining_abreast fun budget => ?_
  refine .bind (segments_abreast _) fun more => ?_
  exact .pure_begun (Qualident.relabel_ofIdents_of_join r.span_join first more)

/-! ## Operators

  Which operator it is does not change with its spelling, so the loops take the same turns. -/

section

variable {factor factor' : Parser Expr}

/-- Operands of one level of operators, to the left.  It is run behind an operand, so that a token has
been read; the operand so far is the one of the other side retold. -/
theorem operations_abreast (level : Operator.Level)
    (ho : ∀ begun, Abreast r begun true (Expr.relabel r.toRelabeling) factor factor') (budget : Nat)
    (lhs : Expr) : Abreast r true true (Expr.relabel r.toRelabeling)
      (operations level factor budget lhs)
      (operations level factor' budget (lhs.relabel r.toRelabeling)) := by
  induction budget generalizing lhs with
  | zero => exact .pure_begun rfl
  | succ budget ih =>
    refine kind_bind_abreast rfl rfl fun k => .of_abreast ?_
    -- `<>` and `#`, `&` and `AND` are each one operator, so the two sides agree here even where their
    -- tokens differ.
    cases Operator.ofKindAt? level k with
    | none => exact .pure_begun rfl
    | some op =>
      refine .bind advance_abreast fun opToken => .bind (ho _).weaken fun rhs =>
        .bind freshId_abreast fun id => ?_
      have hnode := ih ⟨id, .binary op opToken.span lhs rhs, ⟨lhs.span.start, rhs.span.stop⟩⟩
      simpa [Expr.relabel, ExprKind.relabel] using hnode

variable (hf : ∀ begun, Abreast r begun true (Expr.relabel r.toRelabeling) factor factor')

include hf

/-- A term: its first factor, and the operators that bind as multiplication does. -/
theorem termWith_abreast : Abreast r begun true (Expr.relabel r.toRelabeling) (termWith factor)
    (termWith factor') :=
  (hf begun).and_then fun first => .bind remaining_abreast fun _ => operations_abreast _ hf _ first

/-- The sign is a token of its own, and the operand of it a whole term. -/
theorem signedTermWith_abreast : Abreast r begun true (Expr.relabel r.toRelabeling)
    (signedTermWith factor) (signedTermWith factor') := by
  refine kind_bind_abreast rfl rfl fun k => ?_
  cases hk : Sign.ofKind? k with
  | none => exact .of_abreast (termWith_abreast hf)
  | some sign =>
    -- A sign has been read, so the term behind it need not be asked.
    have hne : k ≠ .eof := by
      rintro rfl
      cases hk
    refine (advance_abreastAt hne).and_then fun signToken => ?_
    refine .bind (termWith_abreast hf).weaken fun operand => .bind freshId_abreast fun id => ?_
    exact .pure_begun (by simp [Expr.relabel, ExprKind.relabel])

/-- A simple expression: a term that may have a sign, and terms added to it. -/
theorem simpleWith_abreast : Abreast r begun true (Expr.relabel r.toRelabeling) (simpleWith factor)
    (simpleWith factor') :=
  (signedTermWith_abreast hf).and_then fun first => .bind remaining_abreast fun _ =>
    operations_abreast _ (fun _ => termWith_abreast hf) _ first

omit hf in
/-- The look for a second relation only tells whether there is one; it takes nothing. -/
theorem noRelation_abreast : Abreast r begun false id noRelation noRelation := by
  refine kind_bind_abreast rfl rfl fun k => .of_abreast (.ite Iff.rfl ?_ (.pure rfl))
  exact fail_abreast fun _ => rfl

/-- At most one relation stands between two simple expressions. -/
theorem exprWith_abreast : Abreast r begun true (Expr.relabel r.toRelabeling) (exprWith factor)
    (exprWith factor') := by
  refine (simpleWith_abreast hf).and_then fun lhs => kind_bind_abreast rfl rfl fun k => .of_abreast ?_
  cases Operator.ofKindAt? .relational k with
  | none => exact .pure_begun rfl
  | some op =>
    refine .bind advance_abreast fun opToken => .bind (simpleWith_abreast hf).weaken fun rhs =>
      .bind freshId_abreast fun id => .bind noRelation_abreast fun _ => ?_
    exact .pure_begun (by simp [Expr.relabel, ExprKind.relabel])

/-! ## Factors

  What a factor is follows from its first token, and for a set with a type from one further token. -/

/-- An element of a set, or a range of elements with a span that joins both ends. -/
theorem rangeItemWith_abreast : Abreast r begun true (RangeItem.relabel r.toRelabeling)
    (rangeItemWith factor) (rangeItemWith factor') := by
  refine (exprWith_abreast hf).and_then fun lhs => .bind (accept_abreast (by decide)) fun taken =>
    .ite Iff.rfl ?_ (.pure_begun ?_)
  · refine .bind (exprWith_abreast hf).weaken fun rhs => .pure_begun ?_
    simp [RangeItem.relabel, r.span_join]
  · simp [RangeItem.relabel]

/-- The set may be empty, so that the list of elements eats nothing for certain. -/
theorem elementsWith_abreast : Abreast r begun false (List.map (RangeItem.relabel r.toRelabeling))
    (elementsWith factor) (elementsWith factor') := by
  refine kind_ite_abreast (by decide) (.of_abreast (.pure rfl)) ?_
  refine (sepBy_abreast (by decide) fun _ => rangeItemWith_abreast hf).weaken.bind ?_
  exact fun ⟨first, more⟩ => .pure rfl

/-- A set starts at its type, which has been read before, or at its brace. -/
theorem setWith_abreast (base : Option Qualident) (start : Nat) :
    Abreast r begun true (Expr.relabel r.toRelabeling) (setWith factor base start)
      (setWith factor' (base.map (Qualident.relabel r.toRelabeling)) (r.point start)) := by
  refine Abreast.within _ ((expect_abreast (by decide) (by nofun)).and_then fun opener => ?_)
  refine .bind (elementsWith_abreast hf) fun elements => .bind (close_abreast _ _).weaken fun _ =>
    .bind freshId_abreast fun id => .bind lastEnd_abreast fun stop => ?_
  exact .pure_begun (by simp [Expr.relabel, ExprKind.relabel])

/-- A pair of parentheses moves the span of what is within, and makes no node. -/
theorem parenthesesWith_abreast : AbreastAt (symbol .openParen) r begun true
    (Expr.relabel r.toRelabeling) (parenthesesWith factor) (parenthesesWith factor') := by
  refine (advance_abreastAt (by nofun)).and_then fun opener => Abreast.within _ ?_
  refine .bind (exprWith_abreast hf).weaken fun inner => .bind (close_abreast _ _).weaken fun _ =>
    .bind lastEnd_abreast fun stop => .pure_begun ?_
  -- The node within keeps its number and kind; its span is replaced.
  cases inner
  simp [Expr.relabel]

omit hf in
/-- A node whose parts are done: its number is drawn here, and its span ends at the last token. -/
theorem node_abreast (kind : ExprKind) (start : Nat) :
    Abreast r true true (Expr.relabel r.toRelabeling) (node kind start)
      (node (kind.relabel r.toRelabeling) (r.point start)) :=
  .bind freshId_abreast fun id => .bind lastEnd_abreast fun stop =>
    .pure_begun (by simp [Expr.relabel])

/-- One case for each way a factor can begin.  Only a name leaves a choice, whether a set of its type
follows. -/
theorem factorWith_abreast : Abreast r begun true (Expr.relabel r.toRelabeling) (factorWith factor)
    (factorWith factor') := by
  refine get_bind_abreast fun c c' hc => ?_
  rw [hc.token_eq, r.token_start]
  refine kind_bind_abreast rfl rfl fun k => ?_
  split
  · exact (advance_abreastAt (by nofun)).and_then fun _ => node_abreast _ _
  · exact (advance_abreastAt (by nofun)).and_then fun _ => node_abreast _ _
  · exact (advance_abreastAt (by nofun)).and_then fun _ => node_abreast _ _
  · refine .of_abreast (qualident_abreast.and_then fun name => ?_)
    exact kind_ite_abreast (by decide) (.of_abreast (setWith_abreast hf (some name) _))
      (node_abreast _ _)
  · exact .of_abreast (setWith_abreast hf none _)
  · exact parenthesesWith_abreast hf
  · exact (advance_abreastAt (by nofun)).and_then fun _ => .bind (hf _).weaken fun operand =>
      node_abreast _ _
  · exact .of_abreast (fail_abreast fun _ => rfl)

end

/-- By induction on the budget: a factor contains factors in parentheses, in sets and behind `NOT`, all
read with one unit less. -/
theorem factorAt_abreast (budget : Nat) :
    ∀ begun, Abreast r begun true (Expr.relabel r.toRelabeling) (factorAt budget) (factorAt budget) := by
  induction budget with
  | zero => exact fun _ => fail_abreast fun _ => rfl
  | succ budget ih => exact fun _ => factorWith_abreast ih

/-! ## Expressions -/

/-- Expressions go abreast: the budget is the number of tokens left, the same on both sides. -/
theorem expr_abreast : Abreast r begun true (Expr.relabel r.toRelabeling) expr expr :=
  .bind remaining_abreast fun budget => exprWith_abreast (factorAt_abreast budget)

/-- A label of a variant is read by the reader for the elements of sets. -/
theorem rangeItem_abreast :
    Abreast r begun true (RangeItem.relabel r.toRelabeling) rangeItem rangeItem :=
  .bind remaining_abreast fun budget => rangeItemWith_abreast (factorAt_abreast budget)

end Modula.Parser

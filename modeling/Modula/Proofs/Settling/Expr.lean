import Modula.Proofs.Settling
import Modula.Proofs.Tracking.Expr
/-!
# The repetitions in names and expressions settle

  There are the segments of qualified names, the operators of a level, and the nesting of factors.  A
  factor takes a token before it asks for another one, be it an opening bracket or `NOT`; what lies
  between the two, down from the expression in the bracket to its first factor, need not take any.
-/

namespace Modula.Parser

open Token.Kind (word symbol)

variable {n : Nat}

/-! ## Names -/

/-- One further segment, and more of them. -/
def segmentsTurn (more : Parser (List Ident)) : Parser (List Ident) := do
  let c ← get
  if c.kind = .symbol .period ∧ c.kindAfter.isName then
    let _ ← advance
    let i ← ident
    let more ← more
    return i :: more
  else return []

/-- A period is taken in each turn. -/
theorem segments_settle : Settles AgreeBelow segmentsTurn segments := by
  refine .of_turn (fun n => rfl) AgreeBelow.zero (fun q construct c hc => ?_) fun n budget q h => ?_
  · have hnone : ¬ (c.kind = .symbol .period ∧ c.kindAfter.isName = true) := by
      rw [Cursor.kind_eq_eof hc]
      nofun
    exact (congrArg (fun p : Parser (List Ident) => p construct c) (if_neg hnone)).symm
  · refine fun construct c hc => get_bind_eq ?_
    split
    · next hk =>
      refine advance_bind_eq (by rw [hk.1]; nofun) hc fun t => ?_
      exact .then_bind ident_tracks.forward fun i => h.bind_same _
    · rfl

/-! ## Operators -/

/-- Operations of a level, to be agreed on for every first operand. -/
def OperationsAgreeBelow (n : Nat) (p q : Expr → Parser Expr) : Prop :=
  ∀ lhs, AgreeBelow n (p lhs) (q lhs)

/-- One further operand, and more of them. -/
def operationsTurn (level : Operator.Level) (operand : Parser Expr) (more : Expr → Parser Expr)
    (lhs : Expr) : Parser Expr := do
  match Operator.ofKindAt? level (← kind) with
  | none => return lhs
  | some op =>
    let opToken ← advance
    let rhs ← operand
    let id ← freshId
    more ⟨id, .binary op opToken.span lhs rhs, ⟨lhs.span.start, rhs.span.stop⟩⟩

/-- An operator is taken in each turn, whatever its operand takes. -/
theorem operations_settle (level : Operator.Level) {operand : Parser Expr} (ho : operand.Forward) :
    Settles OperationsAgreeBelow (operationsTurn level operand) (operations level operand) := by
  refine .of_turn (fun n => rfl) (fun p q lhs => .zero _ _) (fun q lhs construct c hc => ?_)
    fun n budget q h lhs construct c hc => ?_
  · rw [operationsTurn, kind_bind_of_kind (Cursor.kind_eq_eof hc)]
    rfl
  · rw [operationsTurn, operationsTurn, kind_bind_of_kind rfl, kind_bind_of_kind rfl]
    cases hop : Operator.ofKindAt? level c.kind with
    | none => rfl
    | some op =>
      refine advance_bind_eq (ne_eof_of_operator hop) hc fun t => ?_
      exact .then_bind ho fun rhs => .then_bind freshId_tracks.forward fun id => h _

section

variable {operand operand' : Parser Expr}

/-- Operands that agree make operations that do, round by round. -/
theorem operations_agree (level : Operator.Level) (ht : operand.Forward)
    (h : AgreeBelow n operand operand') (budget : Nat) (lhs : Expr) :
    AgreeBelow n (operations level operand budget lhs) (operations level operand' budget lhs) := by
  induction budget generalizing lhs with
  | zero => exact .refl _
  | succ budget ih =>
    refine .kind_bind fun k => ?_
    cases Operator.ofKindAt? level k with
    | none => exact .refl _
    | some op =>
      exact .advance_bind fun t => h.bind ht fun rhs => .then_bind freshId_tracks.forward fun id => ih _

end

section

variable {factor factor' : Parser Expr} (ht : factor.Tracks IsFactor.words)
  (h : AgreeBelow n factor factor')

include ht h

/-- The chain from a term down to its factors, none of which need take a token. -/
theorem termWith_agree : AgreeBelow n (termWith factor) (termWith factor') :=
  h.bind ht.forward fun first => .remaining_bind fun r =>
    operations_agree .multiplicative ht.forward h r first

/-- A sign takes one, but a term without a sign does not. -/
theorem signedTermWith_agree : AgreeBelow n (signedTermWith factor) (signedTermWith factor') := by
  refine .kind_bind fun k => ?_
  cases Sign.ofKind? k with
  | none => exact termWith_agree ht h
  | some sign => exact .advance_bind fun t => (termWith_agree ht h).bind_same _

theorem simpleWith_agree : AgreeBelow n (simpleWith factor) (simpleWith factor') :=
  (signedTermWith_agree ht h).bind (signedTermWith_tracks ht).forward fun first =>
    .remaining_bind fun r =>
      operations_agree .additive (termWith_tracks ht).forward (termWith_agree ht h) r first

/-- The relation stands behind an operand on either side. -/
theorem exprWith_agree : AgreeBelow n (exprWith factor) (exprWith factor') := by
  refine (simpleWith_agree ht h).bind (simpleWith_tracks ht).forward fun lhs => .kind_bind fun k => ?_
  cases Operator.ofKindAt? .relational k with
  | none => exact .refl _
  | some op => exact .advance_bind fun t => (simpleWith_agree ht h).bind_same _

/-! ## Factors -/

/-- A bound comes first, and an ellipsis perhaps. -/
theorem rangeItemWith_agree : AgreeBelow n (rangeItemWith factor) (rangeItemWith factor') := by
  refine (exprWith_agree ht h).bind (exprWith_tracks ht).forward fun lhs => .accept_bind fun taken => ?_
  split
  · exact (exprWith_agree ht h).bind_same _
  · exact .refl _

/-- Where the closing brace stands, no element is asked for. -/
theorem elementsWith_agree : AgreeBelow n (elementsWith factor) (elementsWith factor') := by
  refine .kind_bind fun k => ?_
  split
  · exact .refl _
  · exact (sepBy_agree (rangeItemWith_tracks ht).forward (rangeItemWith_agree ht h)).bind_same _

/-- A set takes its opening brace first. -/
theorem setWith_agree (base : Option Qualident) (start : Nat) :
    AgreeBelow (n + 1) (setWith factor base start) (setWith factor' base start) :=
  .within _ (.after (expect_tracks (by nofun)) (nil_not_mem_oneToken _) fun opener =>
    (elementsWith_agree ht h).bind_same _)

/-- Factors inside of a factor are begun behind a token. -/
theorem factorWith_agree : AgreeBelow (n + 1) (factorWith factor) (factorWith factor') := by
  intro construct c hc
  refine get_bind_eq (kind_bind_eq fun k hk => ?_)
  split
  · rfl
  · rfl
  · rfl
  · refine AgreeBelow.then_bind qualident_tracks.forward (fun name => .kind_bind fun k => ?_)
      construct c hc
    split
    · exact setWith_agree ht h _ _
    · exact .refl _
  · exact setWith_agree ht h _ _ construct c hc
  · exact advance_bind_eq (by rw [hk]; nofun) hc fun opener =>
      .within _ ((exprWith_agree ht h).bind_same _)
  · exact advance_bind_eq (by rw [hk]; nofun) hc fun t => h.bind_same _
  · rfl

end

/-- Factors settle in the nesting of one in another. -/
theorem factorAt_settles : Settles AgreeBelow factorWith factorAt := by
  refine .of_turn (fun n => rfl) AgreeBelow.zero (fun q construct c hc => ?_) fun n budget q h =>
    factorWith_agree (factorAt_tracks budget) h
  rw [factorWith, factorOver, bind_of_ok (get_apply construct c), kind_bind_of_kind (Cursor.kind_eq_eof hc)]
  rfl

/-- However deep the readers of factors are stacked, an expression is read as with a budget. -/
theorem expr_settles (bottom : Parser Expr) {construct : Construct} {c : Cursor} {n : Nat}
    (hn : c.remaining < n) : expr construct c = exprWith (factorWith^[n] bottom) construct c :=
  exprWith_agree (factorAt_tracks _) (factorAt_settles.of_lt bottom hn) construct c
    (Nat.lt_succ_self _)

end Modula.Parser

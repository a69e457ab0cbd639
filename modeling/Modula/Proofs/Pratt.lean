import Modula.Parser.Pratt
import Modula.Proofs.Settling.Expr
/-!
# Binding powers are levels

  The Pratt parser and the parser with a function for every level are the same function: they read the
  same tokens, draw the same ids, build the same trees and report the same errors (`prattExpr_eq`).

      exprFrom factor 6  =  factor
      exprFrom factor 5  =  exprFrom factor 4  =  termWith factor
      exprFrom factor 2  =  simpleWith factor
      exprFrom factor 0  =  exprWith factor

  These lines are proved from the top to the bottom, since the operands of a loop are read with a higher
  power than its own.  One loop for all levels does what a loop for every level does, one after the
  other, for two reasons.

  1. **What is left behind.**  Behind the loop of a level there is no operator of this level
     (`operations_stops`).  So behind a term there is none of a multiplicative one, and behind a simple
     expression none of an additive one either.

  2. **What comes first.**  Behind a factor the common loop begins with multiplicative operators, if
     there are any, and then it goes on as it does behind a term (`operatorsFrom_eq_bind`).

  Both loops compare where a node begins with what they have read: one has kept the beginning of the
  first operand, the other one asks the left operand.  A factor begins at its first token, so there is
  no difference (`StartsHere`).
-/

namespace Modula.Parser

open Token.Kind (word symbol)

/-! ## One turn

  Both loops take turns: an operator, its right operand, and the operation that is made of them.  They
  differ in which operators they go on with and in how they read the operand. -/

section

variable {power start n : Nat} {operand : (right : Nat) → power < right → right < 7 → Parser Expr}
  {compared : Bool} {lhs : Expr} {construct : Construct} {c : Cursor} {level : Operator.Level}
  {op : Operator}

/-- An operator with its right operand, and what is done with the operation. -/
def operationTurn (op : Operator) (start : Nat) (lhs : Expr) (operand : Parser Expr)
    (more : Expr → Parser Expr) : Parser Expr := do
  let opToken ← advance
  let rhs ← operand
  let id ← freshId
  more ⟨id, .binary op opToken.span lhs rhs, ⟨start, rhs.span.stop⟩⟩

theorem operationTurn_bind {operand : Parser Expr} {more : Expr → Parser Expr}
    (f : Expr → Parser Expr) :
    operationTurn op start lhs operand more >>= f =
      operationTurn op start lhs operand fun e => more e >>= f := by
  simp only [operationTurn, bind_assoc]

/-- Turns with the same operand do the same if they go on alike behind it, where there is less to be
read. -/
theorem operationTurn_congr {operand : Parser Expr} (ho : operand.Forward) (hc : c.kind ≠ .eof)
    {more more' : Expr → Parser Expr}
    (h : ∀ rhs d, operand construct c.advance = .ok rhs d → d.remaining < c.remaining →
      ∀ e : Expr, e.span.start = start →
        more e construct { d with nextId := d.nextId + 1 } =
          more' e construct { d with nextId := d.nextId + 1 }) :
    operationTurn op start lhs operand more construct c =
      operationTurn op start lhs operand more' construct c := by
  refine bind_congr fun opToken c₁ hadvance => bind_congr fun rhs d hrun => ?_
  cases hadvance
  refine h rhs d hrun ?_ _ rfl
  exact Nat.lt_of_le_of_lt (Cursor.remaining_le_of_le (ho.le hrun)) (Cursor.remaining_advance_lt hc)

theorem operationTurn_eq_ok {operand : Parser Expr} {more : Expr → Parser Expr} {e : Expr} {d : Cursor}
    (h : operationTurn op start lhs operand more construct c = .ok e d) :
    ∃ rhs c₁ lhs', operand construct c.advance = .ok rhs c₁ ∧
      more lhs' construct { c₁ with nextId := c₁.nextId + 1 } = .ok e d := by
  obtain ⟨_, _, hadvance, h₁⟩ := bind_eq_ok.1 h
  cases hadvance
  obtain ⟨rhs, c₁, hrun, h₂⟩ := bind_eq_ok.1 h₁
  exact ⟨rhs, c₁, _, hrun, h₂⟩

/-! ### Turns of the loop of one level -/

theorem operations_of_none {operand : Parser Expr} (h : Operator.ofKindAt? level c.kind = none) :
    operations level operand n lhs construct c = .ok lhs c := by
  cases n with
  | zero => rfl
  | succ n =>
    rw [operations, kind_bind_of_kind rfl, h]
    rfl

theorem operations_turn {operand : Parser Expr} (h : Operator.ofKindAt? level c.kind = some op) :
    operations level operand (n + 1) lhs construct c =
      operationTurn op lhs.span.start lhs operand (operations level operand n) construct c := by
  rw [operations, kind_bind_of_kind rfl, h]
  rfl

/-! ### Turns of the common loop

  The loop for all levels compares the power of the operator with the one it was started with. -/

theorem ofKind?_of_ofKindAt? {k : Token.Kind} (h : Operator.ofKindAt? level k = some op) :
    Operator.ofKind? k = some op ∧ op.level = level := by
  obtain ⟨hop, hlevel⟩ := Option.filter_eq_some_iff.1 h
  exact ⟨hop, beq_iff_eq.1 hlevel⟩

/-- The loop is over where there is no operator of a level that binds enough. -/
theorem operatorsFrom_of_none
    (h : ∀ level, power ≤ level.leftPower → Operator.ofKindAt? level c.kind = none) :
    operatorsFrom power operand start n compared lhs construct c = .ok lhs c := by
  cases n with
  | zero => rfl
  | succ n =>
    rw [operatorsFrom, kind_bind_of_kind rfl]
    cases hop : Operator.ofKind? c.kind with
    | none => rfl
    | some op =>
      -- An operator that stands there binds too weakly, or it would be one of those excluded.
      have hless : op.level.leftPower < power := by
        refine Nat.lt_of_not_le fun hbinds => ?_
        have hnone := h op.level hbinds
        rw [Operator.ofKindAt?, hop, Option.filter_eq_none_iff] at hnone
        exact hnone op rfl (beq_self_eq_true _)
      dsimp only
      rw [dif_pos hless]
      rfl

theorem operatorsFrom_turn {operand : Nat → Parser Expr}
    (h : Operator.ofKindAt? level c.kind = some op) (hlevel : level ≠ .relational)
    (hbinds : power ≤ level.leftPower) :
    operatorsFrom power (fun right _ _ => operand right) start (n + 1) compared lhs construct c =
      operationTurn op start lhs (operand level.rightPower)
        (operatorsFrom power (fun right _ _ => operand right) start n compared) construct c := by
  obtain ⟨hop, rfl⟩ := ofKind?_of_ofKindAt? h
  have hrelation : op.isRelation = false := beq_eq_false_iff_ne.2 hlevel
  rw [operatorsFrom, kind_bind_of_kind rfl, hop]
  dsimp only
  rw [dif_neg (Nat.not_lt.2 hbinds), hrelation, Bool.or_false]
  rfl

/-- From now on the loop knows that it has read a relation. -/
theorem operatorsFrom_relation {operand : Nat → Parser Expr}
    (h : Operator.ofKindAt? .relational c.kind = some op) (hbinds : power ≤ 1) :
    operatorsFrom power (fun right _ _ => operand right) start (n + 1) false lhs construct c =
      operationTurn op start lhs (operand 2)
        (operatorsFrom power (fun right _ _ => operand right) start n true) construct c := by
  obtain ⟨hop, hlevel⟩ := ofKind?_of_ofKindAt? h
  have hrelation : op.isRelation = true := beq_iff_eq.2 hlevel
  have hbinds' : ¬ Operator.Level.relational.leftPower < power := Nat.not_lt.2 hbinds
  rw [operatorsFrom, kind_bind_of_kind rfl, hop]
  dsimp only
  rw [hlevel, dif_neg hbinds', hrelation]
  rfl

theorem operatorsFrom_chained (h : Operator.ofKindAt? .relational c.kind = some op)
    (hbinds : power ≤ 1) :
    operatorsFrom power operand start (n + 1) true lhs construct c =
      fail (fun _ => .chainedRelation) construct c := by
  obtain ⟨hop, hlevel⟩ := ofKind?_of_ofKindAt? h
  have hrelation : op.isRelation = true := beq_iff_eq.2 hlevel
  have hbinds' : ¬ op.level.leftPower < power := by
    rw [hlevel]
    exact Nat.not_lt.2 hbinds
  rw [operatorsFrom, kind_bind_of_kind rfl, hop]
  dsimp only
  rw [dif_neg hbinds', hrelation]
  rfl

end

/-! ## What is left behind

  Each loop stops in front of an operator that is none of its own.  This is what lets a loop of several
  levels be taken apart: a level is over when the loop sees an operator of another one. -/

/-- Behind the operations of a level there is no operator of this level. -/
theorem operations_stops {level : Operator.Level} {operand : Parser Expr} (ho : operand.Forward)
    {n : Nat} {lhs e : Expr} {construct : Construct} {c d : Cursor} (hn : c.remaining ≤ n)
    (h : operations level operand n lhs construct c = .ok e d) :
    Operator.ofKindAt? level d.kind = none := by
  -- By induction on the tokens that are left: each operator takes one.
  induction n generalizing lhs c with
  | zero =>
    cases h
    rw [Cursor.kind_eq_eof (Nat.lt_succ_of_le hn)]
    rfl
  | succ n ih =>
    cases hop : Operator.ofKindAt? level c.kind with
    | none =>
      rw [operations_of_none hop] at h
      cases h
      exact hop
    | some op =>
      rw [operations_turn hop] at h
      obtain ⟨rhs, c₁, lhs', hrun, hmore⟩ := operationTurn_eq_ok h
      have hlt := Cursor.remaining_advance_lt (ne_eof_of_operator hop)
      have hle := Cursor.remaining_le_of_le (ho.le hrun)
      refine ih ?_ hmore
      show c₁.remaining ≤ n
      omega

/-- Two budgets do the same if both are long enough. -/
theorem operations_budget {level : Operator.Level} {operand : Parser Expr} (ho : operand.Forward)
    {n m : Nat} {lhs : Expr} {construct : Construct} {c : Cursor} (hn : c.remaining ≤ n)
    (hm : c.remaining ≤ m) :
    operations level operand n lhs construct c = operations level operand m lhs construct c := by
  have hsettles := operations_settle level ho
  have hleft := hsettles.of_lt pure (Nat.lt_succ_of_le (Nat.le_max_left n m)) lhs construct c
    (Nat.lt_succ_of_le hn)
  have hright := hsettles.of_lt pure (Nat.lt_succ_of_le (Nat.le_max_right n m)) lhs construct c
    (Nat.lt_succ_of_le hm)
  exact hleft.trans hright.symm

section

variable {factor : Parser Expr} (ht : factor.Tracks IsFactor.words) {construct : Construct}
  {c d : Cursor} {e : Expr}

include ht

theorem termWith_stops (h : termWith factor construct c = .ok e d) :
    Operator.ofKindAt? .multiplicative d.kind = none := by
  obtain ⟨first, c₁, -, h₁⟩ := bind_eq_ok.1 h
  obtain ⟨_, _, hb, h₂⟩ := bind_eq_ok.1 h₁
  cases hb
  exact operations_stops ht.forward le_rfl h₂

theorem signedTermWith_stops (h : signedTermWith factor construct c = .ok e d) :
    Operator.ofKindAt? .multiplicative d.kind = none := by
  obtain ⟨_, hq, h₁⟩ := kind_bind_eq_ok h
  split at hq <;> subst hq
  · exact termWith_stops ht h₁
  · obtain ⟨_, c₁, -, h₂⟩ := bind_eq_ok.1 h₁
    obtain ⟨operand, c₂, hrun, h₃⟩ := bind_eq_ok.1 h₂
    have hstops := termWith_stops ht hrun
    cases h₃
    exact hstops

/-- If there is no multiplicative operator behind the first term, there is none behind the last one. -/
theorem terms_stop {n : Nat} {lhs : Expr} (hc : Operator.ofKindAt? .multiplicative c.kind = none)
    (h : operations .additive (termWith factor) n lhs construct c = .ok e d) :
    Operator.ofKindAt? .multiplicative d.kind = none := by
  -- By induction on the sum: each operand has left no multiplicative operator behind it.
  induction n generalizing lhs c with
  | zero =>
    cases h
    exact hc
  | succ n ih =>
    cases hop : Operator.ofKindAt? .additive c.kind with
    | none =>
      rw [operations_of_none hop] at h
      cases h
      exact hc
    | some op =>
      rw [operations_turn hop] at h
      obtain ⟨rhs, c₁, lhs', hrun, hmore⟩ := operationTurn_eq_ok h
      have hstops := termWith_stops ht hrun
      refine ih ?_ hmore
      exact hstops

theorem simpleWith_stops (h : simpleWith factor construct c = .ok e d) :
    Operator.ofKindAt? .multiplicative d.kind = none ∧
      Operator.ofKindAt? .additive d.kind = none := by
  obtain ⟨first, c₁, hfirst, h₁⟩ := bind_eq_ok.1 h
  obtain ⟨_, _, hb, h₂⟩ := bind_eq_ok.1 h₁
  cases hb
  constructor
  · exact terms_stop ht (signedTermWith_stops ht hfirst) h₂
  · exact operations_stops (termWith_tracks ht).forward le_rfl h₂

end

/-! ## Factors and terms

  The highest powers come first.  The loop that goes on with multiplicative operators only is that of a
  term, and the operand of an additive operator is read by it. -/

/-- What the parser builds begins where the parser does. -/
def StartsHere (p : Parser Expr) : Prop :=
  ∀ ⦃construct c e d⦄, p construct c = .ok e d → e.span.start = c.token.span.start

section

variable {power : Nat} {term : power ≤ signPower → Parser Expr} {factor : Parser Expr}

theorem firstFrom_of_lt (h : signPower < power) : firstFrom power term factor = factor :=
  dif_neg (Nat.not_le.2 h)

theorem firstFrom_unsigned {construct : Construct} {c : Cursor} (hpower : power ≤ signPower)
    (hsign : Sign.ofKind? c.kind = none) :
    firstFrom power term factor construct c = factor construct c := by
  rw [firstFrom, dif_pos hpower, kind_bind_of_kind rfl, hsign]

end

/-- No operator binds as much as the operand of a multiplicative one is bound. -/
theorem exprFrom_six (factor : Parser Expr) : exprFrom factor 6 = factor := by
  funext construct c
  rw [exprFrom, bind_of_ok (get_apply construct c), firstFrom_of_lt (by decide)]
  cases hfirst : factor construct c with
  | error e d => rw [bind_of_error hfirst]
  | ok first d =>
    rw [bind_of_ok hfirst, bind_of_ok (remaining_apply construct d)]
    refine operatorsFrom_of_none fun level hbinds => ?_
    cases level <;> exact absurd hbinds (by decide)

section

variable {factor : Parser Expr} (ht : factor.Tracks IsFactor.words) (hs : StartsHere factor)
  {power : Nat}

include ht

/-- A loop for operators above the additive ones is the loop of a term. -/
theorem operatorsFrom_term (hpower : 3 < power) (hpower' : power ≤ 5) (n : Nat) (compared : Bool)
    (lhs : Expr) (construct : Construct) (c : Cursor) :
    operatorsFrom power (fun right _ _ => exprFrom factor right) lhs.span.start n compared lhs
        construct c =
      operations .multiplicative factor n lhs construct c := by
  -- Both loops take the same turns, one operator at a time.
  induction n generalizing compared lhs c with
  | zero => rfl
  | succ n ih =>
    cases hop : Operator.ofKindAt? .multiplicative c.kind with
    | none =>
      rw [operations_of_none hop]
      refine operatorsFrom_of_none fun level hbinds => ?_
      -- Of the operators that bind tightly enough only the multiplicative ones are left.
      cases level with
      | relational => exact absurd (Nat.le_trans hpower hbinds) (by decide)
      | additive => exact absurd (Nat.le_trans hpower hbinds) (by decide)
      | multiplicative => exact hop
    | some op =>
      rw [operatorsFrom_turn hop nofun hpower', operations_turn hop, Operator.Level.rightPower,
        exprFrom_six]
      refine operationTurn_congr ht.forward (ne_eof_of_operator hop) fun rhs d _ _ e he => ?_
      rw [← he]
      exact ih compared e _

include hs in
/-- The operand of an additive operator, and of a sign, is a term. -/
theorem exprFrom_term (hpower : 3 < power) (hpower' : power ≤ 5) :
    exprFrom factor power = termWith factor := by
  funext construct c
  rw [exprFrom, bind_of_ok (get_apply construct c), firstFrom_of_lt hpower, termWith]
  refine bind_congr fun first d hfirst => ?_
  rw [← hs hfirst]
  exact operatorsFrom_term ht hpower hpower' _ false first construct d

/-! ## Simple expressions

  With additive operators the loop reads terms as its operands, as was just shown, and it makes a term of
  what is behind the first factor before it makes a sum. -/

include hs in
/-- Behind a term, a loop for additive operators is the loop of a simple expression. -/
theorem operatorsFrom_simple {n : Nat} {compared : Bool} {lhs : Expr} {construct : Construct} {c : Cursor}
    (hc : Operator.ofKindAt? .multiplicative c.kind = none) :
    operatorsFrom 2 (fun right _ _ => exprFrom factor right) lhs.span.start n compared lhs construct c =
      operations .additive (termWith factor) n lhs construct c := by
  -- Both loops take the same turns, one operator at a time.
  induction n generalizing compared lhs c with
  | zero => rfl
  | succ n ih =>
    cases hop : Operator.ofKindAt? .additive c.kind with
    | none =>
      rw [operations_of_none hop]
      refine operatorsFrom_of_none fun level hbinds => ?_
      cases level with
      | relational => exact absurd hbinds (by decide)
      | additive => exact hop
      | multiplicative => exact hc
    | some op =>
      rw [operatorsFrom_turn hop nofun (by decide), operations_turn hop, Operator.Level.rightPower,
        exprFrom_term ht hs (by decide) (by decide)]
      refine operationTurn_congr (termWith_tracks ht).forward (ne_eof_of_operator hop)
        fun rhs d hrun _ e he => ?_
      -- The operand is a whole term, so no multiplicative operator follows it.
      have hstops : Operator.ofKindAt? .multiplicative d.kind = none := termWith_stops ht hrun
      rw [← he]
      exact ih hstops

/-- What a loop does behind a term, it does behind a factor as well, with multiplicative operators in
front. -/
theorem operatorsFrom_eq_bind (hpower : power ≤ signPower) {rest : Expr → Parser Expr}
    (hrest : ∀ {n : Nat} {lhs : Expr} {construct : Construct} {c : Cursor},
      Operator.ofKindAt? .multiplicative c.kind = none → c.remaining ≤ n →
        operatorsFrom power (fun right _ _ => exprFrom factor right) lhs.span.start n false lhs
          construct c = rest lhs construct c)
    {n : Nat} {lhs : Expr} {construct : Construct} {c : Cursor} (hn : c.remaining ≤ n) :
    operatorsFrom power (fun right _ _ => exprFrom factor right) lhs.span.start n false lhs construct c =
      (operations .multiplicative factor n lhs >>= rest) construct c := by
  -- both loops take the multiplicative operators one by one, and `rest` begins where there are no more
  induction n generalizing lhs c with
  | zero =>
    have hc : Operator.ofKindAt? .multiplicative c.kind = none := by
      rw [Cursor.kind_eq_eof (Nat.lt_succ_of_le hn)]
      rfl
    rw [bind_of_ok (operations_of_none hc), hrest hc hn]
  | succ n ih =>
    cases hop : Operator.ofKindAt? .multiplicative c.kind with
    | none => rw [bind_of_ok (operations_of_none hop), hrest hop hn]
    | some op =>
      rw [operatorsFrom_turn hop nofun (Nat.le_trans hpower (by decide)), Operator.Level.rightPower,
        exprFrom_six, bind_apply, operations_turn hop, ← bind_apply, operationTurn_bind]
      refine operationTurn_congr ht.forward (ne_eof_of_operator hop) fun rhs d _ hlt e he => ?_
      rw [← he]
      refine ih ?_
      show d.remaining ≤ n
      omega

include hs

/-- A sign covers a term. -/
theorem firstFrom_signed (hpower : power ≤ signPower) {construct : Construct} {c : Cursor} {sign : Sign}
    (hsign : Sign.ofKind? c.kind = some sign) :
    firstFrom power (fun _ => exprFrom factor termPower) factor construct c =
      signedTermWith factor construct c := by
  rw [firstFrom, dif_pos hpower, kind_bind_of_kind rfl, signedTermWith, kind_bind_of_kind rfl, hsign,
    exprFrom_term ht hs (by decide) (by decide)]

/-- An expression that may begin with a sign is a first term and what comes behind it. -/
theorem exprFrom_eq_bind (hpower : power ≤ signPower) {rest : Expr → Parser Expr}
    (hrest : ∀ {n : Nat} {lhs : Expr} {construct : Construct} {c : Cursor},
      Operator.ofKindAt? .multiplicative c.kind = none → c.remaining ≤ n →
        operatorsFrom power (fun right _ _ => exprFrom factor right) lhs.span.start n false lhs
          construct c = rest lhs construct c) :
    exprFrom factor power = signedTermWith factor >>= rest := by
  funext construct c
  rw [exprFrom, bind_of_ok (get_apply construct c)]
  -- Without a sign a sum begins with a term, which begins with a factor.
  cases hsign : Sign.ofKind? c.kind with
  | none =>
    have hfirst : signedTermWith factor construct c = termWith factor construct c := by
      rw [signedTermWith, kind_bind_of_kind rfl, hsign]
    rw [bind_apply, firstFrom_unsigned hpower hsign, ← bind_apply, bind_apply (signedTermWith factor),
      hfirst, ← bind_apply, termWith, bind_assoc]
    refine bind_congr fun first d hrun => ?_
    rw [← hs hrun]
    exact operatorsFrom_eq_bind ht hpower hrest le_rfl
  | some sign =>
    rw [bind_apply, firstFrom_signed ht hs hpower hsign, ← bind_apply]
    refine bind_congr fun first d hrun => ?_
    -- With a sign the expression starts at the sign, and so does the first operand.
    have hstart : first.span.start = c.token.span.start := by
      rw [signedTermWith, kind_bind_of_kind rfl, hsign] at hrun
      obtain ⟨_, _, hadvance, h₁⟩ := bind_eq_ok.1 hrun
      cases hadvance
      obtain ⟨operand, _, -, h₂⟩ := bind_eq_ok.1 h₁
      cases h₂
      rfl
    rw [← hstart]
    exact hrest (signedTermWith_stops ht hrun) le_rfl

/-- The operand of a relation is a simple expression. -/
theorem exprFrom_simple : exprFrom factor 2 = simpleWith factor := by
  refine exprFrom_eq_bind ht hs (by decide) fun hc hn => ?_
  rw [operatorsFrom_simple ht hs hc]
  exact operations_budget (termWith_tracks ht).forward hn le_rfl

/-! ## Whole expressions

  A relation is read once, and the flag of the loop tells that it has been.  A second one is an error in
  both parsers, with the same token. -/

omit ht hs in
/-- What may come behind a simple expression: one relation with a further simple expression. -/
def relationWith (factor : Parser Expr) (lhs : Expr) : Parser Expr := do
  match Operator.ofKindAt? .relational (← kind) with
  | none => return lhs
  | some op =>
    operationTurn op lhs.span.start lhs (simpleWith factor) fun e => do
      noRelation
      return e

omit ht hs in
/-- A loop that has read a relation is over behind its second operand, or a second relation is refused. -/
theorem operatorsFrom_compared {operand : (right : Nat) → 0 < right → right < 7 → Parser Expr}
    {start n : Nat} {lhs : Expr} {construct : Construct} {c : Cursor}
    (hmul : Operator.ofKindAt? .multiplicative c.kind = none)
    (hadd : Operator.ofKindAt? .additive c.kind = none) (hn : c.remaining ≤ n) :
    operatorsFrom 0 operand start n true lhs construct c =
      (do noRelation; return lhs : Parser Expr) construct c := by
  rw [bind_apply, noRelation, kind_bind_of_kind rfl]
  -- After one relation a second one is refused, and no other operator is in sight.
  cases hop : Operator.ofKindAt? .relational c.kind with
  | none =>
    refine operatorsFrom_of_none fun level _ => ?_
    cases level with
    | relational => exact hop
    | additive => exact hadd
    | multiplicative => exact hmul
  | some op =>
    cases n with
    | zero => exact absurd (Cursor.kind_eq_eof (Nat.lt_succ_of_le hn)) (ne_eof_of_operator hop)
    | succ n => exact operatorsFrom_chained hop (Nat.zero_le 1)

/-- Behind a term, a loop for all operators is the loop of a simple expression and a relation. -/
theorem operatorsFrom_whole {n : Nat} {lhs : Expr} {construct : Construct} {c : Cursor}
    (hc : Operator.ofKindAt? .multiplicative c.kind = none) (hn : c.remaining ≤ n) :
    operatorsFrom 0 (fun right _ _ => exprFrom factor right) lhs.span.start n false lhs construct c =
      (operations .additive (termWith factor) n lhs >>= relationWith factor) construct c := by
  induction n generalizing lhs c with
  | zero =>
    have heof := Cursor.kind_eq_eof (Nat.lt_succ_of_le hn)
    rw [bind_of_ok (operations_of_none (by rw [heof]; rfl)), relationWith, kind_bind_of_kind heof]
    rfl
  | succ n ih =>
    cases hadd : Operator.ofKindAt? .additive c.kind with
    | some op =>
      rw [operatorsFrom_turn hadd nofun (Nat.zero_le _), Operator.Level.rightPower,
        exprFrom_term ht hs (by decide) (by decide), bind_apply, operations_turn hadd, ← bind_apply,
        operationTurn_bind]
      refine operationTurn_congr (termWith_tracks ht).forward (ne_eof_of_operator hadd)
        fun rhs d hrun hlt e he => ?_
      have hstops : Operator.ofKindAt? .multiplicative d.kind = none := termWith_stops ht hrun
      rw [← he]
      refine ih hstops ?_
      show d.remaining ≤ n
      omega
    | none =>
      rw [bind_of_ok (operations_of_none hadd), relationWith, kind_bind_of_kind rfl]
      cases hrel : Operator.ofKindAt? .relational c.kind with
      | none =>
        refine operatorsFrom_of_none fun level _ => ?_
        cases level with
        | relational => exact hrel
        | additive => exact hadd
        | multiplicative => exact hc
      | some op =>
        rw [operatorsFrom_relation hrel (Nat.zero_le 1), exprFrom_simple ht hs]
        -- there is nothing but a relation that could go on behind the second operand
        refine operationTurn_congr (simpleWith_tracks ht).forward (ne_eof_of_operator hrel)
          fun rhs d hrun hlt e he => ?_
        obtain ⟨hmul', hadd'⟩ := simpleWith_stops ht hrun
        refine operatorsFrom_compared hmul' hadd' ?_
        show d.remaining ≤ n
        omega

/-- With the power 0, an expression is read as a whole. -/
theorem exprFrom_whole : exprFrom factor 0 = exprWith factor := by
  have hlevels : exprWith factor = (do
      let first ← signedTermWith factor
      let lhs ← operations .additive (termWith factor) (← remaining) first
      relationWith factor lhs) := by
    have hexpr : exprWith factor = simpleWith factor >>= relationWith factor := rfl
    simp only [hexpr, simpleWith, bind_assoc]
  rw [hlevels]
  refine exprFrom_eq_bind ht hs (by decide) fun hc hn => ?_
  rw [operatorsFrom_whole ht hs hc hn, bind_of_ok (remaining_apply _ _), bind_apply,
    operations_budget (termWith_tracks ht).forward hn le_rfl, ← bind_apply]

end

/-! ## The parser

  Factors may hold expressions, so both parsers are compared by induction on the budget. -/

theorem factorAt_startsHere (budget : Nat) : StartsHere (factorAt budget) := by
  intro construct c e d h
  obtain ⟨ts, htakes, hforms⟩ := factorAt_builds budget h
  obtain ⟨hne, hspan⟩ : ts ≠ [] ∧ e.span = extent ts := hforms.spans
  rw [hspan, ← htakes.extent_eq hne]

theorem prattFactorAt_eq (budget : Nat) : prattFactorAt budget = factorAt budget := by
  induction budget with
  | zero => rfl
  | succ budget ih =>
    rw [prattFactorAt, ih, exprFrom_whole (factorAt_tracks budget) (factorAt_startsHere budget)]
    rfl

/-- The two parsers of expressions are one. -/
theorem prattExpr_eq : prattExpr = expr := by
  funext construct c
  rw [prattExpr, expr, bind_of_ok (remaining_apply construct c), bind_of_ok (remaining_apply construct c),
    prattFactorAt_eq, exprFrom_whole (factorAt_tracks _) (factorAt_startsHere _)]

end Modula.Parser

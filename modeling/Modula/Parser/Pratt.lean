import Modula.Parser.Expr
/-!
# Reading expressions by binding powers

  The grammar of expressions has a level for every kind of operator, and a function for every level in
  `Modula.Parser.Expr`.  A Pratt parser reads the same expressions with one loop for all levels.  Each
  operator has two binding powers, and an operand is read with the power that its left neighbour has on
  it: operators that bind less belong to somebody else.

                       left   right
      relational         1      2
      additive           3      4
      multiplicative     5      6

  The right power is the larger one, so that the next operator of the same level is left alone, and
  operators associate to the left.  Three things are not told by powers of operators.

  1. **Signs.** An expression may begin with a sign up to the power of a term (`signPower`), and the
     sign then covers operators down to those of a term (`termPower`).
  2. **Relations.** They do not chain: a loop that has read one refuses a second one.
  3. **Factors.** They contain whole expressions, and the knot is tied on a budget as it is there.
-/

namespace Modula

namespace Operator.Level

/-- How much an operator of the level binds the operand on its left. -/
def leftPower : Operator.Level → Nat
  | .relational => 1
  | .additive => 3
  | .multiplicative => 5

/-- How much an operator of the level binds the operand on its right. -/
def rightPower : Operator.Level → Nat
  | .relational => 2
  | .additive => 4
  | .multiplicative => 6

theorem leftPower_lt_rightPower (level : Operator.Level) : level.leftPower < level.rightPower := by
  cases level <;> decide

theorem rightPower_lt (level : Operator.Level) : level.rightPower < 7 := by
  cases level <;> decide

end Operator.Level

namespace Parser

/-- What is read with at most this power may begin with a sign. -/
def signPower : Nat := 3

/-- The power with which a sign holds the term behind it. -/
def termPower : Nat := 5

/-- A sign with the term behind it, if there is one and it may stand here, or else a factor. -/
def firstFrom (power : Nat) (term : power ≤ signPower → Parser Expr) (factor : Parser Expr) :
    Parser Expr :=
  if hpower : power ≤ signPower then do
    match Sign.ofKind? (← kind) with
    | none => factor
    | some sign =>
      let signToken ← advance
      let operand ← term hpower
      let id ← freshId
      return ⟨id, .signed sign operand, ⟨signToken.span.start, operand.span.stop⟩⟩
  else factor

/-- Further operators that bind their left operand with at least a power, each with a further operand.
`compared` tells whether there has been a relation among them. -/
def operatorsFrom (power : Nat) (operand : (right : Nat) → power < right → right < 7 → Parser Expr)
    (start : Nat) : (budget : Nat) → (compared : Bool) → Expr → Parser Expr
  | 0, _, lhs => return lhs
  | budget + 1, compared, lhs => do
    match Operator.ofKind? (← kind) with
    | none => return lhs
    | some op =>
      if hpower : op.level.leftPower < power then return lhs
      else if op.isRelation && compared then fail fun _ => .chainedRelation
      else
        let opToken ← advance
        let rhs ← operand op.level.rightPower
          (Nat.lt_of_le_of_lt (Nat.not_lt.1 hpower) op.level.leftPower_lt_rightPower)
          op.level.rightPower_lt
        let id ← freshId
        operatorsFrom power operand start budget (compared || op.isRelation)
          ⟨id, .binary op opToken.span lhs rhs, ⟨start, rhs.span.stop⟩⟩

/-- An expression whose operators bind with at least a power. -/
def exprFrom (factor : Parser Expr) (power : Nat) : Parser Expr := do
  let start := (← get).token.span.start
  let first ← firstFrom power (fun _ => exprFrom factor termPower) factor
  operatorsFrom power (fun right _ _ => exprFrom factor right) start (← remaining) false first
termination_by 7 - power
decreasing_by
  · next hpower =>
    simp only [signPower, termPower] at hpower ⊢
    omega
  · omega

/-- A factor that is nested no deeper than a budget, with its expressions read by binding powers. -/
def prattFactorAt : (budget : Nat) → Parser Expr
  | 0 => fail .expectedExpression
  | budget + 1 => factorOver (exprFrom (prattFactorAt budget) 0) (prattFactorAt budget)

/-- An expression, read by binding powers. -/
def prattExpr : Parser Expr := do
  let budget ← remaining
  exprFrom (prattFactorAt budget) 0

end Parser

end Modula

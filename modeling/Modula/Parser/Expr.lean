import Modula.Parser.Name
import Modula.Tree.Expr
/-!
# Reading expressions

      expression  =  simple [relation simple]
      simple      =  ["+" | "-"] term {addOperator term}
      term        =  factor {mulOperator factor}
      factor      =  integer | real | string | qualident | set
                  |  "(" expression ")" | "NOT" factor
      set         =  [qualident] "{" [element {"," element}] "}"
      element     =  expression [".." expression]

  1. **Operators.** One function, `operations`, reads the operators of a level from left to right,
     each time with a further operand.  A sign covers the first term as a whole.  Relations do not
     chain: a second one is an error of its own.
  2. **Nesting.** Expressions are written over a reader of factors that is not named yet (`exprWith`),
     factors over readers of both (`factorOver`, `factorWith`), and the knot is tied last: `factorAt`
     reads factors that are nested no deeper than a budget.  Every level of nesting takes a token, so
     the number of tokens is budget enough; a budget of 0 means that nothing is left to be read, and
     then there is no factor.
  3. **Ids.** A node draws its id when it is complete, after all of its parts.
-/

namespace Modula.Parser

/-! ## Operators -/

/-- Further operands of one level, each behind an operator, applied from left to right. -/
def operations (level : Operator.Level) (operand : Parser Expr) :
    (budget : Nat) → Expr → Parser Expr
  | 0, lhs => return lhs
  | budget + 1, lhs => do
    match Operator.ofKindAt? level (← kind) with
    | none => return lhs
    | some op =>
      let opToken ← advance
      let rhs ← operand
      let id ← freshId
      operations level operand budget
        ⟨id, .binary op opToken.span lhs rhs, ⟨lhs.span.start, rhs.span.stop⟩⟩

/-- `factor {mulOperator factor}` -/
def termWith (factor : Parser Expr) : Parser Expr := do
  let first ← factor
  operations .multiplicative factor (← remaining) first

/-- A sign with the term behind it, or a term alone. -/
def signedTermWith (factor : Parser Expr) : Parser Expr := do
  match Sign.ofKind? (← kind) with
  | none => termWith factor
  | some sign =>
    let signToken ← advance
    let operand ← termWith factor
    let id ← freshId
    return ⟨id, .signed sign operand, ⟨signToken.span.start, operand.span.stop⟩⟩

/-- `["+" | "-"] term {addOperator term}` -/
def simpleWith (factor : Parser Expr) : Parser Expr := do
  let first ← signedTermWith factor
  operations .additive (termWith factor) (← remaining) first

/-- Fails if a relation follows. -/
def noRelation : Parser Unit := do
  if (Operator.ofKindAt? .relational (← kind)).isSome then fail fun _ => .chainedRelation

/-- `simple [relation simple]` -/
def exprWith (factor : Parser Expr) : Parser Expr := do
  let lhs ← simpleWith factor
  match Operator.ofKindAt? .relational (← kind) with
  | none => return lhs
  | some op =>
    let opToken ← advance
    let rhs ← simpleWith factor
    let id ← freshId
    -- the comparison is complete, and has its id, before a second one is refused
    noRelation
    return ⟨id, .binary op opToken.span lhs rhs, ⟨lhs.span.start, rhs.span.stop⟩⟩

/-! ## Factors -/

/-- `expression [".." expression]` -/
def rangeItemOver (expr : Parser Expr) : Parser RangeItem := do
  let lhs ← expr
  if ← accept (.symbol .ellipsis) then
    let rhs ← expr
    return ⟨lhs, some rhs, lhs.span.join rhs.span⟩
  else return ⟨lhs, none, lhs.span⟩

/-- Elements of a set, up to the closing brace. -/
def elementsOver (expr : Parser Expr) : Parser (List RangeItem) := do
  if (← kind) = Bracket.setConstructor.closer then return []
  else
    let (first, more) ← sepBy (.symbol .comma) (rangeItemOver expr)
    return first :: more

/-- A set constructor that begins at `start`, from its opening brace. -/
def setOver (expr : Parser Expr) (base : Option Qualident) (start : Nat) : Parser Expr :=
  within .setConstructor do
    let opener ← expect Bracket.setConstructor.opener
    let elements ← elementsOver expr
    close .setConstructor opener
    let id ← freshId
    return ⟨id, .set base elements, ⟨start, ← lastEnd⟩⟩

/-- An expression in parentheses; it takes their span. -/
def parenthesesOver (expr : Parser Expr) : Parser Expr := do
  let opener ← advance
  within .parentheses do
    let inner ← expr
    close .parentheses opener
    return { inner with span := ⟨opener.span.start, ← lastEnd⟩ }

/-- The node of a factor that begins at `start` and has just been read. -/
def node (kind : ExprKind) (start : Nat) : Parser Expr := do
  let id ← freshId
  return ⟨id, kind, ⟨start, ← lastEnd⟩⟩

/-- A factor, given readers of the expressions and of the factors inside it. -/
def factorOver (expr factor : Parser Expr) : Parser Expr := do
  let start := (← get).token.span.start
  match ← kind with
  | .integer literal =>
    let _ ← advance
    node (.integer literal) start
  | .real text =>
    let _ ← advance
    node (.real text) start
  | .string content =>
    let _ ← advance
    node (.string content) start
  | .name _ =>
    let name ← qualident
    if (← kind) = Bracket.setConstructor.opener then setOver expr (some name) start
    else node (.designator name) start
  | .symbol .openBrace => setOver expr none start
  | .symbol .openParen => parenthesesOver expr
  | .word .NOT =>
    let _ ← advance
    let operand ← factor
    node (.not operand) start
  | _ => fail .expectedExpression

/-- One expression or a range, given a reader of factors. -/
def rangeItemWith (factor : Parser Expr) : Parser RangeItem := rangeItemOver (exprWith factor)

/-- Elements of a set, given a reader of factors. -/
def elementsWith (factor : Parser Expr) : Parser (List RangeItem) := elementsOver (exprWith factor)

/-- A set constructor, given a reader of factors. -/
def setWith (factor : Parser Expr) (base : Option Qualident) (start : Nat) : Parser Expr :=
  setOver (exprWith factor) base start

/-- An expression in parentheses, given a reader of factors. -/
def parenthesesWith (factor : Parser Expr) : Parser Expr := parenthesesOver (exprWith factor)

/-- A factor, given a reader of the factors inside it. -/
def factorWith (factor : Parser Expr) : Parser Expr := factorOver (exprWith factor) factor

/-- A factor that is nested no deeper than a budget. -/
def factorAt : (budget : Nat) → Parser Expr
  | 0 => fail .expectedExpression
  | budget + 1 => factorWith (factorAt budget)

/-! ## Expressions -/

/-- An expression. -/
def expr : Parser Expr := do
  let budget ← remaining
  exprWith (factorAt budget)

/-- One expression or a range, as a case label. -/
def rangeItem : Parser RangeItem := do
  let budget ← remaining
  rangeItemWith (factorAt budget)

end Modula.Parser

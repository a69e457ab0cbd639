import Modula.Tree.Name
import Modula.Tree.Operator
/-!
# Expressions

  One type of expression serves constants, bounds of subranges, elements of sets and case labels.
  Every expression has an id, which is unique within a tree, and the span that it covers.
  Parentheses make no node; they widen the span of the expression inside them.
-/

namespace Modula

mutual

/-- An expression. -/
structure Expr where
  id : Nat
  kind : ExprKind
  span : Span
deriving Repr

/-- What an expression is. -/
inductive ExprKind where
  | integer (literal : IntLiteral)
  | real (text : String)
  | string (content : String)
  /-- A named value, such as `x` or `M.x`. -/
  | designator (name : Qualident)
  /-- A set constructor with an optional set type in front. -/
  | set (base : Option Qualident) (elements : List RangeItem)
  /-- A logical negation. -/
  | not (operand : Expr)
  /-- A sign in front of a term. -/
  | signed (sign : Sign) (operand : Expr)
  | binary (op : Operator) (opSpan : Span) (lhs rhs : Expr)
deriving Repr

/-- One expression, or the range between two. -/
structure RangeItem where
  lhs : Expr
  rhs : Option Expr
  span : Span
deriving Repr

end

/-- Whether the item has two ends. -/
def RangeItem.isRange (r : RangeItem) : Bool := r.rhs.isSome

end Modula

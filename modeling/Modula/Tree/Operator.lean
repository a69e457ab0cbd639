import Modula.Token
/-!
# Operators of expressions

  Binary operators come in three levels, and a tighter level binds before a looser one:

      relational       =  #  <  <=  >  >=  IN
      additive         +  -  OR
      multiplicative   *  /  DIV  MOD  AND

  Two operators have a second spelling: `<>` is `#`, and `&` is `AND`.  A sign in front of a term is
  not a binary operator and has a type of its own.
-/

namespace Modula

/-- A sign in front of a term. -/
inductive Sign where
  | plus
  | minus
deriving DecidableEq, Repr

/-- The sign that a token stands for. -/
def Sign.ofKind? : Token.Kind → Option Sign
  | .symbol .plus => some .plus
  | .symbol .minus => some .minus
  | _ => none

/-- How tightly an operator binds. -/
inductive Operator.Level where
  | relational | additive | multiplicative
deriving DecidableEq, Repr

/-- The levels counted from the loosest. -/
def Operator.Level.rank : Operator.Level → Nat
  | .relational => 0
  | .additive => 1
  | .multiplicative => 2

/-- A binary operator. -/
inductive Operator where
  | add | sub | or
  | mul | divide | div | mod | and
  | eq | ne | lt | le | gt | ge | isIn
deriving DecidableEq, Repr

namespace Operator

/-- The level of an operator. -/
def level : Operator → Level
  | .add | .sub | .or => .additive
  | .mul | .divide | .div | .mod | .and => .multiplicative
  | .eq | .ne | .lt | .le | .gt | .ge | .isIn => .relational

/-- Whether the operator compares. -/
def isRelation (o : Operator) : Bool := o.level == .relational

/-- The preferred spelling. -/
def spelling : Operator → String
  | .add => "+"
  | .sub => "-"
  | .or => "OR"
  | .mul => "*"
  | .divide => "/"
  | .div => "DIV"
  | .mod => "MOD"
  | .and => "AND"
  | .eq => "="
  | .ne => "#"
  | .lt => "<"
  | .le => "<="
  | .gt => ">"
  | .ge => ">="
  | .isIn => "IN"

/-- The operator that a token stands for. -/
def ofKind? : Token.Kind → Option Operator
  | .symbol .plus => some .add
  | .symbol .minus => some .sub
  | .word .OR => some .or
  | .symbol .times => some .mul
  | .symbol .divide => some .divide
  | .word .DIV => some .div
  | .word .MOD => some .mod
  | .word .AND => some .and
  | .symbol .ampersand => some .and
  | .symbol .equal => some .eq
  | .symbol .hash => some .ne
  | .symbol .notEqual => some .ne
  | .symbol .less => some .lt
  | .symbol .lessEqual => some .le
  | .symbol .greater => some .gt
  | .symbol .greaterEqual => some .ge
  | .word .IN => some .isIn
  | _ => none

/-- The operator of one level that a token stands for. -/
def ofKindAt? (level : Level) (kind : Token.Kind) : Option Operator :=
  (ofKind? kind).filter (fun o => o.level == level)

end Operator

end Modula

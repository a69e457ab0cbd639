import Modula.Json
import Modula.Tree.Operator
/-!
# Names of plain cases in JSON

  Radices, signs and operators are choices between cases to which nothing belongs.  In JSON each is
  its name.  A choice is read back by looking its name up among all names, so that reading undoes
  writing as soon as the names differ.
-/

namespace Modula

/-- The case that has this name, out of all cases. -/
def caseOfTag? {α : Type} (tag : α → String) (cases : List α) (j : Json) : Option α :=
  j.tag?.bind fun name => cases.find? (fun a => tag a == name)

/-! ## Radices -/

namespace Radix

/-- The name of a radix. -/
def tag : Radix → String
  | .decimal => "Decimal"
  | .octal => "Octal"
  | .char => "Char"
  | .hex => "Hex"
  | .double => "Double"

/-- Every radix. -/
def all : List Radix := [.decimal, .octal, .char, .hex, .double]

/-- Writes a radix. -/
def toJson (r : Radix) : Json := .string r.tag

/-- Reads a radix. -/
def ofJson? : Json → Option Radix := caseOfTag? tag all

end Radix

/-! ## Signs -/

namespace Sign

/-- The name of a sign. -/
def tag : Sign → String
  | .plus => "Plus"
  | .minus => "Minus"

/-- Writes a sign. -/
def toJson (s : Sign) : Json := .string s.tag

/-- Reads a sign. -/
def ofJson? : Json → Option Sign := caseOfTag? tag [.plus, .minus]

end Sign

/-! ## Operators -/

namespace Operator

/-- The name of an operator. -/
def tag : Operator → String
  | .add => "Add"
  | .sub => "Sub"
  | .or => "Or"
  | .mul => "Mul"
  | .divide => "RealDiv"
  | .div => "Div"
  | .mod => "Mod"
  | .and => "And"
  | .eq => "Eq"
  | .ne => "Ne"
  | .lt => "Lt"
  | .le => "Le"
  | .gt => "Gt"
  | .ge => "Ge"
  | .isIn => "In"

/-- Every operator. -/
def all : List Operator :=
  [.add, .sub, .or, .mul, .divide, .div, .mod, .and, .eq, .ne, .lt, .le, .gt, .ge, .isIn]

/-- Writes an operator. -/
def toJson (o : Operator) : Json := .string o.tag

/-- Reads an operator. -/
def ofJson? : Json → Option Operator := caseOfTag? tag all

end Operator

end Modula

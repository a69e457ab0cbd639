/-!
# JSON values

  The values in which trees are exchanged with other tools, together with the small vocabulary that
  the two directions share:

  * writing — `Json.ofNat`, `Json.ofOption`, `Json.tagged`;
  * reading — `nat?`, `text?`, `flag?` for simple values, `items?` for arrays, `required` and
    `optional` for the members of an object, and `tag?` and `content?` for the cases of a choice.

  A reader is a function to `Option`: it answers `none` for a value of another form.  Members that a
  reader does not ask for are ignored.  A member that is optional may be missing or `null`.
-/

namespace Modula

/-- A JSON value.  A number is `mantissa · 10^(-exponent)`. -/
inductive Json where
  | null
  | bool (b : Bool)
  | number (mantissa : Int) (exponent : Nat)
  | string (s : String)
  | array (items : List Json)
  | object (members : List (String × Json))
deriving Repr, Inhabited

namespace Json

/-! ## Nesting -/

mutual

/-- How deep arrays and objects are nested, a simple value counting 1. -/
def depth : Json → Nat
  | .null | .bool _ | .number _ _ | .string _ => 1
  | .array items => 1 + depthOfItems items
  | .object members => 1 + depthOfMembers members

/-- The greatest depth in an array. -/
def depthOfItems : List Json → Nat
  | [] => 0
  | j :: js => max j.depth (depthOfItems js)

/-- The greatest depth in an object. -/
def depthOfMembers : List (String × Json) → Nat
  | [] => 0
  | (_, j) :: ms => max j.depth (depthOfMembers ms)

end

/-! ## Writing -/

/-- A natural number. -/
def ofNat (n : Nat) : Json := .number n 0

/-- A value that may be absent. -/
def ofOption {α : Type} (write : α → Json) : Option α → Json
  | some a => write a
  | none => .null

/-- A case of a choice, with what belongs to it. -/
def tagged (tag : String) (content : Json) : Json := .object [(tag, content)]

/-! ## Reading -/

/-- A natural number below a bound. -/
def nat? (bound : Nat) : Json → Option Nat
  | .number (.ofNat n) 0 => if n < bound then some n else none
  | _ => none

/-- A text. -/
def text? : Json → Option String
  | .string s => some s
  | _ => none

/-- A truth value. -/
def flag? : Json → Option Bool
  | .bool b => some b
  | _ => none

/-- The members of an array. -/
def items? {α : Type} (read : Json → Option α) : Json → Option (List α)
  | .array items => items.mapM read
  | _ => none

/-- The member of an object that has this key. -/
def member? (key : String) : Json → Option Json
  | .object members => members.lookup key
  | _ => none

/-- A member that has to be there. -/
def required {α : Type} (key : String) (read : Json → Option α) (j : Json) : Option α :=
  (j.member? key).bind read

/-- A member that may be missing or `null`. -/
def optional {α : Type} (key : String) (read : Json → Option α) (j : Json) : Option (Option α) :=
  match j.member? key with
  | none => some none
  | some .null => some none
  | some v => (read v).map some

/-- The name of a case to which nothing belongs: the bare name, or the name with `null`. -/
def tag? : Json → Option String
  | .string tag => some tag
  | .object [(tag, .null)] => some tag
  | _ => none

/-- The name of a case, and what belongs to it. -/
def content? : Json → Option (String × Json)
  | .object [(tag, content)] => some (tag, content)
  | _ => none

end Json

end Modula

import Modula.Tree.Expr
/-!
# Types

  What may follow the equals sign of a type declaration: a named type, an enumeration, a subrange,
  or an array, record, set, pointer or procedure type.  The index list of an array is read as nested
  arrays, so that an array node has one index.

  A record is a list of entries.  An entry is a list of fields of one type, or a variant part, which
  is a case distinction over further entries.
-/

namespace Modula

/-! ## Procedure types -/

/-- The type of one parameter of a procedure type. -/
structure FormalType where
  /-- Whether the parameter is a variable parameter. -/
  isVar : Bool
  /-- Whether the parameter is an open array. -/
  isOpenArray : Bool
  type : Qualident
  span : Span
deriving DecidableEq, Repr

/-- The parameters and the result of a procedure type. -/
structure FormalTypes where
  params : List FormalType
  result : Option Qualident
  span : Span
deriving DecidableEq, Repr

/-! ## Types and the entries of records -/

mutual

/-- A type. -/
structure TypeExpr where
  id : Nat
  kind : TypeKind
  span : Span
deriving Repr

/-- What a type is. -/
inductive TypeKind where
  | named (name : Qualident)
  | enumeration (names : IdentList)
  /-- The values between two bounds, which are kept unevaluated. -/
  | subrange (low high : Expr)
  | array (index element : TypeExpr)
  | record (entries : List FieldList)
  | set (base : TypeExpr)
  | pointer (target : TypeExpr)
  | procedure (formals : Option FormalTypes)
deriving Repr

/-- An entry of a record. -/
structure FieldList where
  kind : FieldKind
  span : Span
deriving Repr

/-- What an entry of a record is. -/
inductive FieldKind where
  /-- Fields of one type. -/
  | fields (names : IdentList) (type : TypeExpr)
  /-- A variant part, with an optional tag field. -/
  | variants (tag : Option Ident) (tagType : Qualident) (arms : List Variant)
      (otherwise : Option (List FieldList))
deriving Repr

/-- One arm of a variant part. -/
structure Variant where
  labels : List RangeItem
  entries : List FieldList
  span : Span
deriving Repr

end

end Modula

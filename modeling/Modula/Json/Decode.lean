import Modula.Json.Tag
import Modula.Tree.Module
/-!
# Trees read from JSON

  The other direction: `Expr.ofJson?` and its like read the form that `Expr.toJson` and its like
  write.  They accept a little more, as readers of JSON do: members that nobody asks for, and missing
  members where the value may be absent.  Nothing else is mended.  Ids have 32 bits and offsets 64,
  and a name or a list of identifiers without an identifier is refused, since the tree has no such
  thing.

  An expression is read out of the members of an object, and the readers of its parts are handed to
  the reader of the whole (`ExprKind.read?`, `TypeKind.read?`, `FieldKind.read?`).  The recursion is
  on how deep the value may still be nested; a value is never nested deeper than its own depth.
-/

namespace Modula

/-! ## Places and names -/

/-- Ids are below this bound, which is 2³². -/
def idBound : Nat := 4294967296

/-- Offsets are below this bound, which is 2⁶⁴. -/
def Span.offsetBound : Nat := 18446744073709551616

/-- Reads a span. -/
def Span.ofJson? (j : Json) : Option Span := do
  return ⟨← j.required "start" (Json.nat? offsetBound), ← j.required "end" (Json.nat? offsetBound)⟩

/-- Reads an identifier. -/
def Ident.ofJson? (j : Json) : Option Ident := do
  return ⟨← j.required "name" Json.text?, ← j.required "span" Span.ofJson?⟩

/-- Reads a qualified name, which has at least one segment. -/
def Qualident.ofJson? (j : Json) : Option Qualident := do
  let parts ← j.required "parts" (Json.items? Ident.ofJson?)
  let span ← j.required "span" Span.ofJson?
  match parts with
  | [] => none
  | first :: more => some ⟨first, more, span⟩

/-- Reads a list of identifiers, which has at least one member. -/
def IdentList.ofJson? (j : Json) : Option IdentList := do
  let idents ← j.required "idents" (Json.items? Ident.ofJson?)
  let span ← j.required "span" Span.ofJson?
  match idents with
  | [] => none
  | first :: more => some ⟨first, more, span⟩

/-- Reads an integer literal. -/
def IntLiteral.ofJson? (j : Json) : Option IntLiteral := do
  return ⟨← j.required "radix" Radix.ofJson?, ← j.required "digits" Json.text?⟩

/-! ## Expressions

  The readers are recursive by a budget, which is how deep a value is nested: what is inside of a value is
  nested less deeply than the value, so the budget is never short. -/

/-- Reads a range item, given a reader of expressions. -/
def RangeItem.read? (expr : Json → Option Expr) (j : Json) : Option RangeItem := do
  return ⟨← j.required "lhs" expr, ← j.optional "rhs" expr, ← j.required "span" Span.ofJson?⟩

/-- Reads the kind of an expression, given a reader of expressions. -/
def ExprKind.read? (expr : Json → Option Expr) (j : Json) : Option ExprKind := do
  match ← j.content? with
  | ("Integer", v) => return .integer (← IntLiteral.ofJson? v)
  | ("Real", v) => return .real (← v.text?)
  | ("String", v) => return .string (← v.text?)
  | ("Designator", v) => return .designator (← Qualident.ofJson? v)
  | ("Set", v) =>
    return .set (← v.optional "base" Qualident.ofJson?)
      (← v.required "elements" (Json.items? (RangeItem.read? expr)))
  | ("Not", v) => return .not (← expr v)
  | ("Unary", v) => return .signed (← v.required "op" Sign.ofJson?) (← v.required "operand" expr)
  | ("Binary", v) =>
    return .binary (← v.required "op" Operator.ofJson?) (← v.required "op_span" Span.ofJson?)
      (← v.required "lhs" expr) (← v.required "rhs" expr)
  | _ => none

/-- Reads an expression that is nested no deeper than a budget. -/
def Expr.readAt? : (budget : Nat) → Json → Option Expr
  | 0, _ => none
  | budget + 1, j => do
    return ⟨← j.required "id" (Json.nat? idBound),
      ← j.required "kind" (ExprKind.read? (readAt? budget)), ← j.required "span" Span.ofJson?⟩

/-- Reads an expression. -/
def Expr.ofJson? (j : Json) : Option Expr := readAt? j.depth j

/-- Reads a range item. -/
def RangeItem.ofJson? : Json → Option RangeItem := read? Expr.ofJson?

/-! ## Types

  The same for types, entries and arms, which contain each other. -/

/-- Reads the type of a parameter. -/
def FormalType.ofJson? (j : Json) : Option FormalType := do
  return ⟨← j.required "is_var" Json.flag?, ← j.required "open_array" Json.flag?,
    ← j.required "ty" Qualident.ofJson?, ← j.required "span" Span.ofJson?⟩

/-- Reads the parameters and the result of a procedure type. -/
def FormalTypes.ofJson? (j : Json) : Option FormalTypes := do
  return ⟨← j.required "params" (Json.items? FormalType.ofJson?),
    ← j.optional "result" Qualident.ofJson?, ← j.required "span" Span.ofJson?⟩

/-- Reads a value that is written as `null` where it is absent. -/
def Json.orNull? {α : Type} (read : Json → Option α) : Json → Option (Option α)
  | .null => some none
  | v => (read v).map some

/-- Reads the kind of a type, given readers of types and of entries. -/
def TypeKind.read? (type : Json → Option TypeExpr) (entry : Json → Option FieldList) (j : Json) :
    Option TypeKind := do
  match ← j.content? with
  | ("Named", v) => return .named (← Qualident.ofJson? v)
  | ("Enumeration", v) => return .enumeration (← IdentList.ofJson? v)
  | ("Subrange", v) =>
    return .subrange (← v.required "from" Expr.ofJson?) (← v.required "to" Expr.ofJson?)
  | ("Array", v) => return .array (← v.required "index" type) (← v.required "element" type)
  | ("Record", v) => return .record (← v.items? entry)
  | ("Set", v) => return .set (← type v)
  | ("Pointer", v) => return .pointer (← type v)
  | ("Procedure", v) => return .procedure (← v.orNull? FormalTypes.ofJson?)
  | _ => none

/-- Reads an arm of a variant part, given a reader of entries. -/
def Variant.read? (entry : Json → Option FieldList) (j : Json) : Option Variant := do
  return ⟨← j.required "labels" (Json.items? RangeItem.ofJson?),
    ← j.required "fields" (Json.items? entry), ← j.required "span" Span.ofJson?⟩

/-- Reads the kind of an entry, given readers of types and of entries. -/
def FieldKind.read? (type : Json → Option TypeExpr) (entry : Json → Option FieldList) (j : Json) :
    Option FieldKind := do
  match ← j.content? with
  | ("Fields", v) =>
    return .fields (← v.required "names" IdentList.ofJson?) (← v.required "ty" type)
  | ("Variant", v) =>
    return .variants (← v.optional "tag" Ident.ofJson?) (← v.required "tag_type" Qualident.ofJson?)
      (← v.required "variants" (Json.items? (Variant.read? entry)))
      (← v.optional "else_fields" (Json.items? entry))
  | _ => none

mutual

/-- Reads a type that is nested no deeper than a budget. -/
def TypeExpr.readAt? : (budget : Nat) → Json → Option TypeExpr
  | 0, _ => none
  | budget + 1, j => do
    return ⟨← j.required "id" (Json.nat? idBound),
      ← j.required "kind" (TypeKind.read? (TypeExpr.readAt? budget) (FieldList.readAt? budget)),
      ← j.required "span" Span.ofJson?⟩

/-- Reads an entry that is nested no deeper than a budget. -/
def FieldList.readAt? : (budget : Nat) → Json → Option FieldList
  | 0, _ => none
  | budget + 1, j => do
    return ⟨
      ← j.required "kind" (FieldKind.read? (TypeExpr.readAt? budget) (FieldList.readAt? budget)),
      ← j.required "span" Span.ofJson?⟩

end

/-- Reads a type. -/
def TypeExpr.ofJson? (j : Json) : Option TypeExpr := readAt? j.depth j

/-- Reads an entry of a record. -/
def FieldList.ofJson? (j : Json) : Option FieldList := readAt? j.depth j

/-- Reads an arm of a variant part. -/
def Variant.ofJson? : Json → Option Variant := read? FieldList.ofJson?

/-! ## Modules -/

/-- Reads what an import imports. -/
def ImportKind.ofJson? (j : Json) : Option ImportKind := do
  match ← j.content? with
  | ("Qualified", v) => return .qualified (← v.required "modules" IdentList.ofJson?)
  | ("Unqualified", v) =>
    return .unqualified (← v.required "module" Ident.ofJson?)
      (← v.required "names" IdentList.ofJson?)
  | _ => none

/-- Reads an import. -/
def Import.ofJson? (j : Json) : Option Import := do
  return ⟨← j.required "kind" ImportKind.ofJson?, ← j.required "span" Span.ofJson?⟩

/-- Reads a constant. -/
def ConstItem.ofJson? (j : Json) : Option ConstItem := do
  return ⟨← j.required "name" Ident.ofJson?, ← j.required "value" Expr.ofJson?,
    ← j.required "span" Span.ofJson?⟩

/-- Reads a declared type. -/
def TypeItem.ofJson? (j : Json) : Option TypeItem := do
  return ⟨← j.required "name" Ident.ofJson?, ← j.required "ty" TypeExpr.ofJson?,
    ← j.required "span" Span.ofJson?⟩

/-- Reads the items of a section. -/
def DeclarationKind.ofJson? (j : Json) : Option DeclarationKind := do
  match ← j.content? with
  | ("Const", v) => return .constants (← v.items? ConstItem.ofJson?)
  | ("Type", v) => return .types (← v.items? TypeItem.ofJson?)
  | _ => none

/-- Reads a section. -/
def Declaration.ofJson? (j : Json) : Option Declaration := do
  return ⟨← j.required "id" (Json.nat? idBound), ← j.required "kind" DeclarationKind.ofJson?,
    ← j.required "span" Span.ofJson?⟩

/-- Reads a block. -/
def Block.ofJson? (j : Json) : Option Block := do
  return ⟨← j.required "decls" (Json.items? Declaration.ofJson?), ← j.optional "body" Span.ofJson?,
    ← j.required "span" Span.ofJson?⟩

/-- Reads a definition module. -/
def DefinitionModule.ofJson? (j : Json) : Option DefinitionModule := do
  return ⟨← j.required "name" Ident.ofJson?, ← j.required "imports" (Json.items? Import.ofJson?),
    ← j.required "decls" (Json.items? Declaration.ofJson?), ← j.required "footer" Ident.ofJson?,
    ← j.required "span" Span.ofJson?⟩

/-- Reads a program module. -/
def ProgramModule.ofJson? (j : Json) : Option ProgramModule := do
  return ⟨← j.required "implementation" Json.flag?, ← j.required "name" Ident.ofJson?,
    ← j.required "imports" (Json.items? Import.ofJson?), ← j.required "block" Block.ofJson?,
    ← j.required "footer" Ident.ofJson?, ← j.required "span" Span.ofJson?⟩

/-- Reads a compilation unit. -/
def CompilationUnit.ofJson? (j : Json) : Option CompilationUnit := do
  match ← j.content? with
  | ("Definition", v) => return .definition (← DefinitionModule.ofJson? v)
  | ("Program", v) => return .program (← ProgramModule.ofJson? v)
  | _ => none

end Modula

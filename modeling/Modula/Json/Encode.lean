import Modula.Json.Tag
import Modula.Tree.Module
/-!
# Trees written as JSON

  Every part of a tree has one JSON form.

  * A record of values is an object with a member for each.
  * A choice is an object with one member, named for the case.
  * A list is an array, and an absent value is `null`.

  The recursion follows the tree; lists of parts have functions of their own.
-/

namespace Modula

/-! ## Places and names -/

/-- Writes a span. -/
def Span.toJson (s : Span) : Json :=
  .object [("start", .ofNat s.start), ("end", .ofNat s.stop)]

/-- Writes an identifier. -/
def Ident.toJson (i : Ident) : Json :=
  .object [("name", .string i.name), ("span", i.span.toJson)]

/-- Writes a qualified name. -/
def Qualident.toJson (q : Qualident) : Json :=
  .object [("parts", .array (q.parts.map Ident.toJson)), ("span", q.span.toJson)]

/-- Writes a list of identifiers. -/
def IdentList.toJson (l : IdentList) : Json :=
  .object [("idents", .array (l.idents.map Ident.toJson)), ("span", l.span.toJson)]

/-- Writes an integer literal. -/
def IntLiteral.toJson (n : IntLiteral) : Json :=
  .object [("radix", n.radix.toJson), ("digits", .string n.digits)]

/-! ## Expressions -/

mutual

/-- Writes an expression. -/
def Expr.toJson : Expr → Json
  | ⟨id, kind, span⟩ => .object [("id", .ofNat id), ("kind", kind.toJson), ("span", span.toJson)]

/-- Writes the kind of an expression. -/
def ExprKind.toJson : ExprKind → Json
  | .integer literal => .tagged "Integer" literal.toJson
  | .real text => .tagged "Real" (.string text)
  | .string content => .tagged "String" (.string content)
  | .designator name => .tagged "Designator" name.toJson
  | .set base elements =>
    .tagged "Set" (.object
      [("base", .ofOption Qualident.toJson base), ("elements", .array (rangeItemsToJson elements))])
  | .not operand => .tagged "Not" operand.toJson
  | .signed sign operand =>
    .tagged "Unary" (.object [("op", sign.toJson), ("operand", operand.toJson)])
  | .binary op opSpan lhs rhs =>
    .tagged "Binary" (.object
      [("op", op.toJson), ("op_span", opSpan.toJson), ("lhs", lhs.toJson), ("rhs", rhs.toJson)])

/-- Writes a range item. -/
def RangeItem.toJson : RangeItem → Json
  | ⟨lhs, none, span⟩ => .object [("lhs", lhs.toJson), ("rhs", .null), ("span", span.toJson)]
  | ⟨lhs, some rhs, span⟩ =>
    .object [("lhs", lhs.toJson), ("rhs", rhs.toJson), ("span", span.toJson)]

/-- Writes range items. -/
def rangeItemsToJson : List RangeItem → List Json
  | [] => []
  | r :: rs => r.toJson :: rangeItemsToJson rs

end

/-! ## Types -/

/-- Writes the type of a parameter. -/
def FormalType.toJson (p : FormalType) : Json :=
  .object [("is_var", .bool p.isVar), ("open_array", .bool p.isOpenArray), ("ty", p.type.toJson),
    ("span", p.span.toJson)]

/-- Writes the parameters and the result of a procedure type. -/
def FormalTypes.toJson (f : FormalTypes) : Json :=
  .object [("params", .array (f.params.map FormalType.toJson)),
    ("result", .ofOption Qualident.toJson f.result), ("span", f.span.toJson)]

mutual

/-- Writes a type. -/
def TypeExpr.toJson : TypeExpr → Json
  | ⟨id, kind, span⟩ => .object [("id", .ofNat id), ("kind", kind.toJson), ("span", span.toJson)]

/-- Writes the kind of a type. -/
def TypeKind.toJson : TypeKind → Json
  | .named name => .tagged "Named" name.toJson
  | .enumeration names => .tagged "Enumeration" names.toJson
  | .subrange low high =>
    .tagged "Subrange" (.object [("from", low.toJson), ("to", high.toJson)])
  | .array index element =>
    .tagged "Array" (.object [("index", index.toJson), ("element", element.toJson)])
  | .record entries => .tagged "Record" (.array (fieldListsToJson entries))
  | .set base => .tagged "Set" base.toJson
  | .pointer target => .tagged "Pointer" target.toJson
  | .procedure formals => .tagged "Procedure" (.ofOption FormalTypes.toJson formals)

/-- Writes an entry of a record. -/
def FieldList.toJson : FieldList → Json
  | ⟨kind, span⟩ => .object [("kind", kind.toJson), ("span", span.toJson)]

/-- Writes the kind of an entry of a record. -/
def FieldKind.toJson : FieldKind → Json
  | .fields names type =>
    .tagged "Fields" (.object [("names", names.toJson), ("ty", type.toJson)])
  | .variants tag tagType arms none =>
    .tagged "Variant" (.object
      [("tag", .ofOption Ident.toJson tag), ("tag_type", tagType.toJson),
       ("variants", .array (variantsToJson arms)), ("else_fields", .null)])
  | .variants tag tagType arms (some otherwise) =>
    .tagged "Variant" (.object
      [("tag", .ofOption Ident.toJson tag), ("tag_type", tagType.toJson),
       ("variants", .array (variantsToJson arms)),
       ("else_fields", .array (fieldListsToJson otherwise))])

/-- Writes an arm of a variant part. -/
def Variant.toJson : Variant → Json
  | ⟨labels, entries, span⟩ =>
    .object [("labels", .array (rangeItemsToJson labels)),
      ("fields", .array (fieldListsToJson entries)), ("span", span.toJson)]

/-- Writes entries of a record. -/
def fieldListsToJson : List FieldList → List Json
  | [] => []
  | f :: fs => f.toJson :: fieldListsToJson fs

/-- Writes arms of a variant part. -/
def variantsToJson : List Variant → List Json
  | [] => []
  | v :: vs => v.toJson :: variantsToJson vs

end

/-! ## Modules -/

/-- Writes an import. -/
def Import.toJson (i : Import) : Json :=
  let kind := match i.kind with
    | .qualified modules => .tagged "Qualified" (.object [("modules", modules.toJson)])
    | .unqualified source names =>
      .tagged "Unqualified" (.object [("module", source.toJson), ("names", names.toJson)])
  .object [("kind", kind), ("span", i.span.toJson)]

/-- Writes a constant. -/
def ConstItem.toJson (c : ConstItem) : Json :=
  .object [("name", c.name.toJson), ("value", c.value.toJson), ("span", c.span.toJson)]

/-- Writes a declared type. -/
def TypeItem.toJson (t : TypeItem) : Json :=
  .object [("name", t.name.toJson), ("ty", t.type.toJson), ("span", t.span.toJson)]

/-- Writes a section. -/
def Declaration.toJson (d : Declaration) : Json :=
  let kind := match d.kind with
    | .constants items => .tagged "Const" (.array (items.map ConstItem.toJson))
    | .types items => .tagged "Type" (.array (items.map TypeItem.toJson))
  .object [("id", .ofNat d.id), ("kind", kind), ("span", d.span.toJson)]

/-- Writes a block. -/
def Block.toJson (b : Block) : Json :=
  .object [("decls", .array (b.declarations.map Declaration.toJson)),
    ("body", .ofOption Span.toJson b.body), ("span", b.span.toJson)]

/-- Writes a definition module. -/
def DefinitionModule.toJson (m : DefinitionModule) : Json :=
  .object [("name", m.name.toJson), ("imports", .array (m.imports.map Import.toJson)),
    ("decls", .array (m.declarations.map Declaration.toJson)), ("footer", m.footer.toJson),
    ("span", m.span.toJson)]

/-- Writes a program module. -/
def ProgramModule.toJson (m : ProgramModule) : Json :=
  .object [("implementation", .bool m.isImplementation), ("name", m.name.toJson),
    ("imports", .array (m.imports.map Import.toJson)), ("block", m.block.toJson),
    ("footer", m.footer.toJson), ("span", m.span.toJson)]

/-- Writes a compilation unit. -/
def CompilationUnit.toJson : CompilationUnit → Json
  | .definition m => .tagged "Definition" m.toJson
  | .program m => .tagged "Program" m.toJson

end Modula

import Modula.Tree.Module
/-!
# Nodes

  A `Node` is a view of any part of a tree.  A tool that needs structure only — an outline, a linter,
  a dump — walks the tree through nodes, without a case for every type of part.  A node tells

  * its `kind`, one per phrase of the grammar;
  * its `span`;
  * its `children`, in source order;
  * its fields, the children that have a name (`field?`).  Repeated parts have none.
-/

namespace Modula

/-- A view of one part of a tree. -/
inductive Node where
  | unit (u : CompilationUnit)
  | definitionModule (m : DefinitionModule)
  | programModule (m : ProgramModule)
  | block (b : Block)
  | importClause (i : Import)
  | ident (i : Ident)
  | qualident (q : Qualident)
  | identList (l : IdentList)
  | declaration (d : Declaration)
  | constItem (c : ConstItem)
  | typeItem (t : TypeItem)
  | type (t : TypeExpr)
  | fieldList (f : FieldList)
  | variant (v : Variant)
  /-- A label of a variant. -/
  | caseLabel (r : RangeItem)
  | formalTypes (f : FormalTypes)
  | formalType (p : FormalType)
  | expr (e : Expr)
  /-- An element of a set constructor. -/
  | element (r : RangeItem)
deriving Repr

/-- The phrases of the grammar that have nodes. -/
inductive Node.Kind where
  | compilationUnit | definitionModule | programModule | block
  | qualifiedImport | unqualifiedImport
  | ident | qualident | identList
  | constSection | typeSection | constDeclaration | typeDeclaration
  | namedType | enumeration | subrange | arrayType | recordType | setType | pointerType
  | procedureType
  | fieldList | variantFieldList | variant | caseLabels
  | formalTypeList | formalTypeParam
  | integerLiteral | realLiteral | stringLiteral | designator | setExpr | element
  | not | unary | binary
deriving DecidableEq, Repr

/-! ## Kinds -/

/-- The phrase that an import is. -/
def ImportKind.nodeKind : ImportKind → Node.Kind
  | .qualified _ => .qualifiedImport
  | .unqualified _ _ => .unqualifiedImport

/-- The phrase that a section is. -/
def DeclarationKind.nodeKind : DeclarationKind → Node.Kind
  | .constants _ => .constSection
  | .types _ => .typeSection

/-- The phrase that a type is. -/
def TypeKind.nodeKind : TypeKind → Node.Kind
  | .named _ => .namedType
  | .enumeration _ => .enumeration
  | .subrange _ _ => .subrange
  | .array _ _ => .arrayType
  | .record _ => .recordType
  | .set _ => .setType
  | .pointer _ => .pointerType
  | .procedure _ => .procedureType

/-- The phrase that an entry of a record is. -/
def FieldKind.nodeKind : FieldKind → Node.Kind
  | .fields _ _ => .fieldList
  | .variants _ _ _ _ => .variantFieldList

/-- The phrase that an expression is. -/
def ExprKind.nodeKind : ExprKind → Node.Kind
  | .integer _ => .integerLiteral
  | .real _ => .realLiteral
  | .string _ => .stringLiteral
  | .designator _ => .designator
  | .set _ _ => .setExpr
  | .not _ => .not
  | .signed _ _ => .unary
  | .binary _ _ _ _ => .binary

/-! ## Children of the parts that come in kinds -/

/-- The node of the module that a unit is. -/
def CompilationUnit.moduleNode : CompilationUnit → Node
  | .definition m => .definitionModule m
  | .program m => .programModule m

/-- The children of an import. -/
def ImportKind.children : ImportKind → List Node
  | .qualified modules => [.identList modules]
  | .unqualified source names => [.ident source, .identList names]

/-- The items of a section. -/
def DeclarationKind.children : DeclarationKind → List Node
  | .constants items => items.map .constItem
  | .types items => items.map .typeItem

/-- The children of a type. -/
def TypeKind.children : TypeKind → List Node
  | .named name => [.qualident name]
  | .enumeration names => [.identList names]
  | .subrange low high => [.expr low, .expr high]
  | .array index element => [.type index, .type element]
  | .record entries => entries.map .fieldList
  | .set base => [.type base]
  | .pointer target => [.type target]
  | .procedure formals => formals.toList.map .formalTypes

/-- The children of an entry of a record. -/
def FieldKind.children : FieldKind → List Node
  | .fields names type => [.identList names, .type type]
  | .variants tag tagType arms otherwise =>
    tag.toList.map .ident ++ [.qualident tagType] ++ arms.map .variant ++
      (otherwise.getD []).map .fieldList

/-- The ends of a range item. -/
def RangeItem.children (r : RangeItem) : List Node := .expr r.lhs :: r.rhs.toList.map .expr

/-- The children of an expression. -/
def ExprKind.children : ExprKind → List Node
  | .integer _ | .real _ | .string _ => []
  | .designator name => [.qualident name]
  | .set base elements => base.toList.map .qualident ++ elements.map .element
  | .not operand => [.expr operand]
  | .signed _ operand => [.expr operand]
  | .binary _ _ lhs rhs => [.expr lhs, .expr rhs]

/-! ## Fields of the parts that come in kinds -/

/-- The field of an import that has this name. -/
def ImportKind.field? : ImportKind → String → Option Node
  | .qualified modules, "impmodules" => some (.identList modules)
  | .unqualified source _, "impmodule" => some (.ident source)
  | .unqualified _ names, "idlist" => some (.identList names)
  | _, _ => none

/-- The field of a type that has this name. -/
def TypeKind.field? : TypeKind → String → Option Node
  | .named name, "qualident" => some (.qualident name)
  | .enumeration names, "idlist" => some (.identList names)
  | .subrange low _, "from" => some (.expr low)
  | .subrange _ high, "to" => some (.expr high)
  | .array index _, "index" => some (.type index)
  | .array _ element, "element" => some (.type element)
  | .set base, "base" => some (.type base)
  | .pointer target, "target" => some (.type target)
  | .procedure formals, "params" => formals.map .formalTypes
  | _, _ => none

/-- The field of an entry of a record that has this name. -/
def FieldKind.field? : FieldKind → String → Option Node
  | .fields names _, "idlist" => some (.identList names)
  | .fields _ type, "type" => some (.type type)
  | .variants tag _ _ _, "tag" => tag.map .ident
  | .variants _ tagType _ _, "tag_type" => some (.qualident tagType)
  | _, _ => none

/-- The field of an expression that has this name. -/
def ExprKind.field? : ExprKind → String → Option Node
  | .designator name, "qualident" => some (.qualident name)
  | .set base _, "base" => base.map .qualident
  | .not operand, "operand" => some (.expr operand)
  | .signed _ operand, "operand" => some (.expr operand)
  | .binary _ _ lhs _, "lhs" => some (.expr lhs)
  | .binary _ _ _ rhs, "rhs" => some (.expr rhs)
  | _, _ => none

/-- The end of a range item that has this name. -/
def RangeItem.field? (r : RangeItem) : String → Option Node
  | "lhs" => some (.expr r.lhs)
  | "rhs" => r.rhs.map .expr
  | _ => none

namespace Node

/-- The phrase that the node is. -/
def kind : Node → Kind
  | .unit _ => .compilationUnit
  | .definitionModule _ => .definitionModule
  | .programModule _ => .programModule
  | .block _ => .block
  | .importClause i => i.kind.nodeKind
  | .ident _ => .ident
  | .qualident _ => .qualident
  | .identList _ => .identList
  | .declaration d => d.kind.nodeKind
  | .constItem _ => .constDeclaration
  | .typeItem _ => .typeDeclaration
  | .type t => t.kind.nodeKind
  | .fieldList f => f.kind.nodeKind
  | .variant _ => .variant
  | .caseLabel _ => .caseLabels
  | .formalTypes _ => .formalTypeList
  | .formalType _ => .formalTypeParam
  | .expr e => e.kind.nodeKind
  | .element _ => .element

/-- The text that the node covers. -/
def span : Node → Span
  | .unit u => u.span
  | .definitionModule m => m.span
  | .programModule m => m.span
  | .block b => b.span
  | .importClause i => i.span
  | .ident i => i.span
  | .qualident q => q.span
  | .identList l => l.span
  | .declaration d => d.span
  | .constItem c => c.span
  | .typeItem t => t.span
  | .type t => t.span
  | .fieldList f => f.span
  | .variant v => v.span
  | .caseLabel r => r.span
  | .formalTypes f => f.span
  | .formalType p => p.span
  | .expr e => e.span
  | .element r => r.span

/-! ## Children -/

/-- The nodes right below a node, in source order. -/
def children : Node → List Node
  | .unit u => [u.moduleNode]
  | .definitionModule m =>
    [.ident m.name] ++ m.imports.map .importClause ++ m.declarations.map .declaration ++
      [.ident m.footer]
  | .programModule m =>
    [.ident m.name] ++ m.imports.map .importClause ++ [.block m.block, .ident m.footer]
  | .block b => b.declarations.map .declaration
  | .importClause i => i.kind.children
  | .ident _ => []
  | .qualident q => q.parts.map .ident
  | .identList l => l.idents.map .ident
  | .declaration d => d.kind.children
  | .constItem c => [.ident c.name, .expr c.value]
  | .typeItem t => [.ident t.name, .type t.type]
  | .type t => t.kind.children
  | .fieldList f => f.kind.children
  | .variant v => v.labels.map .caseLabel ++ v.entries.map .fieldList
  | .caseLabel r => r.children
  | .formalTypes f => f.params.map .formalType ++ f.result.toList.map .qualident
  | .formalType p => [.qualident p.type]
  | .expr e => e.kind.children
  | .element r => r.children

/-! ## Fields -/

/-- The child that has this name. -/
def field? : Node → String → Option Node
  | .unit u, "module" => some u.moduleNode
  | .definitionModule m, "modulename" => some (.ident m.name)
  | .definitionModule m, "footer" => some (.ident m.footer)
  | .programModule m, "modulename" => some (.ident m.name)
  | .programModule m, "block" => some (.block m.block)
  | .programModule m, "footer" => some (.ident m.footer)
  | .importClause i, name => i.kind.field? name
  | .constItem c, "const_id" => some (.ident c.name)
  | .constItem c, "value" => some (.expr c.value)
  | .typeItem t, "name" => some (.ident t.name)
  | .typeItem t, "type" => some (.type t.type)
  | .type t, name => t.kind.field? name
  | .fieldList f, name => f.kind.field? name
  | .caseLabel r, name => r.field? name
  | .formalTypes f, "result" => f.result.map .qualident
  | .formalType p, "type" => some (.qualident p.type)
  | .expr e, name => e.kind.field? name
  | .element r, name => r.field? name
  | _, _ => none

end Node

end Modula

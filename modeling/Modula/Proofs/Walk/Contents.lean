import Modula.Proofs.Walk
/-!
# Walks come to all that a tree contains

  Every type of tree has a list of what is contained in a tree of the type, the tree itself first and then
  what is in its components, one component after the other.  The lists are put together by recursion over
  the types, with a case for each constructor, and do not know of children.

  The children of a node are its components, none left out and none twice (`Node.contents_eq`).  So a walk
  comes to what the tree contains, and to nothing else (`Node.preorder_eq_contents`).
-/

namespace Modula

/-! ## Names

  The definitions in this module do not speak of children.  They go through the components that the types
  of the trees have, one by one, so that nothing can be left out of both. -/

def Ident.contents (i : Ident) : List Node := [.ident i]

def Qualident.contents (q : Qualident) : List Node :=
  .qualident q :: (q.first.contents ++ q.more.flatMap Ident.contents)

def IdentList.contents (l : IdentList) : List Node :=
  .identList l :: (l.first.contents ++ l.more.flatMap Ident.contents)

/-! ## Expressions

  The recursion is structural, and therefore it goes through the lists in a node by functions of their
  own. -/

mutual

def Expr.contents : Expr → List Node
  | ⟨id, kind, span⟩ => .expr ⟨id, kind, span⟩ :: kind.contents

/-- What is in the components. -/
def ExprKind.contents : ExprKind → List Node
  | .integer _ | .real _ | .string _ => []
  | .designator name => name.contents
  | .set base elements => base.elim [] Qualident.contents ++ RangeItem.allElementContents elements
  | .not operand => operand.contents
  | .signed _ operand => operand.contents
  | .binary _ _ lhs rhs => lhs.contents ++ rhs.contents

/-- What is in the one or two ends. -/
def RangeItem.endContents : RangeItem → List Node
  | ⟨lhs, rhs, _⟩ => lhs.contents ++ Expr.contents? rhs

def RangeItem.allElementContents : List RangeItem → List Node
  | [] => []
  | r :: rs => .element r :: (r.endContents ++ RangeItem.allElementContents rs)

def Expr.contents? : Option Expr → List Node
  | none => []
  | some e => e.contents

end

def RangeItem.labelContents (r : RangeItem) : List Node := .caseLabel r :: r.endContents

def RangeItem.elementContents (r : RangeItem) : List Node := .element r :: r.endContents

/-! ## Types -/

def FormalType.contents (p : FormalType) : List Node := .formalType p :: p.type.contents

def FormalTypes.contents (f : FormalTypes) : List Node :=
  .formalTypes f :: (f.params.flatMap FormalType.contents ++ f.result.elim [] Qualident.contents)

mutual

def TypeExpr.contents : TypeExpr → List Node
  | ⟨id, kind, span⟩ => .type ⟨id, kind, span⟩ :: kind.contents

/-- What is in the components. -/
def TypeKind.contents : TypeKind → List Node
  | .named name => name.contents
  | .enumeration names => names.contents
  | .subrange low high => low.contents ++ high.contents
  | .array index element => index.contents ++ element.contents
  | .record entries => FieldList.allContents entries
  | .set base => base.contents
  | .pointer target => target.contents
  | .procedure formals => formals.elim [] FormalTypes.contents

def FieldList.contents : FieldList → List Node
  | ⟨kind, span⟩ => .fieldList ⟨kind, span⟩ :: kind.contents

/-- What is in the components. -/
def FieldKind.contents : FieldKind → List Node
  | .fields names type => names.contents ++ type.contents
  | .variants tag tagType arms otherwise =>
    tag.elim [] Ident.contents ++ tagType.contents ++ Variant.allContents arms ++
      FieldList.contents? otherwise

def Variant.contents : Variant → List Node
  | ⟨labels, entries, span⟩ =>
    .variant ⟨labels, entries, span⟩ ::
      (labels.flatMap RangeItem.labelContents ++ FieldList.allContents entries)

def FieldList.allContents : List FieldList → List Node
  | [] => []
  | f :: fs => f.contents ++ FieldList.allContents fs

def Variant.allContents : List Variant → List Node
  | [] => []
  | v :: vs => v.contents ++ Variant.allContents vs

def FieldList.contents? : Option (List FieldList) → List Node
  | none => []
  | some fs => FieldList.allContents fs

end

/-! ## Modules -/

/-- What is in the components. -/
def ImportKind.contents : ImportKind → List Node
  | .qualified modules => modules.contents
  | .unqualified source names => source.contents ++ names.contents

def Import.contents (i : Import) : List Node := .importClause i :: i.kind.contents

def ConstItem.contents (c : ConstItem) : List Node := .constItem c :: (c.name.contents ++ c.value.contents)

def TypeItem.contents (t : TypeItem) : List Node := .typeItem t :: (t.name.contents ++ t.type.contents)

/-- What is in the components. -/
def DeclarationKind.contents : DeclarationKind → List Node
  | .constants items => items.flatMap ConstItem.contents
  | .types items => items.flatMap TypeItem.contents

def Declaration.contents (d : Declaration) : List Node := .declaration d :: d.kind.contents

def DefinitionModule.contents (m : DefinitionModule) : List Node :=
  .definitionModule m :: (m.name.contents ++ m.imports.flatMap Import.contents ++
    m.declarations.flatMap Declaration.contents ++ m.footer.contents)

def Block.contents (b : Block) : List Node := .block b :: b.declarations.flatMap Declaration.contents

def ProgramModule.contents (m : ProgramModule) : List Node :=
  .programModule m :: (m.name.contents ++ m.imports.flatMap Import.contents ++ m.block.contents ++
    m.footer.contents)

def CompilationUnit.contents : CompilationUnit → List Node
  | .definition m => .unit (.definition m) :: m.contents
  | .program m => .unit (.program m) :: m.contents

/-! ## Nodes -/

/-- All that is contained in what the node shows. -/
def Node.contents : Node → List Node
  | .unit u => u.contents
  | .definitionModule m => m.contents
  | .programModule m => m.contents
  | .block b => b.contents
  | .importClause i => i.contents
  | .ident i => i.contents
  | .qualident q => q.contents
  | .identList l => l.contents
  | .declaration d => d.contents
  | .constItem c => c.contents
  | .typeItem t => t.contents
  | .type t => t.contents
  | .fieldList f => f.contents
  | .variant v => v.contents
  | .caseLabel r => r.labelContents
  | .formalTypes f => f.contents
  | .formalType p => p.contents
  | .expr e => e.contents
  | .element r => r.elementContents

/-! ## Components and children

  The functions for lists are those of the library, applied to the function for a member.  With this the
  contents of a node are what is in its children, and so they are what the walk lists. -/

@[simp] theorem RangeItem.allElementContents_eq (l : List RangeItem) :
    allElementContents l = l.flatMap elementContents := by
  induction l with
  | nil => rfl
  | cons r rs ih => rw [allElementContents, ih, List.flatMap_cons, elementContents, List.cons_append]

@[simp] theorem Expr.contents?_eq (o : Option Expr) : contents? o = o.elim [] contents := by
  cases o <;> rfl

@[simp] theorem FieldList.allContents_eq (l : List FieldList) : allContents l = l.flatMap contents := by
  induction l with
  | nil => rfl
  | cons f fs ih => rw [allContents, ih, List.flatMap_cons]

@[simp] theorem Variant.allContents_eq (l : List Variant) : allContents l = l.flatMap contents := by
  induction l with
  | nil => rfl
  | cons v vs ih => rw [allContents, ih, List.flatMap_cons]

@[simp] theorem FieldList.contents?_eq (o : Option (List FieldList)) :
    contents? o = (o.getD []).flatMap contents := by
  cases o with
  | none => rfl
  | some fs => exact allContents_eq fs

/-- What is in an optional component. -/
@[simp] theorem flatMap_optional {α : Type} (f : α → List Node) (o : Option α) :
    o.toList.flatMap f = o.elim [] f := by
  cases o with
  | none => rfl
  | some a => exact List.append_nil _

theorem RangeItem.endContents_eq (r : RangeItem) :
    r.endContents = r.children.flatMap Node.contents := by
  obtain ⟨lhs, rhs, span⟩ := r
  simp [endContents, children, Node.contents, List.flatMap_map]

theorem ExprKind.contents_eq (k : ExprKind) : k.contents = k.children.flatMap Node.contents := by
  cases k <;> simp [contents, children, Node.contents, List.flatMap_map]

theorem TypeKind.contents_eq (k : TypeKind) : k.contents = k.children.flatMap Node.contents := by
  cases k <;> simp [contents, children, Node.contents, List.flatMap_map]

theorem FieldKind.contents_eq (k : FieldKind) : k.contents = k.children.flatMap Node.contents := by
  cases k <;> simp [contents, children, Node.contents, List.flatMap_map]

theorem ImportKind.contents_eq (k : ImportKind) : k.contents = k.children.flatMap Node.contents := by
  cases k <;> simp [contents, children, Node.contents]

theorem DeclarationKind.contents_eq (k : DeclarationKind) :
    k.contents = k.children.flatMap Node.contents := by
  cases k <;> simp [contents, children, Node.contents, List.flatMap_map]

theorem CompilationUnit.contents_eq (u : CompilationUnit) :
    u.contents = .unit u :: u.moduleNode.contents := by
  cases u <;> rfl

namespace Node

/-- The children of a node are its components. -/
theorem contents_eq (n : Node) : n.contents = n :: n.children.flatMap contents := by
  cases n with
  | unit u => simp [contents, children, u.contents_eq]
  | definitionModule m => simp [contents, children, DefinitionModule.contents, List.flatMap_map]
  | programModule m => simp [contents, children, ProgramModule.contents, List.flatMap_map]
  | block b => simp [contents, children, Block.contents, List.flatMap_map]
  | importClause i => simp [contents, children, Import.contents, i.kind.contents_eq]
  | ident i => rfl
  | qualident q => simp [contents, children, Qualident.contents, Qualident.parts, List.flatMap_map]
  | identList l => simp [contents, children, IdentList.contents, IdentList.idents, List.flatMap_map]
  | declaration d => simp [contents, children, Declaration.contents, d.kind.contents_eq]
  | constItem c => simp [contents, children, ConstItem.contents]
  | typeItem t => simp [contents, children, TypeItem.contents]
  | type t =>
    obtain ⟨id, kind, span⟩ := t
    simp [contents, children, TypeExpr.contents, kind.contents_eq]
  | fieldList f =>
    obtain ⟨kind, span⟩ := f
    simp [contents, children, FieldList.contents, kind.contents_eq]
  | variant v =>
    obtain ⟨labels, entries, span⟩ := v
    simp [contents, children, Variant.contents, List.flatMap_map]
  | caseLabel r => simp [contents, children, RangeItem.labelContents, r.endContents_eq]
  | formalTypes f => simp [contents, children, FormalTypes.contents, List.flatMap_map]
  | formalType p => simp [contents, children, FormalType.contents]
  | expr e =>
    obtain ⟨id, kind, span⟩ := e
    simp [contents, children, Expr.contents, kind.contents_eq]
  | element r => simp [contents, children, RangeItem.elementContents, r.endContents_eq]

theorem preorder_eq_contents (n : Node) : n.preorder = n.contents := by
  induction n using induction_children with
  | step n ih => rw [preorder_eq, contents_eq, List.flatMap_congr ih]

/-- A walk ends.  Until then it visits what the recursion lists, which is all that the tree contains, each
part once and behind the parts that it is in. -/
theorem walk_exact (root : Node) :
    (∀ visited, (Walk.start root).Yields visited ↔ visited = root.preorder) ∧
      root.walk = root.preorder ∧
      root.preorder = root.contents ∧
      ∃ addresses, root.Enumerates addresses root.walk :=
  ⟨fun _ => Walk.yields_iff, root.walk_eq_preorder, root.preorder_eq_contents, root.addresses,
    root.enumerates_walk⟩

end Node

end Modula

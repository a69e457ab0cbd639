import Modula.Node
/-!
# Walks

  `Node.walk` lists a node and everything below it, every node before its children.

  1. **Program** — the nodes that are still to be visited are kept on a stack.  A node that is taken
     off leaves its children in its place, first child first (`walkStack`).

  2. **Termination** — the stack gets lighter with every step.  A node weighs as much as the part of
     the tree that it shows, and its children together weigh less than it does (`weight_children`):
     they show disjoint pieces of that part.  The lemmas before that one say so for the parts that
     come in kinds.  Nodes for the members of a list weigh one less than the list, and the node for
     an optional part weighs no more than the option; a span is never a child, and it has a weight
     of its own that makes up for the rest.
-/

namespace Modula.Node

/-! ## Weights

  The walk works on a stack.  It ends because each turn replaces a node by its children, and these weigh
  less. -/

/-- What the nodes of a list weigh together. -/
noncomputable def weight : List Node → Nat
  | [] => 0
  | n :: ns => sizeOf n + weight ns

theorem weight_append (a b : List Node) : weight (a ++ b) = weight a + weight b := by
  induction a with
  | nil => rw [List.nil_append, weight, Nat.zero_add]
  | cons n ns ih => rw [List.cons_append, weight, weight, ih, Nat.add_assoc]

/-- Nodes for the members of a list. -/
theorem weight_map {α : Type} [SizeOf α] (f : α → Node) (hf : ∀ a, sizeOf (f a) = 1 + sizeOf a)
    (l : List α) : weight (l.map f) + 1 = sizeOf l := by
  induction l with
  | nil => rfl
  | cons a l ih =>
    rw [List.map_cons, weight, hf, List.cons.sizeOf_spec, ← ih]
    omega

/-- The node for an optional part. -/
theorem weight_optional {α : Type} [SizeOf α] (f : α → Node)
    (hf : ∀ a, sizeOf (f a) = 1 + sizeOf a) (o : Option α) :
    weight (o.toList.map f) ≤ sizeOf o := by
  cases o with
  | none => exact Nat.zero_le _
  | some a =>
    show sizeOf (f a) + 0 ≤ sizeOf (some a)
    rw [hf, Option.some.sizeOf_spec]
    omega

theorem sizeOf_span_pos (s : Span) : 0 < sizeOf s := by
  obtain ⟨start, stop⟩ := s
  rw [Span.mk.sizeOf_spec]
  omega

/-! ## The parts that come in kinds

  One case for each kind: the children are parts of the value, next to at least one other part. -/

theorem weight_exprChildren (k : ExprKind) : weight k.children ≤ sizeOf k := by
  cases k with
  | integer literal => exact Nat.zero_le _
  | real text => exact Nat.zero_le _
  | string content => exact Nat.zero_le _
  | designator name => exact Nat.le_refl _
  | not operand => exact Nat.le_refl _
  | signed sign operand =>
    simp only [ExprKind.children, weight, Node.expr.sizeOf_spec, ExprKind.signed.sizeOf_spec]
    omega
  | binary op opSpan lhs rhs =>
    have := sizeOf_span_pos opSpan
    simp only [ExprKind.children, weight, Node.expr.sizeOf_spec, ExprKind.binary.sizeOf_spec]
    omega
  | set base elements =>
    have hb := weight_optional Node.qualident (fun _ => rfl) base
    have he := weight_map Node.element (fun _ => rfl) elements
    simp only [ExprKind.children, weight_append, ExprKind.set.sizeOf_spec]
    omega

theorem weight_typeChildren (k : TypeKind) : weight k.children ≤ sizeOf k + 1 := by
  cases k with
  | named name => exact Nat.le_succ _
  | enumeration names => exact Nat.le_succ _
  | subrange low high =>
    simp only [TypeKind.children, weight, Node.expr.sizeOf_spec, TypeKind.subrange.sizeOf_spec]
    omega
  | array index element =>
    simp only [TypeKind.children, weight, Node.type.sizeOf_spec, TypeKind.array.sizeOf_spec]
    omega
  | record entries =>
    have he := weight_map Node.fieldList (fun _ => rfl) entries
    simp only [TypeKind.children, TypeKind.record.sizeOf_spec]
    omega
  | set base => exact Nat.le_succ _
  | pointer target => exact Nat.le_succ _
  | procedure formals =>
    have hf := weight_optional Node.formalTypes (fun _ => rfl) formals
    simp only [TypeKind.children, TypeKind.procedure.sizeOf_spec]
    omega

/-- The entries of an optional list of them. -/
theorem weight_otherwise (otherwise : Option (List FieldList)) :
    weight ((otherwise.getD []).map Node.fieldList) ≤ sizeOf otherwise := by
  cases otherwise with
  | none => exact Nat.zero_le _
  | some entries =>
    have he := weight_map Node.fieldList (fun _ => rfl) entries
    rw [Option.getD_some, Option.some.sizeOf_spec]
    omega

theorem weight_fieldChildren (k : FieldKind) : weight k.children ≤ sizeOf k + 1 := by
  cases k with
  | fields names type =>
    simp only [FieldKind.children, weight, Node.identList.sizeOf_spec, Node.type.sizeOf_spec,
      FieldKind.fields.sizeOf_spec]
    omega
  | variants tag tagType arms otherwise =>
    have ht := weight_optional Node.ident (fun _ => rfl) tag
    have ha := weight_map Node.variant (fun _ => rfl) arms
    have ho := weight_otherwise otherwise
    simp only [FieldKind.children, weight_append, weight, FieldKind.variants.sizeOf_spec,
      Node.qualident.sizeOf_spec]
    omega

theorem weight_rangeChildren (r : RangeItem) : weight r.children < sizeOf r := by
  obtain ⟨lhs, rhs, span⟩ := r
  have hr := weight_optional Node.expr (fun _ => rfl) rhs
  have hs := sizeOf_span_pos span
  simp only [RangeItem.children, weight, RangeItem.mk.sizeOf_spec, Node.expr.sizeOf_spec]
  omega

theorem weight_importChildren (k : ImportKind) : weight k.children ≤ sizeOf k + 1 := by
  cases k with
  | qualified modules => exact Nat.le_succ _
  | unqualified source names =>
    simp only [ImportKind.children, weight, Node.ident.sizeOf_spec, Node.identList.sizeOf_spec,
      ImportKind.unqualified.sizeOf_spec]
    omega

theorem weight_sectionChildren (k : DeclarationKind) : weight k.children ≤ sizeOf k := by
  cases k with
  | constants items =>
    have hi := weight_map Node.constItem (fun _ => rfl) items
    simp only [DeclarationKind.children, DeclarationKind.constants.sizeOf_spec]
    omega
  | types items =>
    have hi := weight_map Node.typeItem (fun _ => rfl) items
    simp only [DeclarationKind.children, DeclarationKind.types.sizeOf_spec]
    omega

/-! ## All nodes -/

/-- The children of a node weigh less than the node. -/
theorem weight_children (n : Node) : weight n.children < sizeOf n := by
  cases n with
  | unit u =>
    cases u with
    | definition m =>
      simp only [children, CompilationUnit.moduleNode, weight, Node.unit.sizeOf_spec,
        Node.definitionModule.sizeOf_spec, CompilationUnit.definition.sizeOf_spec]
      omega
    | program m =>
      simp only [children, CompilationUnit.moduleNode, weight, Node.unit.sizeOf_spec,
        Node.programModule.sizeOf_spec, CompilationUnit.program.sizeOf_spec]
      omega
  | definitionModule m =>
    obtain ⟨name, imports, declarations, footer, span⟩ := m
    have hi := weight_map Node.importClause (fun _ => rfl) imports
    have hd := weight_map Node.declaration (fun _ => rfl) declarations
    simp only [children, weight_append, weight, Node.definitionModule.sizeOf_spec,
      DefinitionModule.mk.sizeOf_spec, Node.ident.sizeOf_spec]
    omega
  | programModule m =>
    obtain ⟨isImplementation, name, imports, block, footer, span⟩ := m
    have hi := weight_map Node.importClause (fun _ => rfl) imports
    have hs := sizeOf_span_pos span
    simp only [children, weight_append, weight, Node.programModule.sizeOf_spec,
      ProgramModule.mk.sizeOf_spec, Node.ident.sizeOf_spec, Node.block.sizeOf_spec]
    omega
  | block b =>
    obtain ⟨declarations, body, span⟩ := b
    have hd := weight_map Node.declaration (fun _ => rfl) declarations
    simp only [children, Node.block.sizeOf_spec, Block.mk.sizeOf_spec]
    omega
  | importClause i =>
    obtain ⟨kind, span⟩ := i
    have hk := weight_importChildren kind
    simp only [children, Node.importClause.sizeOf_spec, Import.mk.sizeOf_spec]
    omega
  | ident i =>
    simp only [children, weight, Node.ident.sizeOf_spec]
    omega
  | qualident q =>
    obtain ⟨first, more, span⟩ := q
    have hm := weight_map Node.ident (fun _ => rfl) more
    simp only [children, Qualident.parts, List.map_cons, weight, Node.qualident.sizeOf_spec,
      Qualident.mk.sizeOf_spec, Node.ident.sizeOf_spec]
    omega
  | identList l =>
    obtain ⟨first, more, span⟩ := l
    have hm := weight_map Node.ident (fun _ => rfl) more
    simp only [children, IdentList.idents, List.map_cons, weight, Node.identList.sizeOf_spec,
      IdentList.mk.sizeOf_spec, Node.ident.sizeOf_spec]
    omega
  | declaration d =>
    obtain ⟨id, kind, span⟩ := d
    have hk := weight_sectionChildren kind
    simp only [children, Node.declaration.sizeOf_spec, Declaration.mk.sizeOf_spec]
    omega
  | constItem c =>
    obtain ⟨name, value, span⟩ := c
    have hs := sizeOf_span_pos span
    simp only [children, weight, Node.constItem.sizeOf_spec, ConstItem.mk.sizeOf_spec,
      Node.ident.sizeOf_spec, Node.expr.sizeOf_spec]
    omega
  | typeItem t =>
    obtain ⟨name, type, span⟩ := t
    have hs := sizeOf_span_pos span
    simp only [children, weight, Node.typeItem.sizeOf_spec, TypeItem.mk.sizeOf_spec,
      Node.ident.sizeOf_spec, Node.type.sizeOf_spec]
    omega
  | type t =>
    obtain ⟨id, kind, span⟩ := t
    have hk := weight_typeChildren kind
    simp only [children, Node.type.sizeOf_spec, TypeExpr.mk.sizeOf_spec]
    omega
  | fieldList f =>
    obtain ⟨kind, span⟩ := f
    have hk := weight_fieldChildren kind
    simp only [children, Node.fieldList.sizeOf_spec, FieldList.mk.sizeOf_spec]
    omega
  | variant v =>
    obtain ⟨labels, entries, span⟩ := v
    have hl := weight_map Node.caseLabel (fun _ => rfl) labels
    have he := weight_map Node.fieldList (fun _ => rfl) entries
    simp only [children, weight_append, Node.variant.sizeOf_spec, Variant.mk.sizeOf_spec]
    omega
  | caseLabel r =>
    have hr := weight_rangeChildren r
    simp only [children, Node.caseLabel.sizeOf_spec]
    omega
  | formalTypes f =>
    obtain ⟨params, result, span⟩ := f
    have hp := weight_map Node.formalType (fun _ => rfl) params
    have hr := weight_optional Node.qualident (fun _ => rfl) result
    simp only [children, weight_append, Node.formalTypes.sizeOf_spec, FormalTypes.mk.sizeOf_spec]
    omega
  | formalType p =>
    obtain ⟨isVar, isOpenArray, type, span⟩ := p
    simp only [children, weight, Node.formalType.sizeOf_spec, FormalType.mk.sizeOf_spec,
      Node.qualident.sizeOf_spec]
    omega
  | expr e =>
    obtain ⟨id, kind, span⟩ := e
    have hk := weight_exprChildren kind
    simp only [children, Node.expr.sizeOf_spec, Expr.mk.sizeOf_spec]
    omega
  | element r =>
    have hr := weight_rangeChildren r
    simp only [children, Node.element.sizeOf_spec]
    omega

/-! ## The walk -/

/-- The nodes of a stack, each with everything below it, first node first. -/
def walkStack : List Node → List Node
  | [] => []
  | n :: stack => n :: walkStack (n.children ++ stack)
termination_by stack => weight stack
decreasing_by
  have lighter := weight_children n
  rw [weight_append, weight]
  omega

/-- The node and everything below it, each node before its children. -/
def walk (n : Node) : List Node := walkStack [n]

end Modula.Node

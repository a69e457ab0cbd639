import Modula.Token
import Modula.Tree.Module
/-!
# Trees under other ids and spans

  What a tree says does not depend on the ids of its nodes or on where its parts stand.  A
  `Relabeling` puts other ids and spans into a tree and leaves everything else as it is; the one that
  forgets puts the same id and the same span everywhere.  What is left is the bare form of a tree, and
  two trees say the same when their bare forms are equal.

  The recursion follows the tree; lists and options of parts have functions of their own, which are
  `List.map` and `Option.map` (`relabelAll_eq_map` and the lemmas like it).
-/

namespace Modula

/-- What becomes of the ids and of the spans in a tree. -/
structure Relabeling where
  id : Nat → Nat
  span : Span → Span

/-- The span of what stands nowhere. -/
def Span.nowhere : Span := ⟨0, 0⟩

/-- The same id and the same span everywhere. -/
def Relabeling.forget : Relabeling := ⟨fun _ => 0, fun _ => .nowhere⟩

/-- The same ids, and the same span everywhere. -/
def Relabeling.unplaced : Relabeling := ⟨fun n => n, fun _ => .nowhere⟩

@[simp] theorem Relabeling.forget_id (n : Nat) : forget.id n = 0 := rfl

@[simp] theorem Relabeling.forget_span (s : Span) : forget.span s = .nowhere := rfl

/-- Spans go forth by so many bytes, and so many numbers are added to the ids. -/
def Relabeling.forth (bytes ids : Nat) : Relabeling :=
  ⟨fun id => id + ids, fun s => ⟨s.start + bytes, s.stop + bytes⟩⟩

/-- Spans go back by so many bytes, and so many numbers are taken from the ids. -/
def Relabeling.back (bytes ids : Nat) : Relabeling :=
  ⟨fun id => id - ids, fun s => ⟨s.start - bytes, s.stop - bytes⟩⟩

/-- The second token is the first one at another place. -/
def Token.MovedBy (r : Relabeling) (t t' : Token) : Prop :=
  t'.kind = t.kind ∧ t'.span = r.span t.span

/-- What was moved forth can be moved back. -/
theorem Token.MovedBy.back {bytes ids : Nat} {t t' : Token} (h : MovedBy (.forth bytes ids) t t') :
    MovedBy (.back bytes ids) t' t := by
  refine ⟨h.1.symm, ?_⟩
  rw [h.2]
  show t.span = ⟨t.span.start + bytes - bytes, t.span.stop + bytes - bytes⟩
  rw [Nat.add_sub_cancel, Nat.add_sub_cancel]

/-! ## Names -/

def Ident.relabel (r : Relabeling) (i : Ident) : Ident := ⟨i.name, r.span i.span⟩

def Qualident.relabel (r : Relabeling) (q : Qualident) : Qualident :=
  ⟨q.first.relabel r, q.more.map (Ident.relabel r), r.span q.span⟩

def IdentList.relabel (r : Relabeling) (l : IdentList) : IdentList :=
  ⟨l.first.relabel r, l.more.map (Ident.relabel r), r.span l.span⟩

section

variable {r : Relabeling} (hr : ∀ a b, r.span (a.join b) = (r.span a).join (r.span b))

include hr

/-- Where joined spans go to joined spans, a name stays what it is put together from. -/
theorem Qualident.relabel_ofIdents_of_join (i : Ident) (l : List Ident) :
    (Qualident.ofIdents i l).relabel r = .ofIdents (i.relabel r) (l.map (Ident.relabel r)) := by
  have hpush : ∀ (l : List Ident) (q : Qualident), (l.foldl Qualident.push q).relabel r =
      (l.map (Ident.relabel r)).foldl Qualident.push (q.relabel r) := by
    intro l
    induction l with
    | nil => exact fun q => rfl
    | cons j l ih =>
      intro q
      rw [List.foldl_cons, ih, List.map_cons, List.foldl_cons]
      congr 1
      simp [Qualident.push, Qualident.relabel, Ident.relabel, hr]
  exact hpush l (.ofIdent i)

/-- A list is relabeled by its names, if joins are relabeled as joins. -/
theorem IdentList.relabel_ofIdents_of_join (i : Ident) (l : List Ident) :
    (IdentList.ofIdents i l).relabel r = .ofIdents (i.relabel r) (l.map (Ident.relabel r)) := by
  have hpush : ∀ (l : List Ident) (q : IdentList), (l.foldl IdentList.push q).relabel r =
      (l.map (Ident.relabel r)).foldl IdentList.push (q.relabel r) := by
    intro l
    induction l with
    | nil => exact fun q => rfl
    | cons j l ih =>
      intro q
      rw [List.foldl_cons, ih, List.map_cons, List.foldl_cons]
      congr 1
      simp [IdentList.push, IdentList.relabel, Ident.relabel, hr]
  exact hpush l (.ofIdent i)

end

/-! ## Expressions

  Trees are relabeled by recursion over them, with functions of their own for the lists in them. -/

mutual

def Expr.relabel (r : Relabeling) : Expr → Expr
  | ⟨id, kind, span⟩ => ⟨r.id id, kind.relabel r, r.span span⟩

def ExprKind.relabel (r : Relabeling) : ExprKind → ExprKind
  | .integer literal => .integer literal
  | .real text => .real text
  | .string content => .string content
  | .designator name => .designator (name.relabel r)
  | .set base elements => .set (base.map (Qualident.relabel r)) (RangeItem.relabelAll r elements)
  | .not operand => .not (operand.relabel r)
  | .signed sign operand => .signed sign (operand.relabel r)
  | .binary op opSpan lhs rhs => .binary op (r.span opSpan) (lhs.relabel r) (rhs.relabel r)

def RangeItem.relabel (r : Relabeling) : RangeItem → RangeItem
  | ⟨lhs, rhs, span⟩ => ⟨lhs.relabel r, Expr.relabel? r rhs, r.span span⟩

def RangeItem.relabelAll (r : Relabeling) : List RangeItem → List RangeItem
  | [] => []
  | i :: is => i.relabel r :: RangeItem.relabelAll r is

def Expr.relabel? (r : Relabeling) : Option Expr → Option Expr
  | none => none
  | some e => some (e.relabel r)

end

/-- The span of the whole is that of its node. -/
@[simp] theorem Expr.relabel_span (r : Relabeling) (e : Expr) :
    (e.relabel r).span = r.span e.span := by
  cases e
  rfl

/-- The recursion over the elements of a set is a map. -/
@[simp] theorem RangeItem.relabelAll_eq_map (r : Relabeling) (l : List RangeItem) :
    RangeItem.relabelAll r l = l.map (RangeItem.relabel r) := by
  induction l with
  | nil => rfl
  | cons i is ih => rw [RangeItem.relabelAll, ih, List.map_cons]

@[simp] theorem Expr.relabel?_eq_map (r : Relabeling) (o : Option Expr) :
    Expr.relabel? r o = o.map (Expr.relabel r) := by
  cases o <;> rfl

/-! ## Types

  These functions are shown to be those of the library for lists and options. -/

def FormalType.relabel (r : Relabeling) (p : FormalType) : FormalType :=
  ⟨p.isVar, p.isOpenArray, p.type.relabel r, r.span p.span⟩

def FormalTypes.relabel (r : Relabeling) (f : FormalTypes) : FormalTypes :=
  ⟨f.params.map (FormalType.relabel r), f.result.map (Qualident.relabel r), r.span f.span⟩

mutual

def TypeExpr.relabel (r : Relabeling) : TypeExpr → TypeExpr
  | ⟨id, kind, span⟩ => ⟨r.id id, kind.relabel r, r.span span⟩

def TypeKind.relabel (r : Relabeling) : TypeKind → TypeKind
  | .named name => .named (name.relabel r)
  | .enumeration names => .enumeration (names.relabel r)
  | .subrange low high => .subrange (low.relabel r) (high.relabel r)
  | .array index element => .array (index.relabel r) (element.relabel r)
  | .record entries => .record (FieldList.relabelAll r entries)
  | .set base => .set (base.relabel r)
  | .pointer target => .pointer (target.relabel r)
  | .procedure formals => .procedure (formals.map (FormalTypes.relabel r))

def FieldList.relabel (r : Relabeling) : FieldList → FieldList
  | ⟨kind, span⟩ => ⟨kind.relabel r, r.span span⟩

def FieldKind.relabel (r : Relabeling) : FieldKind → FieldKind
  | .fields names type => .fields (names.relabel r) (type.relabel r)
  | .variants tag tagType arms otherwise =>
    .variants (tag.map (Ident.relabel r)) (tagType.relabel r) (Variant.relabelAll r arms)
      (FieldList.relabelAll? r otherwise)

def Variant.relabel (r : Relabeling) : Variant → Variant
  | ⟨labels, entries, span⟩ =>
    ⟨labels.map (RangeItem.relabel r), FieldList.relabelAll r entries, r.span span⟩

def FieldList.relabelAll (r : Relabeling) : List FieldList → List FieldList
  | [] => []
  | e :: es => e.relabel r :: FieldList.relabelAll r es

def Variant.relabelAll (r : Relabeling) : List Variant → List Variant
  | [] => []
  | v :: vs => v.relabel r :: Variant.relabelAll r vs

def FieldList.relabelAll? (r : Relabeling) : Option (List FieldList) → Option (List FieldList)
  | none => none
  | some es => some (FieldList.relabelAll r es)

end

@[simp] theorem TypeExpr.relabel_span (r : Relabeling) (t : TypeExpr) :
    (t.relabel r).span = r.span t.span := by
  cases t
  rfl

@[simp] theorem FieldList.relabelAll_eq_map (r : Relabeling) (l : List FieldList) :
    FieldList.relabelAll r l = l.map (FieldList.relabel r) := by
  induction l with
  | nil => rfl
  | cons e es ih => rw [FieldList.relabelAll, ih, List.map_cons]

@[simp] theorem Variant.relabelAll_eq_map (r : Relabeling) (l : List Variant) :
    Variant.relabelAll r l = l.map (Variant.relabel r) := by
  induction l with
  | nil => rfl
  | cons v vs ih => rw [Variant.relabelAll, ih, List.map_cons]

/-- No entries behind `ELSE` stay no `ELSE` at all. -/
@[simp] theorem FieldList.relabelAll?_eq_map (r : Relabeling) (o : Option (List FieldList)) :
    FieldList.relabelAll? r o = o.map (List.map (FieldList.relabel r)) := by
  cases o with
  | none => rfl
  | some es => rw [FieldList.relabelAll?, FieldList.relabelAll_eq_map, Option.map_some]

/-! ## Modules -/

def ImportKind.relabel (r : Relabeling) : ImportKind → ImportKind
  | .qualified modules => .qualified (modules.relabel r)
  | .unqualified source names => .unqualified (source.relabel r) (names.relabel r)

def Import.relabel (r : Relabeling) (i : Import) : Import := ⟨i.kind.relabel r, r.span i.span⟩

def ConstItem.relabel (r : Relabeling) (c : ConstItem) : ConstItem :=
  ⟨c.name.relabel r, c.value.relabel r, r.span c.span⟩

def TypeItem.relabel (r : Relabeling) (t : TypeItem) : TypeItem :=
  ⟨t.name.relabel r, t.type.relabel r, r.span t.span⟩

def DeclarationKind.relabel (r : Relabeling) : DeclarationKind → DeclarationKind
  | .constants items => .constants (items.map (ConstItem.relabel r))
  | .types items => .types (items.map (TypeItem.relabel r))

def Declaration.relabel (r : Relabeling) (d : Declaration) : Declaration :=
  ⟨r.id d.id, d.kind.relabel r, r.span d.span⟩

def DefinitionModule.relabel (r : Relabeling) (m : DefinitionModule) : DefinitionModule :=
  ⟨m.name.relabel r, m.imports.map (Import.relabel r), m.declarations.map (Declaration.relabel r),
    m.footer.relabel r, r.span m.span⟩

def Block.relabel (r : Relabeling) (b : Block) : Block :=
  ⟨b.declarations.map (Declaration.relabel r), b.body.map r.span, r.span b.span⟩

def ProgramModule.relabel (r : Relabeling) (m : ProgramModule) : ProgramModule :=
  ⟨m.isImplementation, m.name.relabel r, m.imports.map (Import.relabel r), m.block.relabel r,
    m.footer.relabel r, r.span m.span⟩

def CompilationUnit.relabel (r : Relabeling) : CompilationUnit → CompilationUnit
  | .definition m => .definition (m.relabel r)
  | .program m => .program (m.relabel r)

end Modula

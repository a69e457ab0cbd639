import Modula.Proofs.Numbering
import Modula.Proofs.Relabel
/-!
# Trees are determined by their bare form and their ids

  A tree is told by what it says, by the ids of its nodes and by the spans of its parts.  The first two
  can be told apart from the tree: what it says is its bare form, and its ids are a list, in post-order.
  Nothing but the spans is lost in this way.  Two trees with the same bare form and the same list of ids
  are the same tree up to spans (`TypeExpr.recovered`).

  Ids that are drawn one after the other are told by the first of them alone; so it is enough that both
  trees are numbered from the same number on (`Recovered.of_consecutive`).

  The induction follows a tree, and the list of ids is used up along the way: a part takes the ids of
  its own from the beginning of a list, and leaves the others (`Recovered`).  So a sequence of parts
  recovers if each of its members does.
-/

namespace Modula

/-- Numbers that are counted off are consecutive. -/
theorem Consecutive.range' (first count : Nat) :
    Consecutive first (List.range' first count) (first + count) :=
  ⟨by rw [List.length_range'], by rw [List.length_range']⟩

variable {α β : Type}

/-- Its bare form and the ids at the beginning of a list leave nothing open about a part except for its
spans, and they tell where its ids end. -/
def Recovered (relabel : Relabeling → α → β) (ids : α → List Nat) (a : α) : Prop :=
  ∀ ⦃a' : α⦄ ⦃more more' : List Nat⦄, relabel .forget a = relabel .forget a' →
    ids a ++ more = ids a' ++ more' → relabel .unplaced a = relabel .unplaced a' ∧ more = more'

namespace Recovered

variable {relabel : Relabeling → α → β} {ids : α → List Nat}

/-- The parts of a sequence are recovered one after the other. -/
theorem all {l : List α} (h : ∀ a ∈ l, Recovered relabel ids a) :
    Recovered (fun r => List.map (relabel r)) (List.flatMap ids) l := by
  -- By induction on the list, the ids of which are read off one member after the other.
  induction l with
  | nil =>
    intro l' more more' hbare hids
    have hnil : l' = [] := List.map_eq_nil_iff.1 hbare.symm
    rw [hnil] at hids ⊢
    exact ⟨rfl, hids⟩
  | cons a l ih =>
    intro l' more more' hbare hids
    cases l' with
    | nil => cases hbare
    | cons a' l' =>
      obtain ⟨ha, hl⟩ := List.cons.inj hbare
      rw [List.flatMap_cons, List.flatMap_cons, List.append_assoc, List.append_assoc] at hids
      obtain ⟨hfirst, hids⟩ := h a List.mem_cons_self ha hids
      obtain ⟨hrest, hmore⟩ := ih (fun b hb => h b (List.mem_cons_of_mem a hb)) hl hids
      refine ⟨?_, hmore⟩
      show relabel .unplaced a :: l.map (relabel .unplaced) =
        relabel .unplaced a' :: l'.map (relabel .unplaced)
      exact congrArg₂ List.cons hfirst hrest

/-- What is not there takes no ids from the list. -/
theorem option {o : Option α} (h : ∀ a, o = some a → Recovered relabel ids a) :
    Recovered (fun r => Option.map (relabel r)) (fun o => o.toList.flatMap ids) o := by
  intro o' more more' hbare hids
  -- The bare forms are equal, so both are there or neither is.
  cases o with
  | none =>
    cases o' with
    | none => exact ⟨rfl, hids⟩
    | some a' => cases hbare
  | some a =>
    cases o' with
    | none => cases hbare
    | some a' =>
      have hids : ids a ++ more = ids a' ++ more' := by
        simpa only [Option.toList_some, List.flatMap_singleton] using hids
      obtain ⟨ha, hmore⟩ := h a rfl (Option.some.inj hbare) hids
      exact ⟨congrArg some ha, hmore⟩

/-- Two parts with the same bare form are the same up to spans if their ids are drawn from the same number
on, and then as many ids are drawn for one as for the other. -/
theorem of_consecutive {a a' : α} {first next next' : Nat} (h : Recovered relabel ids a)
    (hbare : relabel .forget a = relabel .forget a') (ha : Consecutive first (ids a) next)
    (ha' : Consecutive first (ids a') next') :
    relabel .unplaced a = relabel .unplaced a' ∧ next = next' := by
  -- both lists of ids go on, up to the same number
  have hlong := (ha.append (.range' next (ids a').length)).eq_range
  have hlong' := (ha'.append (.range' next' (ids a).length)).eq_range
  rw [List.length_append, List.length_range'] at hlong hlong'
  have hlonger : ids a ++ List.range' next (ids a').length =
      ids a' ++ List.range' next' (ids a).length := by
    rw [hlong, hlong', Nat.add_comm]
  obtain ⟨hunplaced, hmore⟩ := h hbare hlonger
  have hlength : (ids a').length = (ids a).length := by
    simpa only [List.length_range'] using congrArg List.length hmore
  refine ⟨hunplaced, ?_⟩
  rw [ha.next_eq, ha'.next_eq, hlength]

end Recovered

/-! ## Expressions -/

mutual

/-- The last id is that of the node itself, and the others are those of its operands. -/
theorem Expr.recovered : ∀ e : Expr, Recovered Expr.relabel Expr.ids e
  | ⟨id, kind, span⟩ => by
    rintro ⟨id', kind', span'⟩ more more' hbare hids
    rw [Expr.ids, Expr.ids, Node.ids_expr, Node.ids_expr, List.append_assoc, List.append_assoc] at hids
    obtain ⟨hkind, hmore⟩ := kind.recovered (congrArg Expr.kind hbare) hids
    obtain ⟨rfl, rfl⟩ := List.cons.inj hmore
    exact ⟨congrArg (Expr.mk id · Span.nowhere) hkind, rfl⟩

/-- One case for each kind of expression.  Two parts share the list of ids in the order in which they are
listed; a leaf takes none. -/
theorem ExprKind.recovered : ∀ kind : ExprKind, Recovered ExprKind.relabel ExprKind.ids kind
  | .integer literal => by
    intro kind' more more' hbare hids
    cases kind' <;> cases hbare
    exact ⟨rfl, hids⟩
  | .real text => by
    intro kind' more more' hbare hids
    cases kind' <;> cases hbare
    exact ⟨rfl, hids⟩
  | .string content => by
    intro kind' more more' hbare hids
    cases kind' <;> cases hbare
    exact ⟨rfl, hids⟩
  | .designator name => by
    intro kind' more more' hbare hids
    cases kind' with
    | designator name' =>
      simp only [ExprKind.ids, ExprKind.children, List.flatMap_singleton, Node.ids_qualident] at hids
      exact ⟨hbare, hids⟩
    | _ => cases hbare
  | .set base elements => by
    intro kind' more more' hbare hids
    cases kind' with
    | set base' elements' =>
      simp only [ExprKind.relabel, RangeItem.relabelAll_eq_map, ExprKind.set.injEq] at hbare ⊢
      rw [ExprKind.ids_set, ExprKind.ids_set] at hids
      obtain ⟨helements, hmore⟩ := Recovered.all (RangeItem.recovered_all elements) hbare.2 hids
      exact ⟨⟨hbare.1, helements⟩, hmore⟩
    | _ => cases hbare
  | .not operand => by
    intro kind' more more' hbare hids
    cases kind' with
    | not operand' =>
      simp only [ExprKind.ids, ExprKind.children, List.flatMap_singleton] at hids
      obtain ⟨hoperand, hmore⟩ := operand.recovered (ExprKind.not.inj hbare) hids
      exact ⟨congrArg ExprKind.not hoperand, hmore⟩
    | _ => cases hbare
  | .signed sign operand => by
    intro kind' more more' hbare hids
    cases kind' with
    | signed sign' operand' =>
      obtain ⟨rfl, hoperand⟩ := ExprKind.signed.inj hbare
      simp only [ExprKind.ids, ExprKind.children, List.flatMap_singleton] at hids
      obtain ⟨hoperand, hmore⟩ := operand.recovered hoperand hids
      exact ⟨congrArg (ExprKind.signed sign) hoperand, hmore⟩
    | _ => cases hbare
  | .binary op opSpan lhs rhs => by
    intro kind' more more' hbare hids
    cases kind' with
    | binary op' opSpan' lhs' rhs' =>
      obtain ⟨rfl, -, hlhs, hrhs⟩ := ExprKind.binary.inj hbare
      rw [ExprKind.ids_binary, ExprKind.ids_binary, List.append_assoc, List.append_assoc] at hids
      obtain ⟨hlhs, hids⟩ := lhs.recovered hlhs hids
      obtain ⟨hrhs, hmore⟩ := rhs.recovered hrhs hids
      exact ⟨congrArg₂ (ExprKind.binary op Span.nowhere) hlhs hrhs, hmore⟩
    | _ => cases hbare

/-- Both bounds, of which the second may be missing. -/
theorem RangeItem.recovered : ∀ r : RangeItem, Recovered RangeItem.relabel RangeItem.ids r
  | ⟨lhs, rhs, span⟩ => by
    rintro ⟨lhs', rhs', span'⟩ more more' hbare hids
    simp only [RangeItem.relabel, Expr.relabel?_eq_map, RangeItem.mk.injEq] at hbare ⊢
    rw [RangeItem.ids_eq, RangeItem.ids_eq, List.append_assoc, List.append_assoc] at hids
    obtain ⟨hlhs, hids⟩ := lhs.recovered hbare.1 hids
    obtain ⟨hrhs, hmore⟩ := Recovered.option (Expr.recovered_option rhs) hbare.2.1 hids
    exact ⟨⟨hlhs, hrhs, rfl⟩, hmore⟩

theorem RangeItem.recovered_all :
    ∀ l : List RangeItem, ∀ r ∈ l, Recovered RangeItem.relabel RangeItem.ids r
  | [] => List.forall_mem_nil _
  | r :: rs => List.forall_mem_cons.2 ⟨r.recovered, RangeItem.recovered_all rs⟩

theorem Expr.recovered_option :
    ∀ o : Option Expr, ∀ e, o = some e → Recovered Expr.relabel Expr.ids e
  | none => nofun
  | some e => fun _ h => Option.some.inj h ▸ e.recovered

end

/-! ## Types -/

/-- Both bounds are expressions. -/
theorem TypeKind.ids_subrange (low high : Expr) :
    (TypeKind.subrange low high).ids = low.ids ++ high.ids := by
  simp [ids, children, Expr.ids]

/-- The index type is numbered before the element type. -/
theorem TypeKind.ids_array (index element : TypeExpr) :
    (TypeKind.array index element).ids = TypeExpr.ids index ++ TypeExpr.ids element := by
  simp [ids, children, TypeExpr.ids]

/-- All types in the heading of a procedure type are names. -/
theorem TypeKind.ids_procedure (formals : Option FormalTypes) : (TypeKind.procedure formals).ids = [] :=
  Node.flatMap_ids_map_eq_nil Node.ids_formalTypes _

/-- The entries of a record, in their order. -/
theorem TypeKind.ids_record (entries : List FieldList) :
    (TypeKind.record entries).ids = entries.flatMap FieldList.ids := by
  rw [ids, children, List.flatMap_map]

/-- One type is given for all names of a line, and it is numbered once. -/
theorem FieldKind.ids_fields (names : IdentList) (type : TypeExpr) :
    (FieldKind.fields names type).ids = type.ids := by
  simp [ids, children, TypeExpr.ids]

/-- The entries of an optional list of them. -/
theorem FieldList.flatMap_ids_otherwise (otherwise : Option (List FieldList)) :
    (otherwise.getD []).flatMap ids = otherwise.toList.flatMap (List.flatMap ids) := by
  cases otherwise with
  | none => rfl
  | some entries => rw [Option.getD_some, Option.toList_some, List.flatMap_singleton]

mutual

/-- The last id is that of the node itself.  It follows the constructors, together with the statements
about entries, arms and lists of them below. -/
theorem TypeExpr.recovered : ∀ t : TypeExpr, Recovered TypeExpr.relabel TypeExpr.ids t
  | ⟨id, kind, span⟩ => by
    rintro ⟨id', kind', span'⟩ more more' hbare hids
    rw [TypeExpr.ids, TypeExpr.ids, Node.ids_type, Node.ids_type, List.append_assoc,
      List.append_assoc] at hids
    obtain ⟨hkind, hmore⟩ := kind.recovered (congrArg TypeExpr.kind hbare) hids
    obtain ⟨rfl, rfl⟩ := List.cons.inj hmore
    exact ⟨congrArg (TypeExpr.mk id · Span.nowhere) hkind, rfl⟩

/-- One case for each kind of type. -/
theorem TypeKind.recovered : ∀ kind : TypeKind, Recovered TypeKind.relabel TypeKind.ids kind
  | .named name => by
    intro kind' more more' hbare hids
    cases kind' with
    | named name' =>
      simp only [TypeKind.ids, TypeKind.children, List.flatMap_singleton, Node.ids_qualident] at hids
      exact ⟨hbare, hids⟩
    | _ => cases hbare
  | .enumeration names => by
    intro kind' more more' hbare hids
    cases kind' with
    | enumeration names' =>
      simp only [TypeKind.ids, TypeKind.children, List.flatMap_singleton, Node.ids_identList] at hids
      exact ⟨hbare, hids⟩
    | _ => cases hbare
  | .subrange low high => by
    intro kind' more more' hbare hids
    cases kind' with
    | subrange low' high' =>
      obtain ⟨hlow, hhigh⟩ := TypeKind.subrange.inj hbare
      rw [TypeKind.ids_subrange, TypeKind.ids_subrange, List.append_assoc, List.append_assoc] at hids
      obtain ⟨hlow, hids⟩ := low.recovered hlow hids
      obtain ⟨hhigh, hmore⟩ := high.recovered hhigh hids
      exact ⟨congrArg₂ TypeKind.subrange hlow hhigh, hmore⟩
    | _ => cases hbare
  | .array index element => by
    intro kind' more more' hbare hids
    cases kind' with
    | array index' element' =>
      obtain ⟨hindex, helement⟩ := TypeKind.array.inj hbare
      rw [TypeKind.ids_array, TypeKind.ids_array, List.append_assoc, List.append_assoc] at hids
      obtain ⟨hindex, hids⟩ := index.recovered hindex hids
      obtain ⟨helement, hmore⟩ := element.recovered helement hids
      exact ⟨congrArg₂ TypeKind.array hindex helement, hmore⟩
    | _ => cases hbare
  | .record entries => by
    intro kind' more more' hbare hids
    cases kind' with
    | record entries' =>
      simp only [TypeKind.relabel, FieldList.relabelAll_eq_map, TypeKind.record.injEq] at hbare ⊢
      rw [TypeKind.ids_record, TypeKind.ids_record] at hids
      exact Recovered.all (FieldList.recovered_all entries) hbare hids
    | _ => cases hbare
  | .set base => by
    intro kind' more more' hbare hids
    cases kind' with
    | set base' =>
      simp only [TypeKind.ids, TypeKind.children, List.flatMap_singleton] at hids
      obtain ⟨hbase, hmore⟩ := base.recovered (TypeKind.set.inj hbare) hids
      exact ⟨congrArg TypeKind.set hbase, hmore⟩
    | _ => cases hbare
  | .pointer target => by
    intro kind' more more' hbare hids
    cases kind' with
    | pointer target' =>
      simp only [TypeKind.ids, TypeKind.children, List.flatMap_singleton] at hids
      obtain ⟨htarget, hmore⟩ := target.recovered (TypeKind.pointer.inj hbare) hids
      exact ⟨congrArg TypeKind.pointer htarget, hmore⟩
    | _ => cases hbare
  | .procedure formals => by
    intro kind' more more' hbare hids
    cases kind' with
    | procedure formals' =>
      simp only [TypeKind.ids_procedure] at hids
      exact ⟨hbare, hids⟩
    | _ => cases hbare

/-- An entry has no id, so it takes just the ids of what is in it. -/
theorem FieldList.recovered : ∀ e : FieldList, Recovered FieldList.relabel FieldList.ids e
  | ⟨kind, span⟩ => by
    rintro ⟨kind', span'⟩ more more' hbare hids
    rw [FieldList.ids, FieldList.ids, Node.ids_fieldList, Node.ids_fieldList] at hids
    obtain ⟨hkind, hmore⟩ := kind.recovered (congrArg FieldList.kind hbare) hids
    exact ⟨congrArg (FieldList.mk · Span.nowhere) hkind, hmore⟩

/-- A line of fields, or a variant part with its arms and what is behind `ELSE`. -/
theorem FieldKind.recovered : ∀ kind : FieldKind, Recovered FieldKind.relabel FieldKind.ids kind
  | .fields names type => by
    intro kind' more more' hbare hids
    cases kind' with
    | fields names' type' =>
      obtain ⟨hnames, htype⟩ := FieldKind.fields.inj hbare
      rw [FieldKind.ids_fields, FieldKind.ids_fields] at hids
      obtain ⟨htype, hmore⟩ := type.recovered htype hids
      exact ⟨congrArg₂ FieldKind.fields hnames htype, hmore⟩
    | variants => cases hbare
  | .variants tag tagType arms otherwise => by
    intro kind' more more' hbare hids
    cases kind' with
    | fields => cases hbare
    | variants tag' tagType' arms' otherwise' =>
      simp only [FieldKind.relabel, Variant.relabelAll_eq_map, FieldList.relabelAll?_eq_map,
        FieldKind.variants.injEq] at hbare ⊢
      obtain ⟨htag, htagType, harms, hotherwise⟩ := hbare
      rw [FieldKind.ids_variants, FieldKind.ids_variants, List.append_assoc, List.append_assoc,
        FieldList.flatMap_ids_otherwise, FieldList.flatMap_ids_otherwise] at hids
      obtain ⟨harms, hids⟩ := Recovered.all (Variant.recovered_all arms) harms hids
      obtain ⟨hotherwise, hmore⟩ :=
        Recovered.option (FieldList.recovered_otherwise otherwise) hotherwise hids
      exact ⟨⟨htag, htagType, harms, hotherwise⟩, hmore⟩

/-- The labels take the first ids of an arm, its entries the others. -/
theorem Variant.recovered : ∀ v : Variant, Recovered Variant.relabel Variant.ids v
  | ⟨labels, entries, span⟩ => by
    rintro ⟨labels', entries', span'⟩ more more' hbare hids
    simp only [Variant.relabel, FieldList.relabelAll_eq_map, Variant.mk.injEq] at hbare ⊢
    rw [Variant.ids_eq, Variant.ids_eq, List.append_assoc, List.append_assoc] at hids
    obtain ⟨hlabels, hids⟩ := Recovered.all (fun r _ => r.recovered) hbare.1 hids
    obtain ⟨hentries, hmore⟩ := Recovered.all (FieldList.recovered_all entries) hbare.2.1 hids
    exact ⟨⟨hlabels, hentries, rfl⟩, hmore⟩

theorem FieldList.recovered_all :
    ∀ l : List FieldList, ∀ e ∈ l, Recovered FieldList.relabel FieldList.ids e
  | [] => List.forall_mem_nil _
  | e :: es => List.forall_mem_cons.2 ⟨e.recovered, FieldList.recovered_all es⟩

theorem Variant.recovered_all :
    ∀ l : List Variant, ∀ v ∈ l, Recovered Variant.relabel Variant.ids v
  | [] => List.forall_mem_nil _
  | v :: vs => List.forall_mem_cons.2 ⟨v.recovered, Variant.recovered_all vs⟩

/-- An `ELSE` without entries and no `ELSE` at all have no ids either way; the bare form tells them
apart. -/
theorem FieldList.recovered_otherwise : ∀ o : Option (List FieldList), ∀ es, o = some es →
    Recovered (fun r => List.map (FieldList.relabel r)) (List.flatMap FieldList.ids) es
  | none => nofun
  | some es => fun _ h => Option.some.inj h ▸ .all (FieldList.recovered_all es)

end

end Modula

import Modula.Parser.TypeExpr
import Modula.Proofs.Forms.Building
/-!
# How types are numbered

  A type draws its id behind everything inside it.  An array with several indexes stands for arrays
  inside each other; their ids are drawn behind the type of the elements, for the innermost array first,
  and that is the order in which they are left in post-order.
-/

namespace Modula.Parser

open Token.Kind (word symbol)

variable {before : List Nat}

/-- The ids of an expression are those of the phrase that is read (`Forms.consecutive`). -/
theorem expr_draws : Draws [] expr Expr.ids := by
  intro construct c e c' h
  obtain ⟨ts, _, he⟩ := expr_builds h
  exact ⟨e.ids, rfl, he.consecutive⟩

/-- Labels and elements are read by the same reader. -/
theorem rangeItem_draws : Draws [] rangeItem RangeItem.ids := by
  intro construct c r c' h
  obtain ⟨ts, _, hr⟩ := rangeItem_builds h
  exact ⟨r.ids, rfl, hr.consecutive⟩

/-- The node of a type is numbered when all of its parts are read. -/
theorem typeNode_draws (kind : TypeKind) (start : Nat) :
    Draws (kind.children.flatMap Node.ids) (typeNode kind start) TypeExpr.ids :=
  .bind .freshId fun _ => .quiet_bind lastEnd_quiet fun _ => .pure (Node.ids_type _)

/-! ## Simple types -/

/-- The names of an enumeration have no ids. -/
theorem enumeration_draws : Draws [] enumeration fun kind => kind.children.flatMap Node.ids := by
  refine .within (.quiet_bind advance_quiet fun opener => .quiet_bind identList_quiet fun names => ?_)
  refine .quiet_bind (close_quiet _ _) fun _ => .pure ?_
  simp [TypeKind.children]

/-- Both bounds of a subrange, in their order. -/
theorem subrange_draws : Draws [] subrange fun kind => kind.children.flatMap Node.ids := by
  refine .within (.quiet_bind advance_quiet fun opener => .bind expr_draws fun low => ?_)
  refine .quiet_bind (expect_quiet _) fun _ => .bind (expr_draws.behind _) fun high => ?_
  refine .quiet_bind (close_quiet _ _) fun _ => .pure ?_
  simp [TypeKind.children, Expr.ids]

/-- A simple type: its parts first, then the node for it. -/
theorem simpleType_draws : Draws [] simpleType TypeExpr.ids := by
  refine .quiet_bind get_quiet fun c => .quiet_bind kind_quiet fun k => ?_
  split
  · refine .quiet_bind qualident_quiet fun name => ?_
    have hnode := typeNode_draws (.named name) c.token.span.start
    rwa [TypeKind.children, List.flatMap_singleton, Node.ids_qualident] at hnode
  · exact .bind enumeration_draws fun kind => typeNode_draws kind _
  · exact .bind subrange_draws fun kind => typeNode_draws kind _
  · exact .of_fail

/-! ## Procedure types

  Formal types are told by names, which have no ids. -/

theorem formal_quiet : Quiet formal := by
  refine .bind get_quiet fun c => .bind (accept_quiet _) fun isVar => ?_
  refine .bind (accept_quiet _) fun isOpenArray => .ite ?_ ?_
  · refine .bind (expect_quiet _) fun _ => .bind qualident_quiet fun type => ?_
    exact .bind lastEnd_quiet fun _ => .pure _
  · exact .bind qualident_quiet fun type => .bind lastEnd_quiet fun _ => .pure _

/-- Everything in the heading of a procedure type is a name. -/
theorem formals_quiet : Quiet formals := by
  have hparams : Quiet formalParams := by
    refine .bind kind_quiet fun k => .ite (.pure _) ?_
    exact .bind (sepBy_quiet formal_quiet) fun _ => .pure _
  have hresult : Quiet formalResult := by
    refine .bind (accept_quiet _) fun taken => .ite ?_ (.pure _)
    exact .bind qualident_quiet fun _ => .pure _
  refine .within (.bind (expect_quiet _) fun opener => .bind hparams fun params => ?_)
  refine .bind (close_quiet _ _) fun _ => .bind hresult fun result => ?_
  exact .bind lastEnd_quiet fun _ => .pure _

/-- One id, since no type in the heading is a node with one. -/
theorem procedureType_draws : Draws [] procedureType TypeExpr.ids := by
  have hnode : ∀ (formals : Option FormalTypes) (start : Nat),
      Draws [] (typeNode (.procedure formals) start) TypeExpr.ids := by
    intro formals start
    have hnone : (TypeKind.procedure formals).children.flatMap Node.ids = [] :=
      Node.flatMap_ids_map_eq_nil Node.ids_formalTypes _
    exact hnone ▸ typeNode_draws (.procedure formals) start
  refine .within (.quiet_bind (expect_quiet _) fun head => .quiet_bind kind_quiet fun k => ?_)
  exact .ite (fun _ => .quiet_bind formals_quiet fun formals => hnode _ _) fun _ => hnode _ _

/-! ## Array, set and pointer types

  Arrays with several indexes are the only case in which nodes are made without reading on. -/

/-- The node of an array goes behind the index type and the element type, which may be nested arrays
themselves. -/
theorem arrayNode_draws (before : List Nat) (start : Nat) (index element : TypeExpr) :
    Draws (before ++ TypeExpr.ids index ++ TypeExpr.ids element) (arrayNode start index element)
      fun t => before ++ TypeExpr.ids t := by
  refine .bind .freshId fun id => .pure ?_
  simp [TypeExpr.ids, Node.ids_type, TypeKind.children]

/-- All indexes and the type of the elements are there before the first array gets its id. -/
theorem nestedArrays_draws (indexes : List TypeExpr) (element : TypeExpr) :
    Draws (before ++ indexes.flatMap TypeExpr.ids ++ TypeExpr.ids element) (nestedArrays indexes element)
      fun t => before ++ TypeExpr.ids t := by
  induction indexes generalizing before with
  | nil =>
    refine .pure ?_
    rw [List.flatMap_nil, List.append_nil]
  | cons index more ih =>
    rw [List.flatMap_cons, ← List.append_assoc]
    exact .bind ih fun inner => arrayNode_draws _ _ index inner

/-- The base type of a set first, then the set. -/
theorem setType_draws : Draws [] setType TypeExpr.ids := by
  refine .within (.quiet_bind (expect_quiet _) fun head => .quiet_bind (expect_quiet _) fun _ => ?_)
  refine .bind simpleType_draws fun base => .bind .freshId fun id => .pure ?_
  simp [TypeExpr.ids, Node.ids_type, TypeKind.children]

section

variable {type : Parser TypeExpr} (ht : Draws [] type TypeExpr.ids)

include ht

/-- With several index types the arrays are nested: all index types are read first, and the nodes of the
arrays are then numbered from the innermost one on. -/
theorem arrayTypeWith_draws : Draws [] (arrayTypeWith type) TypeExpr.ids := by
  refine .within (.quiet_bind (expect_quiet _) fun head => ?_)
  refine .bind (sepBy_draws simpleType_draws) fun indexes => .quiet_bind (expect_quiet _) fun _ => ?_
  refine .bind (ht.behind _) fun element => .bind (nestedArrays_draws _ element) fun inner => ?_
  exact arrayNode_draws [] _ indexes.1 inner

/-- The type pointed to first, then the pointer. -/
theorem pointerTypeWith_draws : Draws [] (pointerTypeWith type) TypeExpr.ids := by
  refine .within (.quiet_bind (expect_quiet _) fun head => .quiet_bind (expect_quiet _) fun _ => ?_)
  refine .bind ht fun target => .bind .freshId fun id => .pure ?_
  simp [TypeExpr.ids, Node.ids_type, TypeKind.children]

/-! ## Records

  Tags are names, and names have no ids. -/

/-- A line of fields has the ids of its one type. -/
theorem fieldsWith_draws : Draws [] (fieldsWith type) FieldList.ids := by
  refine .quiet_bind identList_quiet fun names => .quiet_bind (expect_quiet _) fun _ => ?_
  refine .bind ht fun type => .pure ?_
  simp [FieldList.ids, TypeExpr.ids, Node.ids_fieldList, FieldKind.children]

end

theorem tag_quiet : Quiet tag := by
  refine .bind (accept_quiet _) fun taken => .ite ?_ ?_
  · exact .bind qualident_quiet fun _ => .pure _
  · refine .bind get_quiet fun place => .bind qualident_quiet fun first => ?_
    refine .bind (accept_quiet _) fun taken => .ite (.ite .failAt ?_) (.pure _)
    exact .bind qualident_quiet fun _ => .pure _

section

variable {entry : Parser FieldList} (he : Draws [] entry FieldList.ids)

include he

/-- Entries one after the other, by induction on the budget. -/
theorem moreEntries_draws (budget : Nat) :
    Draws before (moreEntries entry budget) fun l => before ++ l.flatMap FieldList.ids := by
  induction budget generalizing before with
  | zero => exact .pure (List.append_nil _)
  | succ budget ih =>
    refine .quiet_bind (accept_quiet _) fun taken => ?_
    refine .ite (fun _ => ?_) fun _ => .pure (List.append_nil _)
    refine .quiet_bind get_quiet fun c => ?_
    refine .ite (fun _ => .pure (List.append_nil _)) fun _ => ?_
    refine .bind (he.behind before) fun e => .bind ih fun more => .pure ?_
    rw [List.flatMap_cons, List.append_assoc]

theorem entriesWith_draws : Draws [] (entriesWith entry) fun l => l.flatMap FieldList.ids := by
  refine .bind he fun first => .quiet_bind remaining_quiet fun _ => ?_
  exact .bind (moreEntries_draws he _) fun more => .pure List.flatMap_cons

/-- The entries first, then the record. -/
theorem recordTypeWith_draws : Draws [] (recordTypeWith entry) TypeExpr.ids := by
  refine .within (.quiet_bind (expect_quiet _) fun opener => ?_)
  refine .bind (entriesWith_draws he) fun entries => .quiet_bind (close_quiet _ _) fun _ => ?_
  have hnode := typeNode_draws (.record entries) opener.span.start
  rwa [TypeKind.children, List.flatMap_map] at hnode

/-- The labels of an arm first, then its entries. -/
theorem armWith_draws : Draws [] (armWith entry) Variant.ids := by
  refine .quiet_bind get_quiet fun c => .bind (sepBy_draws rangeItem_draws) fun labels => ?_
  refine .quiet_bind (expect_quiet _) fun _ => .bind ((entriesWith_draws he).behind _) fun entries => ?_
  refine .quiet_bind lastEnd_quiet fun stop => .pure ?_
  rw [Variant.ids_eq, List.flatMap_cons, List.nil_append]

theorem otherwiseWith_draws :
    Draws [] (otherwiseWith entry) fun o => (o.getD []).flatMap FieldList.ids := by
  refine .quiet_bind (accept_quiet _) fun taken => .ite (fun _ => ?_) fun _ => .pure rfl
  exact .bind (entriesWith_draws he) fun entries => .pure rfl

/-- A variant part has no id; its arms and the part behind `ELSE` follow each other. -/
theorem variantPartWith_draws : Draws [] (variantPartWith entry) FieldList.ids := by
  refine .within (.quiet_bind (expect_quiet _) fun opener => .quiet_bind tag_quiet fun tag => ?_)
  refine .quiet_bind (expect_quiet _) fun _ => .bind (sepBy_draws (armWith_draws he)) fun arms => ?_
  refine .bind ((otherwiseWith_draws he).behind _) fun otherwise => ?_
  refine .quiet_bind (close_quiet _ _) fun _ => .quiet_bind lastEnd_quiet fun stop => .pure ?_
  rw [FieldList.ids, Node.ids_fieldList]
  exact FieldKind.ids_variants _ _ _ _

end

/-! ## Types -/

section

variable {type : Parser TypeExpr} {entry : Parser FieldList} (ht : Draws [] type TypeExpr.ids)
  (he : Draws [] entry FieldList.ids)

include ht he

theorem typeWith_draws : Draws [] (typeWith type entry) TypeExpr.ids := by
  refine .quiet_bind kind_quiet fun k => ?_
  split
  · exact arrayTypeWith_draws ht
  · exact recordTypeWith_draws he
  · exact setType_draws
  · exact pointerTypeWith_draws ht
  · exact procedureType_draws
  · exact simpleType_draws

theorem entryWith_draws : Draws [] (entryWith type entry) FieldList.ids :=
  .quiet_bind kind_quiet fun _ =>
    .ite (fun _ => variantPartWith_draws he) fun _ => fieldsWith_draws ht

end

/-- Types and entries contain each other, so the budget carries both. -/
theorem typeAt_draws (budget : Nat) :
    Draws [] (typeAt budget) TypeExpr.ids ∧ Draws [] (entryAt budget) FieldList.ids := by
  induction budget with
  | zero => exact ⟨.of_fail, .of_fail⟩
  | succ budget ih => exact ⟨typeWith_draws ih.1 ih.2, entryWith_draws ih.1 ih.2⟩

/-- Whatever type is read, its ids are those drawn meanwhile. -/
theorem type_draws : Draws [] type TypeExpr.ids :=
  .quiet_bind remaining_quiet fun _ => (typeAt_draws _).1

end Modula.Parser

import Modula.Proofs.Json.Trees
/-!
# What is read is in range

  A tree that has been read out of a value has ids and offsets that can be written and read again: the
  readers of numbers refuse all others (`Node.Fits`).  The readers of the parts yield parts that are in
  range, and a node is in range if its own numbers and its children are.

  For expressions, and for types with the entries of records, the induction is on the budget of the
  reader.
-/

namespace Modula

open Json Node

/-- Some readers may read anything. -/
theorem Json.Yields.any {α : Type} {read : Json → Option α} : Yields read fun _ => True :=
  fun _ _ _ => trivial

/-- A number out of range is refused. -/
theorem Json.Yields.nat {bound : Nat} : Yields (nat? bound) (· < bound) := by
  intro j n h
  unfold nat? at h
  split at h
  · split at h
    · next hlt =>
      cases h
      exact hlt
    · cases h
  · cases h

/-- Offsets have 64 bits when they are read. -/
theorem Span.yields : Yields Span.ofJson? Span.Fits :=
  .bind (.required .nat) fun _ hstart => .bind (.required .nat) fun _ hstop => .pure ⟨hstart, hstop⟩

/-- A node without an id, which holds one span. -/
theorem Node.fits_of_span {n : Node} (hid : n.id? = none) (hspans : n.spans = [n.span])
    (hspan : n.span.Fits) (h : ∀ c ∈ n.children, c.Fits) : n.Fits := by
  refine fits_iff.2 ⟨⟨?_, ?_⟩, h⟩
  · rw [hid]
    nofun
  · rw [hspans]
    exact List.forall_mem_singleton.2 hspan

/-- A node with an id: the id has to be in range as well. -/
theorem Node.fits_of_id {n : Node} {id : Nat} (hn : n.id? = some id) (hid : id < idBound)
    (hspans : ∀ s ∈ n.spans, s.Fits) (h : ∀ c ∈ n.children, c.Fits) : n.Fits := by
  refine fits_iff.2 ⟨⟨?_, hspans⟩, h⟩
  rw [hn]
  rintro _ ⟨⟩
  exact hid

/-- All texts are names here, so only the span counts. -/
theorem Ident.yields : Yields Ident.ofJson? fun i => (Node.ident i).Fits :=
  .bind (.required .any) fun _ _ => .bind (.required Span.yields) fun _ hspan =>
    .pure (fits_of_span rfl rfl hspan nofun)

/-- A name without segments is refused; the others are in range one by one. -/
theorem Qualident.yields : Yields Qualident.ofJson? fun q => (Node.qualident q).Fits := by
  refine .bind (.required (.items Ident.yields)) fun parts hparts =>
    .bind (.required Span.yields) fun span hspan => ?_
  cases parts with
  | nil => nofun
  | cons first more =>
    exact .pure (fits_of_span rfl rfl hspan (List.forall_mem_map.2 hparts))

theorem IdentList.yields : Yields IdentList.ofJson? fun l => (Node.identList l).Fits := by
  refine .bind (.required (.items Ident.yields)) fun idents hidents =>
    .bind (.required Span.yields) fun span hspan => ?_
  cases idents with
  | nil => nofun
  | cons first more =>
    exact .pure (fits_of_span rfl rfl hspan (List.forall_mem_map.2 hidents))

/-! ## Expressions -/

section

variable {expr : Json → Option Expr} {type : Json → Option TypeExpr} {entry : Json → Option FieldList}

/-- A range item and a case label are in range together: their children and their spans are. -/
theorem RangeItem.yields (h : Yields expr fun e => (Node.expr e).Fits) :
    Yields (RangeItem.read? expr) fun r => (Node.element r).Fits ∧ (Node.caseLabel r).Fits := by
  refine .bind (.required h) fun lhs hlhs => .bind (.optional h) fun rhs hrhs =>
    .bind (.required Span.yields) fun span hspan => .pure ?_
  have hchildren : ∀ c ∈ RangeItem.children ⟨lhs, rhs, span⟩, c.Fits :=
    List.forall_mem_cons.2 ⟨hlhs, List.forall_mem_map.2 (by simpa using hrhs)⟩
  exact ⟨fits_of_span rfl rfl hspan hchildren, fits_of_span rfl rfl hspan hchildren⟩

/-- One case for each kind of expression that is read. -/
theorem ExprKind.yields (h : Yields expr fun e => (Node.expr e).Fits) :
    Yields (ExprKind.read? expr) fun k => (∀ s ∈ k.spans, s.Fits) ∧ ∀ c ∈ k.children, c.Fits := by
  intro j k hk
  obtain ⟨⟨tag, v⟩, -, hk⟩ := Option.bind_eq_some_iff.1 hk
  split at hk
  case h_9 => cases hk
  all_goals
    simp only [Option.bind_eq_bind, Option.bind_eq_some_iff, Option.pure_def, Option.some.injEq] at hk
  · obtain ⟨literal, -, rfl⟩ := hk
    exact ⟨nofun, nofun⟩
  · obtain ⟨text, -, rfl⟩ := hk
    exact ⟨nofun, nofun⟩
  · obtain ⟨content, -, rfl⟩ := hk
    exact ⟨nofun, nofun⟩
  · obtain ⟨name, hname, rfl⟩ := hk
    exact ⟨nofun, List.forall_mem_singleton.2 (Qualident.yields hname)⟩
  · obtain ⟨base, hbase, elements, helements, rfl⟩ := hk
    have hbase := Yields.optional Qualident.yields hbase
    have helements := Yields.required (Yields.items (RangeItem.yields h)) helements
    exact ⟨nofun, List.forall_mem_append.2 ⟨List.forall_mem_map.2 (by simpa using hbase),
      List.forall_mem_map.2 fun r hr => (helements r hr).1⟩⟩
  · obtain ⟨operand, hoperand, rfl⟩ := hk
    exact ⟨nofun, List.forall_mem_singleton.2 (h hoperand)⟩
  · obtain ⟨sign, -, operand, hoperand, rfl⟩ := hk
    exact ⟨nofun, List.forall_mem_singleton.2 (h.required hoperand)⟩
  · obtain ⟨op, -, opSpan, hopSpan, lhs, hlhs, rhs, hrhs, rfl⟩ := hk
    exact ⟨List.forall_mem_singleton.2 (Span.yields.required hopSpan),
      List.forall_mem_cons.2 ⟨h.required hlhs, List.forall_mem_singleton.2 (h.required hrhs)⟩⟩

/-- By induction on the budget of the reader. -/
theorem Expr.yields : Yields Expr.ofJson? fun e => (Node.expr e).Fits := by
  have hbudget : ∀ n, Yields (Expr.readAt? n) fun e => (Node.expr e).Fits := by
    intro n
    induction n with
    | zero => nofun
    | succ n ih =>
      exact .bind (.required .nat) fun _ hid => .bind (.required (ExprKind.yields ih)) fun _ hkind =>
        .bind (.required Span.yields) fun _ hspan =>
          .pure (fits_of_id rfl hid (List.forall_mem_cons.2 ⟨hspan, hkind.1⟩) hkind.2)
  exact fun j _ h => hbudget j.depth h

/-! ## Types -/

theorem FormalType.yields : Yields FormalType.ofJson? fun p => (Node.formalType p).Fits :=
  .bind (.required .any) fun _ _ => .bind (.required .any) fun _ _ =>
    .bind (.required Qualident.yields) fun _ htype => .bind (.required Span.yields) fun _ hspan =>
      .pure (fits_of_span rfl rfl hspan (List.forall_mem_singleton.2 htype))

theorem FormalTypes.yields : Yields FormalTypes.ofJson? fun f => (Node.formalTypes f).Fits :=
  .bind (.required (.items FormalType.yields)) fun _ hparams =>
    .bind (.optional Qualident.yields) fun _ hresult => .bind (.required Span.yields) fun _ hspan =>
      .pure (fits_of_span rfl rfl hspan (List.forall_mem_append.2
        ⟨List.forall_mem_map.2 hparams, List.forall_mem_map.2 (by simpa using hresult)⟩))

/-- One case for each kind of type. -/
theorem TypeKind.yields (ht : Yields type fun t => (Node.type t).Fits)
    (he : Yields entry fun f => (Node.fieldList f).Fits) :
    Yields (TypeKind.read? type entry) fun k => ∀ c ∈ k.children, c.Fits := by
  intro j k hk
  obtain ⟨⟨tag, v⟩, -, hk⟩ := Option.bind_eq_some_iff.1 hk
  split at hk
  case h_9 => cases hk
  all_goals
    simp only [Option.bind_eq_bind, Option.bind_eq_some_iff, Option.pure_def, Option.some.injEq] at hk
  · obtain ⟨name, hname, rfl⟩ := hk
    exact List.forall_mem_singleton.2 (Qualident.yields hname)
  · obtain ⟨names, hnames, rfl⟩ := hk
    exact List.forall_mem_singleton.2 (IdentList.yields hnames)
  · obtain ⟨low, hlow, high, hhigh, rfl⟩ := hk
    exact List.forall_mem_cons.2 ⟨Expr.yields.required hlow,
      List.forall_mem_singleton.2 (Expr.yields.required hhigh)⟩
  · obtain ⟨index, hindex, element, helement, rfl⟩ := hk
    exact List.forall_mem_cons.2 ⟨ht.required hindex,
      List.forall_mem_singleton.2 (ht.required helement)⟩
  · obtain ⟨entries, hentries, rfl⟩ := hk
    exact List.forall_mem_map.2 (he.items hentries)
  · obtain ⟨base, hbase, rfl⟩ := hk
    exact List.forall_mem_singleton.2 (ht hbase)
  · obtain ⟨target, htarget, rfl⟩ := hk
    exact List.forall_mem_singleton.2 (ht htarget)
  · obtain ⟨formals, hformals, rfl⟩ := hk
    have hformals := Yields.orNull FormalTypes.yields hformals
    exact List.forall_mem_map.2 (by simpa using hformals)

/-- The labels of an arm and its entries. -/
theorem Variant.yields (he : Yields entry fun f => (Node.fieldList f).Fits) :
    Yields (Variant.read? entry) fun v => (Node.variant v).Fits :=
  .bind (.required (.items (RangeItem.yields Expr.yields))) fun _ hlabels =>
    .bind (.required he.items) fun _ hentries => .bind (.required Span.yields) fun _ hspan =>
      .pure (fits_of_span rfl rfl hspan (List.forall_mem_append.2
        ⟨List.forall_mem_map.2 fun r hr => (hlabels r hr).2, List.forall_mem_map.2 hentries⟩))

/-- A line of fields or a variant part. -/
theorem FieldKind.yields (ht : Yields type fun t => (Node.type t).Fits)
    (he : Yields entry fun f => (Node.fieldList f).Fits) :
    Yields (FieldKind.read? type entry) fun k => ∀ c ∈ k.children, c.Fits := by
  intro j k hk
  obtain ⟨⟨tag, v⟩, -, hk⟩ := Option.bind_eq_some_iff.1 hk
  split at hk
  case h_3 => cases hk
  all_goals
    simp only [Option.bind_eq_bind, Option.bind_eq_some_iff, Option.pure_def, Option.some.injEq] at hk
  · obtain ⟨names, hnames, type, htype, rfl⟩ := hk
    exact List.forall_mem_cons.2 ⟨IdentList.yields.required hnames,
      List.forall_mem_singleton.2 (ht.required htype)⟩
  · obtain ⟨tag, htag, tagType, htagType, arms, harms, otherwise, hotherwise, rfl⟩ := hk
    have htag := Yields.optional Ident.yields htag
    have htagType := Yields.required Qualident.yields htagType
    have harms := Yields.required (Variant.yields he).items harms
    have hotherwise := Yields.optional he.items hotherwise
    have hentries : ∀ f ∈ otherwise.getD [], (Node.fieldList f).Fits := by
      cases otherwise with
      | none => nofun
      | some entries => exact hotherwise entries rfl
    simp only [FieldKind.children, List.forall_mem_append, List.forall_mem_map,
      List.forall_mem_singleton]
    exact ⟨⟨⟨by simpa using htag, htagType⟩, harms⟩, hentries⟩

/-- Types and entries together, by induction on the budget. -/
theorem readAt?_yields (n : Nat) : (Yields (TypeExpr.readAt? n) fun t => (Node.type t).Fits) ∧
    Yields (FieldList.readAt? n) fun f => (Node.fieldList f).Fits := by
  induction n with
  | zero => exact ⟨nofun, nofun⟩
  | succ n ih =>
    obtain ⟨ht, he⟩ := ih
    constructor
    · exact .bind (.required .nat) fun _ hid => .bind (.required (TypeKind.yields ht he)) fun _ hkind =>
        .bind (.required Span.yields) fun _ hspan =>
          .pure (fits_of_id rfl hid (List.forall_mem_singleton.2 hspan) hkind)
    · exact .bind (.required (FieldKind.yields ht he)) fun _ hkind =>
        .bind (.required Span.yields) fun _ hspan => .pure (fits_of_span rfl rfl hspan hkind)

theorem TypeExpr.yields : Yields TypeExpr.ofJson? fun t => (Node.type t).Fits :=
  fun j _ h => (readAt?_yields j.depth).1 h

theorem FieldList.yields : Yields FieldList.ofJson? fun f => (Node.fieldList f).Fits :=
  fun j _ h => (readAt?_yields j.depth).2 h

end

/-! ## Modules -/

/-- Both kinds of import hold names only. -/
theorem ImportKind.yields : Yields ImportKind.ofJson? fun k => ∀ c ∈ k.children, c.Fits := by
  intro j k hk
  obtain ⟨⟨tag, v⟩, -, hk⟩ := Option.bind_eq_some_iff.1 hk
  split at hk
  case h_3 => cases hk
  all_goals
    simp only [Option.bind_eq_bind, Option.bind_eq_some_iff, Option.pure_def, Option.some.injEq] at hk
  · obtain ⟨modules, hmodules, rfl⟩ := hk
    exact List.forall_mem_singleton.2 (IdentList.yields.required hmodules)
  · obtain ⟨source, hsource, names, hnames, rfl⟩ := hk
    exact List.forall_mem_cons.2 ⟨Ident.yields.required hsource,
      List.forall_mem_singleton.2 (IdentList.yields.required hnames)⟩

theorem Import.yields : Yields Import.ofJson? fun i => (Node.importClause i).Fits :=
  .bind (.required ImportKind.yields) fun _ hkind => .bind (.required Span.yields) fun _ hspan =>
    .pure (fits_of_span rfl rfl hspan hkind)

theorem ConstItem.yields : Yields ConstItem.ofJson? fun c => (Node.constItem c).Fits :=
  .bind (.required Ident.yields) fun _ hname => .bind (.required Expr.yields) fun _ hvalue =>
    .bind (.required Span.yields) fun _ hspan => .pure (fits_of_span rfl rfl hspan
      (List.forall_mem_cons.2 ⟨hname, List.forall_mem_singleton.2 hvalue⟩))

theorem TypeItem.yields : Yields TypeItem.ofJson? fun t => (Node.typeItem t).Fits :=
  .bind (.required Ident.yields) fun _ hname => .bind (.required TypeExpr.yields) fun _ htype =>
    .bind (.required Span.yields) fun _ hspan => .pure (fits_of_span rfl rfl hspan
      (List.forall_mem_cons.2 ⟨hname, List.forall_mem_singleton.2 htype⟩))

/-- Both kinds of section hold a list of items. -/
theorem DeclarationKind.yields :
    Yields DeclarationKind.ofJson? fun k => ∀ c ∈ k.children, c.Fits := by
  intro j k hk
  obtain ⟨⟨tag, v⟩, -, hk⟩ := Option.bind_eq_some_iff.1 hk
  split at hk
  case h_3 => cases hk
  all_goals
    simp only [Option.bind_eq_bind, Option.bind_eq_some_iff, Option.pure_def, Option.some.injEq] at hk
  · obtain ⟨items, hitems, rfl⟩ := hk
    exact List.forall_mem_map.2 (ConstItem.yields.items hitems)
  · obtain ⟨items, hitems, rfl⟩ := hk
    exact List.forall_mem_map.2 (TypeItem.yields.items hitems)

/-- A section has an id and a span of its own. -/
theorem Declaration.yields : Yields Declaration.ofJson? fun d => (Node.declaration d).Fits :=
  .bind (.required .nat) fun _ hid => .bind (.required DeclarationKind.yields) fun _ hkind =>
    .bind (.required Span.yields) fun _ hspan =>
      .pure (fits_of_id rfl hid (List.forall_mem_singleton.2 hspan) hkind)

/-- The span of a `BEGIN` may be missing. -/
theorem Block.yields : Yields Block.ofJson? fun b => (Node.block b).Fits :=
  .bind (.required (.items Declaration.yields)) fun _ hdeclarations =>
    .bind (.optional Span.yields) fun _ hbody => .bind (.required Span.yields) fun _ hspan =>
      .pure (fits_iff.2 ⟨⟨nofun, List.forall_mem_cons.2 ⟨hspan, by simpa using hbody⟩⟩,
        List.forall_mem_map.2 hdeclarations⟩)

/-- A module has no id, but everything below it may have one. -/
theorem DefinitionModule.yields :
    Yields DefinitionModule.ofJson? fun m => (Node.definitionModule m).Fits := by
  refine .bind (.required Ident.yields) fun name hname =>
    .bind (.required (.items Import.yields)) fun imports himports =>
    .bind (.required (.items Declaration.yields)) fun declarations hdeclarations =>
    .bind (.required Ident.yields) fun footer hfooter =>
    .bind (.required Span.yields) fun span hspan => .pure (fits_of_span rfl rfl hspan ?_)
  simp only [children, List.forall_mem_append, List.forall_mem_map, List.forall_mem_singleton]
  exact ⟨⟨⟨hname, himports⟩, hdeclarations⟩, hfooter⟩

theorem ProgramModule.yields :
    Yields ProgramModule.ofJson? fun m => (Node.programModule m).Fits := by
  refine .bind (.required .any) fun isImplementation _ => .bind (.required Ident.yields) fun name hname =>
    .bind (.required (.items Import.yields)) fun imports himports =>
    .bind (.required Block.yields) fun block hblock =>
    .bind (.required Ident.yields) fun footer hfooter =>
    .bind (.required Span.yields) fun span hspan => .pure (fits_of_span rfl rfl hspan ?_)
  exact List.forall_mem_append.2
    ⟨List.forall_mem_append.2 ⟨List.forall_mem_singleton.2 hname, List.forall_mem_map.2 himports⟩,
      List.forall_mem_cons.2 ⟨hblock, List.forall_mem_singleton.2 hfooter⟩⟩

/-- The unit has the span of its module, and nothing else of its own. -/
theorem Node.fits_unit {u : CompilationUnit} (h : u.moduleNode.Fits) : (Node.unit u).Fits := by
  obtain ⟨⟨-, hspans⟩, -⟩ := fits_iff.1 h
  refine fits_of_span rfl rfl ?_ (List.forall_mem_singleton.2 h)
  cases u <;> exact hspans _ List.mem_cons_self

theorem CompilationUnit.yields : Yields CompilationUnit.ofJson? fun u => (Node.unit u).Fits := by
  intro j u hu
  obtain ⟨⟨tag, v⟩, -, hu⟩ := Option.bind_eq_some_iff.1 hu
  split at hu
  case h_3 => cases hu
  all_goals
    simp only [Option.bind_eq_bind, Option.bind_eq_some_iff, Option.pure_def, Option.some.injEq] at hu
  · obtain ⟨m, hm, rfl⟩ := hu
    exact fits_unit (DefinitionModule.yields hm)
  · obtain ⟨m, hm, rfl⟩ := hu
    exact fits_unit (ProgramModule.yields hm)

end Modula

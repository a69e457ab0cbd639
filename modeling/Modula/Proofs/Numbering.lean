import Mathlib.Data.List.Infix
import Mathlib.Data.List.Range
import Modula.Node.Walk
import Modula.Proofs.Reading
/-!
# How nodes are numbered

  Sections, types and expressions have ids.  A parser draws the id of a node when all of its parts are
  there, and so the ids of a tree are in order if every node is listed behind its children.

  1. **Order.** `Node.postorder` lists a node and everything below it, children first.  The ids on the
     way are `Node.ids`; a node adds its own id behind those of its children (`ids_eq`).
  2. **Consecutive ids.** `Consecutive first ids next` says that the ids are those from `first` up to
     `next`, none left out.  Stretches of ids that follow each other are one stretch.
  3. **Parsers.** `Draws before p after` says that what `p` reads adds to the ids `before` just the ids
     that are drawn meanwhile.  It holds of a sequence if it holds of its steps, each of which starts
     with what the one in front of it ended with.
-/

namespace Modula

/-! ## Orders of nodes

  The walk visits a node in front of its children.  Ids are given the other way round, since a node is
  made when its parts have been read; the order for this is `postorder`, and it lists the same nodes. -/

namespace Node

/-- The id of a node, if nodes of its kind have one. -/
def id? : Node → Option Nat
  | .declaration d => some d.id
  | .type t => some t.id
  | .expr e => some e.id
  | _ => none

/-- The weight of a stack bounds the size of each node on it. -/
theorem sizeOf_le_weight {n : Node} {ns : List Node} (h : n ∈ ns) : sizeOf n ≤ weight ns := by
  induction ns with
  | nil => cases h
  | cons m ns ih =>
    rw [weight]
    rcases List.mem_cons.1 h with rfl | h
    · exact Nat.le_add_right _ _
    · exact (ih h).trans (Nat.le_add_left _ _)

/-- What the recursion in `postorder` goes down with. -/
theorem sizeOf_child_lt {n m : Node} (h : m ∈ n.children) : sizeOf m < sizeOf n :=
  Nat.lt_of_le_of_lt (sizeOf_le_weight h) (weight_children n)

/-- The node and everything below it, each node behind its children. -/
def postorder (n : Node) : List Node :=
  n.children.attach.flatMap (fun m => postorder m.1) ++ [n]
termination_by sizeOf n
decreasing_by exact sizeOf_child_lt m.2

/-- The recursion without the proof that comes along with each child. -/
theorem postorder_eq (n : Node) : n.postorder = n.children.flatMap postorder ++ [n] := by
  rw [postorder, List.flatMap_subtype (g := postorder) fun _ _ => rfl, List.unattach_attach]

/-- The ids of the node and of everything below it, in that order. -/
def ids (n : Node) : List Nat := n.postorder.filterMap id?

/-- A node comes behind all that is below it, and so does its id. -/
theorem ids_eq (n : Node) : n.ids = n.children.flatMap ids ++ n.id?.toList := by
  have hlast : [n].filterMap id? = n.id?.toList := by
    cases h : n.id? <;> simp [h]
  rw [ids, postorder_eq, List.filterMap_append, List.filterMap_flatMap, hlast]
  rfl

/-- The walk visits a node in front of its children, `postorder` behind them; of what is on the stack
nothing else is moved. -/
theorem walkStack_perm (stack : List Node) : (walkStack stack).Perm (stack.flatMap postorder) := by
  induction stack using walkStack.induct with
  | case1 =>
    rw [walkStack]
    exact .refl _
  | case2 n stack ih =>
    rw [walkStack, List.flatMap_cons, postorder_eq, List.append_assoc, List.singleton_append]
    rw [List.flatMap_append] at ih
    exact (ih.cons n).trans List.perm_middle.symm

/-- Both orders list the same nodes. -/
theorem walk_perm_postorder (n : Node) : n.walk.Perm n.postorder := by
  have hall := walkStack_perm [n]
  rwa [List.flatMap_singleton] at hall

/-! ### Ids of the nodes of each kind

  Only expressions, types and declarations have ids.  The others pass on those of their children, in the
  order in which they are read. -/

section

variable {α : Type} {node : α → Node}

/-- Parts without ids. -/
theorem flatMap_ids_map_eq_nil (h : ∀ a, (node a).ids = []) (l : List α) :
    (l.map node).flatMap ids = [] := by
  rw [List.flatMap_map, List.flatMap_eq_nil_iff]
  exact fun a _ => h a

/-- A node without an id and without children that have one. -/
theorem ids_of_children_eq_nil {n : Node} (hid : n.id? = none) (h : n.children.flatMap ids = []) :
    n.ids = [] := by
  rw [ids_eq, hid, h]
  rfl

@[simp] theorem ids_ident (i : Ident) : (ident i).ids = [] := ids_of_children_eq_nil rfl rfl

@[simp] theorem ids_qualident (q : Qualident) : (qualident q).ids = [] :=
  ids_of_children_eq_nil rfl (flatMap_ids_map_eq_nil ids_ident _)

@[simp] theorem ids_identList (l : IdentList) : (identList l).ids = [] :=
  ids_of_children_eq_nil rfl (flatMap_ids_map_eq_nil ids_ident _)

/-- In an import there are names only. -/
@[simp] theorem ids_importClause (i : Import) : (importClause i).ids = [] := by
  obtain ⟨kind, span⟩ := i
  refine ids_of_children_eq_nil rfl ?_
  cases kind <;> simp [children, ImportKind.children]

@[simp] theorem ids_formalType (p : FormalType) : (formalType p).ids = [] :=
  ids_of_children_eq_nil rfl (by simp [children])

/-- The types of parameters are given by names, so that no type expression is below them. -/
@[simp] theorem ids_formalTypes (f : FormalTypes) : (formalTypes f).ids = [] := by
  refine ids_of_children_eq_nil rfl ?_
  rw [children, List.flatMap_append, flatMap_ids_map_eq_nil ids_formalType,
    flatMap_ids_map_eq_nil ids_qualident]
  rfl

end

/-- The id of an expression stands behind those of its operands. -/
theorem ids_expr (e : Expr) : (expr e).ids = e.kind.children.flatMap ids ++ [e.id] := ids_eq _

/-- The id of a type stands behind those of all types and expressions in it. -/
theorem ids_type (t : TypeExpr) : (type t).ids = t.kind.children.flatMap ids ++ [t.id] := ids_eq _

/-- The id of a section stands behind those of its items. -/
theorem ids_declaration (d : Declaration) :
    (declaration d).ids = d.kind.children.flatMap ids ++ [d.id] := ids_eq _

/-- Nodes without an id of their own. -/
theorem ids_of_id?_eq_none {n : Node} (h : n.id? = none) : n.ids = n.children.flatMap ids := by
  rw [ids_eq, h]
  exact List.append_nil _

theorem ids_element (r : RangeItem) : (element r).ids = r.children.flatMap ids :=
  ids_of_id?_eq_none rfl

theorem ids_caseLabel (r : RangeItem) : (caseLabel r).ids = r.children.flatMap ids :=
  ids_of_id?_eq_none rfl

/-- The labels of an arm come first, as they are read. -/
theorem ids_variant (v : Variant) : (variant v).ids =
    v.labels.flatMap (fun r => (caseLabel r).ids) ++ v.entries.flatMap fun f => (fieldList f).ids := by
  rw [ids_of_id?_eq_none rfl, children, List.flatMap_append, List.flatMap_map, List.flatMap_map]

theorem ids_fieldList (f : FieldList) : (fieldList f).ids = f.kind.children.flatMap ids :=
  ids_of_id?_eq_none rfl

/-- The name of a constant has no id. -/
theorem ids_constItem (c : ConstItem) : (constItem c).ids = (expr c.value).ids := by
  rw [ids_of_id?_eq_none rfl]
  simp [children]

/-- The name of a type has none either. -/
theorem ids_typeItem (t : TypeItem) : (typeItem t).ids = (type t.type).ids := by
  rw [ids_of_id?_eq_none rfl]
  simp [children]

/-- Statements are passed over, so that a block has the ids of its sections. -/
theorem ids_block (b : Block) :
    (block b).ids = b.declarations.flatMap fun d => (declaration d).ids := by
  rw [ids_of_id?_eq_none rfl, children, List.flatMap_map]

/-- Names and imports of a module have no ids. -/
theorem ids_definitionModule (m : DefinitionModule) :
    (definitionModule m).ids = m.declarations.flatMap fun d => (declaration d).ids := by
  rw [ids_of_id?_eq_none rfl]
  simp [children, List.flatMap_map]

/-- The same, with the sections in a block. -/
theorem ids_programModule (m : ProgramModule) : (programModule m).ids = (block m.block).ids := by
  rw [ids_of_id?_eq_none rfl]
  simp [children, List.flatMap_map]

/-- A compilation unit has no id of its own. -/
theorem ids_unit (u : CompilationUnit) : (unit u).ids = u.moduleNode.ids := by
  rw [ids_of_id?_eq_none rfl]
  exact List.append_nil _

end Node

/-- The ids of an expression. -/
abbrev Expr.ids (e : Expr) : List Nat := (Node.expr e).ids

/-- The ids of a range item. -/
abbrev RangeItem.ids (r : RangeItem) : List Nat := (Node.element r).ids

/-- The ids of a type. -/
abbrev TypeExpr.ids (t : TypeExpr) : List Nat := (Node.type t).ids

/-- The ids of an entry of a record. -/
abbrev FieldList.ids (f : FieldList) : List Nat := (Node.fieldList f).ids

/-- The ids of a variant. -/
abbrev Variant.ids (v : Variant) : List Nat := (Node.variant v).ids

/-- The ids of a section. -/
abbrev Declaration.ids (d : Declaration) : List Nat := (Node.declaration d).ids

/-- A range item is numbered as the expressions in it are. -/
theorem RangeItem.ids_eq (r : RangeItem) : r.ids = r.lhs.ids ++ r.rhs.toList.flatMap Expr.ids := by
  rw [RangeItem.ids, Node.ids_element, RangeItem.children, List.flatMap_cons, List.flatMap_map]

/-! ### Ids inside of the parts that come in kinds

  An expression, a type and an entry of a record hold their parts in a value of another type, which is
  read before the node is made. -/

/-- The ids inside an expression. -/
abbrev ExprKind.ids (kind : ExprKind) : List Nat := kind.children.flatMap Node.ids

/-- The ids inside a type. -/
abbrev TypeKind.ids (kind : TypeKind) : List Nat := kind.children.flatMap Node.ids

/-- The ids inside an entry of a record. -/
abbrev FieldKind.ids (kind : FieldKind) : List Nat := kind.children.flatMap Node.ids

/-- The name of the base type has no ids. -/
theorem ExprKind.ids_set (base : Option Qualident) (elements : List RangeItem) :
    (ExprKind.set base elements).ids = elements.flatMap RangeItem.ids := by
  have hbase : (base.toList.map Node.qualident).flatMap Node.ids = [] :=
    Node.flatMap_ids_map_eq_nil Node.ids_qualident _
  rw [ids, children, List.flatMap_append, hbase, List.flatMap_map]
  rfl

/-- The left operand is read first. -/
theorem ExprKind.ids_binary (op : Operator) (opSpan : Span) (lhs rhs : Expr) :
    (ExprKind.binary op opSpan lhs rhs).ids = lhs.ids ++ rhs.ids := by
  simp [ids, children, Expr.ids]

/-- The tag and its type are names; the arms and the entries behind `ELSE` follow each other. -/
theorem FieldKind.ids_variants (tag : Option Ident) (tagType : Qualident) (arms : List Variant)
    (otherwise : Option (List FieldList)) : (FieldKind.variants tag tagType arms otherwise).ids =
      arms.flatMap Variant.ids ++ (otherwise.getD []).flatMap FieldList.ids := by
  have htag : (tag.toList.map Node.ident).flatMap Node.ids = [] :=
    Node.flatMap_ids_map_eq_nil Node.ids_ident _
  rw [ids, children, List.flatMap_append, List.flatMap_append, List.flatMap_append, htag,
    List.flatMap_singleton, Node.ids_qualident, List.flatMap_map, List.flatMap_map]
  rfl

/-- A label has the same parts as an element. -/
theorem Variant.ids_eq (v : Variant) :
    v.ids = v.labels.flatMap RangeItem.ids ++ v.entries.flatMap FieldList.ids := by
  have hlabel : (fun r => (Node.caseLabel r).ids) = RangeItem.ids :=
    funext fun r => (Node.ids_caseLabel r).trans (Node.ids_element r).symm
  rw [Variant.ids, Node.ids_variant, hlabel]

namespace Expr

/-- An operation is numbered when both operands are there. -/
theorem ids_binary (id : Nat) (op : Operator) (opSpan span : Span) (lhs rhs : Expr) :
    Expr.ids ⟨id, .binary op opSpan lhs rhs, span⟩ = lhs.ids ++ rhs.ids ++ [id] :=
  (Node.ids_expr _).trans (congrArg (· ++ [id]) (ExprKind.ids_binary op opSpan lhs rhs))

/-- A sign is numbered behind the term that it stands in front of. -/
theorem ids_signed (id : Nat) (sign : Sign) (operand : Expr) (span : Span) :
    Expr.ids ⟨id, .signed sign operand, span⟩ = operand.ids ++ [id] := by
  simp [Expr.ids, Node.ids_expr, ExprKind.children]

/-- A negation behind the factor. -/
theorem ids_not (id : Nat) (operand : Expr) (span : Span) :
    Expr.ids ⟨id, .not operand, span⟩ = operand.ids ++ [id] := by
  simp [Expr.ids, Node.ids_expr, ExprKind.children]

/-- A set behind its elements. -/
theorem ids_set (id : Nat) (base : Option Qualident) (elements : List RangeItem) (span : Span) :
    Expr.ids ⟨id, .set base elements, span⟩ = elements.flatMap RangeItem.ids ++ [id] :=
  (Node.ids_expr _).trans (congrArg (· ++ [id]) (ExprKind.ids_set base elements))

/-- Parentheses change the span only. -/
theorem ids_widened (e : Expr) (span : Span) : Expr.ids { e with span := span } = e.ids := by
  rw [Expr.ids, Expr.ids, Node.ids_expr, Node.ids_expr]

end Expr

namespace Node

/-! ### Ids of a part of a tree

  Since the order goes through the tree part by part, the ids of a part are a stretch of those of the
  whole. -/

/-- The ids of a part of a tree stand together among those of the tree. -/
theorem ids_infix_of_mem_children {n m : Node} (h : m ∈ n.children) : m.ids <:+: n.ids := by
  obtain ⟨front, behind, hsplit⟩ := List.append_of_mem h
  rw [ids_eq n, hsplit, List.flatMap_append, List.flatMap_cons]
  exact ⟨front.flatMap ids, behind.flatMap ids ++ n.id?.toList, by simp⟩

/-- Whatever is visited belongs to a node that is on the stack at first. -/
theorem ids_infix_of_mem_walkStack (stack : List Node) :
    ∀ m ∈ walkStack stack, ∃ n ∈ stack, m.ids <:+: n.ids := by
  induction stack using walkStack.induct with
  | case1 =>
    intro m hm
    rw [walkStack] at hm
    cases hm
  | case2 n stack ih =>
    intro m hm
    rw [walkStack] at hm
    rcases List.mem_cons.1 hm with rfl | hm
    · exact ⟨m, List.mem_cons_self, List.infix_refl _⟩
    · obtain ⟨n', hn', hm'⟩ := ih m hm
      -- what is on the stack next: children of the node just visited, or what was on it before
      rcases List.mem_append.1 hn' with hchild | hn'
      · exact ⟨n, List.mem_cons_self, hm'.trans (ids_infix_of_mem_children hchild)⟩
      · exact ⟨n', List.mem_cons_of_mem n hn', hm'⟩

/-- The ids of any node below stand together, however deep it is. -/
theorem ids_infix_of_mem_walk {n m : Node} (h : m ∈ n.walk) : m.ids <:+: n.ids := by
  obtain ⟨n', hn', hm⟩ := ids_infix_of_mem_walkStack [n] m h
  rwa [List.mem_singleton.1 hn'] at hm

end Node

/-! ## Consecutive ids

  A stretch of ids is told by its first id and by the one that is drawn next. -/

/-- The ids from `first` up to `next`, `next` not included. -/
structure Consecutive (first : Nat) (ids : List Nat) (next : Nat) : Prop where
  eq_range : ids = List.range' first ids.length
  next_eq : next = first + ids.length

namespace Consecutive

variable {first middle next : Nat} {ids ids' : List Nat}

/-- No ids, and so the next one is the first. -/
theorem nil (first : Nat) : Consecutive first [] first := ⟨rfl, rfl⟩

/-- The id that is drawn is the next one. -/
theorem one (first : Nat) : Consecutive first [first] (first + 1) := ⟨rfl, rfl⟩

/-- A stretch that begins where another ends makes a longer one with it. -/
theorem append (h : Consecutive first ids middle) (h' : Consecutive middle ids' next) :
    Consecutive first (ids ++ ids') next := by
  refine ⟨?_, ?_⟩
  · rw [List.length_append, ← List.range'_append_1, ← h.next_eq, ← h'.eq_range, ← h.eq_range]
  · rw [h'.next_eq, h.next_eq, List.length_append, Nat.add_assoc]

/-- No id is given twice. -/
theorem nodup (h : Consecutive first ids next) : ids.Nodup := by
  rw [h.eq_range]
  exact List.nodup_range'

/-- The ids given are just those in between. -/
theorem mem_iff (h : Consecutive first ids next) {i : Nat} : i ∈ ids ↔ first ≤ i ∧ i < next := by
  rw [h.eq_range, h.next_eq, List.mem_range'_1]

/-- Ids that stand together are consecutive as well. -/
theorem of_infix (h : Consecutive first ids next) (hpart : ids' <:+: ids) :
    ∃ first' next', Consecutive first' ids' next' := by
  obtain ⟨u, v, rfl⟩ := hpart
  refine ⟨first + u.length, first + u.length + ids'.length, ?_, rfl⟩
  have hall := h.eq_range
  rw [List.length_append, List.length_append, ← List.range'_append_1, ← List.range'_append_1] at hall
  obtain ⟨huv, -⟩ := List.append_inj hall (by simp)
  exact (List.append_inj huv (by simp)).2

end Consecutive

/-! ## Parsers

  What a parser builds has just the ids that were drawn while it ran.  To carry this through sequences the
  ids from before are told along with it, as an accumulator does. -/

namespace Parser

variable {α β : Type} {before : List Nat} {f : α → List Nat}

/-- What is read adds to some ids just those that are drawn meanwhile. -/
def Draws (before : List Nat) (p : Parser α) (after : α → List Nat) : Prop :=
  ∀ ⦃construct c a c'⦄, p construct c = .ok a c' →
    ∃ ids, after a = before ++ ids ∧ Consecutive c.nextId ids c'.nextId

/-- No id is drawn. -/
def Quiet (p : Parser α) : Prop := ∀ ⦃construct c a c'⦄, p construct c = .ok a c' → c'.nextId = c.nextId

namespace Draws

variable {p : Parser α} {g : α → Parser β} {after : α → List Nat} {last : β → List Nat}

/-- To return a value draws nothing, so its ids are the ones from before. -/
theorem pure {a : α} (h : after a = before) : Draws before (Pure.pure a : Parser α) after := by
  intro construct c _ _ hrun
  cases hrun
  exact ⟨[], by rw [h, List.append_nil], .nil _⟩

/-- The second part starts with the ids that the first one ends with. -/
theorem bind (hp : Draws before p after) (hg : ∀ a, Draws (after a) (g a) last) :
    Draws before (p >>= g) last := by
  intro construct c b c' h
  obtain ⟨a, d, h₁, h₂⟩ := bind_eq_ok.1 h
  obtain ⟨ids, ha, hids⟩ := hp h₁
  obtain ⟨ids', hb, hids'⟩ := hg a h₂
  exact ⟨ids ++ ids', by rw [hb, ha, List.append_assoc], hids.append hids'⟩

/-- Ids from before stay in front. -/
theorem behind (h : Draws [] p f) (before : List Nat) : Draws before p fun a => before ++ f a := by
  intro construct c a c' hrun
  obtain ⟨ids, ha, hids⟩ := h hrun
  exact ⟨ids, congrArg (before ++ ·) ha, hids⟩

/-- The id drawn goes behind all ids so far, which is what puts a node behind its children. -/
theorem freshId : Draws before freshId fun id => before ++ [id] := by
  intro construct c id c' h
  cases h
  exact ⟨[c.nextId], rfl, .one _⟩

/-- Where no id is drawn there is nothing to add. -/
theorem of_quiet (h : Quiet p) : Draws before p fun _ => before := by
  intro construct c a c' hrun
  rw [h hrun]
  exact ⟨[], (List.append_nil _).symm, .nil _⟩

/-- What is read has the ids that are drawn. -/
theorem consecutive {construct : Construct} {c c' : Cursor} {a : α} (h : Draws [] p f)
    (hrun : p construct c = .ok a c') : Consecutive c.nextId (f a) c'.nextId := by
  obtain ⟨ids, ha, hids⟩ := h hrun
  rwa [ha, List.nil_append]

/-- A step that draws nothing comes first. -/
theorem quiet_bind (hp : Quiet p) (hg : ∀ a, Draws before (g a) last) : Draws before (p >>= g) last :=
  (of_quiet hp).bind hg

/-- Only what ends with a value counts; what was drawn before an error is not in any tree. -/
theorem of_fail {cause : Token.Kind → SyntaxError.Cause} : Draws before (fail cause) after :=
  fun _ _ _ _ h => absurd h fail_ne_ok

theorem within {construct : Construct} (h : Draws before p after) :
    Draws before (within construct p) after := fun _ _ _ _ hrun => h hrun

/-- A choice: each side is looked at where it is taken. -/
theorem ite {P : Prop} [Decidable P] {q : Parser α} (hp : P → Draws before p after)
    (hq : ¬P → Draws before q after) : Draws before (if P then p else q) after := by
  split
  · next h => exact hp h
  · next h => exact hq h

end Draws

/-! ### Steps that draw nothing

  Tokens have no ids, so all that only looks at tokens or takes them is quiet. -/

namespace Quiet

variable {p : Parser α} {g : α → Parser β}

theorem pure (a : α) : Quiet (Pure.pure a : Parser α) := by
  intro construct c _ _ h
  cases h
  rfl

/-- A sequence of quiet parts is quiet. -/
theorem bind (hp : Quiet p) (hg : ∀ a, Quiet (g a)) : Quiet (p >>= g) := by
  intro construct c b c' h
  obtain ⟨a, d, h₁, h₂⟩ := bind_eq_ok.1 h
  rw [hg a h₂, hp h₁]

theorem ite {P : Prop} [Decidable P] {q : Parser α} (hp : Quiet p) (hq : Quiet q) :
    Quiet (if P then p else q) := by
  split
  · exact hp
  · exact hq

theorem within {construct : Construct} (h : Quiet p) : Quiet (within construct p) :=
  fun _ _ _ _ hrun => h hrun

theorem failAt {place : Cursor} {cause : SyntaxError.Cause} :
    Quiet (failAt place cause : Parser α) := by
  intro construct c a c' h
  cases h

end Quiet

/-- No token has an id. -/
theorem nextId_advance (c : Cursor) : c.advance.nextId = c.nextId := by
  unfold Cursor.advance
  split <;> rfl

theorem get_quiet : Quiet (get : Parser Cursor) := by
  intro construct c _ _ h
  cases h
  rfl

theorem kind_quiet : Quiet kind := by
  intro construct c _ _ h
  cases h
  rfl

theorem remaining_quiet : Quiet remaining := by
  intro construct c _ _ h
  cases h
  rfl

theorem lastEnd_quiet : Quiet lastEnd := by
  intro construct c _ _ h
  cases h
  rfl

theorem advance_quiet : Quiet advance := by
  intro construct c _ _ h
  cases h
  exact nextId_advance c

theorem accept_quiet (k : Token.Kind) : Quiet (accept k) := by
  intro construct c _ _ h
  rcases accept_eq_ok h with ⟨-, -, rfl⟩ | ⟨-, -, rfl⟩
  · exact nextId_advance c
  · rfl

theorem expect_quiet (k : Token.Kind) : Quiet (expect k) := by
  intro construct c _ _ h
  obtain ⟨-, rfl⟩ := expect_eq_ok h
  exact nextId_advance c

theorem ident_quiet : Quiet ident := by
  intro construct c _ _ h
  obtain ⟨-, rfl⟩ := ident_eq_ok h
  exact nextId_advance c

theorem close_quiet (bracket : Bracket) (opener : Token) : Quiet (close bracket opener) := by
  intro construct c _ _ h
  obtain ⟨-, rfl⟩ := close_eq_ok h
  exact nextId_advance c

/-! ### Lists -/

/-- By induction on the budget: the ids of each item stand behind those of the items in front. -/
theorem moreAfter_draws {separator : Token.Kind} {item : Parser α} (hi : Draws [] item f)
    (budget : Nat) :
    Draws before (moreAfter separator item budget) fun l => before ++ l.flatMap f := by
  induction budget generalizing before with
  | zero => exact .pure (List.append_nil _)
  | succ budget ih =>
    refine .quiet_bind (accept_quiet separator) fun taken => ?_
    refine .ite (fun _ => ?_) fun _ => .pure (List.append_nil _)
    refine .bind (hi.behind before) fun a => ?_
    refine .bind ih fun more => .pure ?_
    rw [List.flatMap_cons, List.append_assoc]

/-- The ids of a list of items, item by item; separators add none. -/
theorem sepBy_draws {separator : Token.Kind} {item : Parser α} (hi : Draws [] item f) :
    Draws before (sepBy separator item) fun l => before ++ f l.1 ++ l.2.flatMap f := by
  refine .bind (hi.behind before) fun a => ?_
  refine .quiet_bind remaining_quiet fun budget => ?_
  exact .bind (moreAfter_draws hi budget) fun more => .pure rfl

/-- Items that are names make a quiet list. -/
theorem moreAfter_quiet {separator : Token.Kind} {item : Parser α} (hi : Quiet item) (budget : Nat) :
    Quiet (moreAfter separator item budget) := by
  induction budget with
  | zero => exact .pure _
  | succ budget ih =>
    refine .bind (accept_quiet separator) fun taken => .ite ?_ (.pure _)
    exact .bind hi fun a => .bind ih fun more => .pure _

theorem sepBy_quiet {separator : Token.Kind} {item : Parser α} (hi : Quiet item) :
    Quiet (sepBy separator item) :=
  .bind hi fun _ => .bind remaining_quiet fun _ => .bind (moreAfter_quiet hi _) fun _ => .pure _

end Parser

end Modula

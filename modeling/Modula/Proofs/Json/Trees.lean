import Modula.Json.Encode
import Modula.Proofs.Json
import Modula.Proofs.Json.Budget
import Modula.Proofs.Numbering
/-!
# Trees in JSON

  Every part of a tree is read back from what is written for it, and refused without the names in it
  (`Node.conveyed`).  The proof for a type has the shape of its reader: a member is carried because what
  is in it is conveyed, and the object is conveyed because the reader looks at all of its members.

  The induction is on nodes.  A node is conveyed if its children are, and all that is written for a node
  besides its children are plain cases, texts and numbers.  The numbers have to be in range
  (`Node.Fits`): ids have 32 bits and offsets 64.
-/

namespace Modula

open Json

/-! ## Numbers in range

  What is written is read back if all numbers are in the range of their types, as they are in every tree
  that has been built.  The condition is about all nodes below as well. -/

/-- Both offsets are in the range of offsets. -/
def Span.Fits (s : Span) : Prop := s.start < offsetBound ∧ s.stop < offsetBound

/-- The spans that are part of the kind of an expression. -/
def ExprKind.spans : ExprKind → List Span
  | .binary _ opSpan _ _ => [opSpan]
  | _ => []

namespace Node

/-- The spans that a node holds itself. -/
def spans : Node → List Span
  | .expr e => e.span :: e.kind.spans
  | .block b => b.span :: b.body.toList
  | n => [n.span]

/-- The ids and the offsets of the node, and of everything below it, are in range. -/
def Fits (n : Node) : Prop :=
  ∀ m ∈ n.walk, (∀ id ∈ m.id?, id < idBound) ∧ ∀ s ∈ m.spans, s.Fits

/-- What is visited from a node on: the node, and what is visited from its children on. -/
theorem mem_walk_iff {n m : Node} : m ∈ n.walk ↔ m = n ∨ ∃ c ∈ n.children, m ∈ c.walk := by
  rw [n.walk_perm_postorder.mem_iff, postorder_eq, List.mem_append, List.mem_singleton,
    List.mem_flatMap, or_comm]
  exact or_congr_right (exists_congr fun c =>
    and_congr_right fun _ => c.walk_perm_postorder.mem_iff.symm)

/-- A node is in range if its own numbers are and its children are. -/
theorem fits_iff {n : Node} :
    n.Fits ↔ ((∀ id ∈ n.id?, id < idBound) ∧ ∀ s ∈ n.spans, s.Fits) ∧ ∀ c ∈ n.children, c.Fits := by
  constructor
  · intro h
    refine ⟨h n (mem_walk_iff.2 (Or.inl rfl)), fun c hc m hm => ?_⟩
    exact h m (mem_walk_iff.2 (Or.inr ⟨c, hc, hm⟩))
  · rintro ⟨hn, hchildren⟩ m hm
    rcases mem_walk_iff.1 hm with rfl | ⟨c, hc, hm⟩
    · exact hn
    · exact hchildren c hc m hm

end Node

/-- Two numbers. -/
theorem Span.conveys {s : Span} (h : s.Fits) : Conveys Span.ofJson? s.toJson s :=
  Carries.conveys (.bind (.required rfl (.nat h.1)) (.bind (.required rfl (.nat h.2)) .pure))
    rfl (by decide)

/-- A text and a span. -/
theorem Ident.conveys {i : Ident} (h : i.span.Fits) : Conveys Ident.ofJson? i.toJson i :=
  Carries.conveys (.bind (.required rfl (.text _)) (.bind (.required rfl (Span.conveys h)) .pure))
    rfl (by decide)

/-- The segments of a name are under a key for names: a name without them is refused. -/
theorem Qualident.conveys {q : Qualident} (h : ∀ i ∈ q.parts, Conveys Ident.ofJson? i.toJson i)
    (hspan : q.span.Fits) : Conveys Qualident.ofJson? q.toJson q := by
  have hown : ∀ key ∈ ["parts", "span"], key ∈ nameKeys → key = "parts" := by decide
  refine Carries.conveys_names
    (.bind (.required rfl (.items h)) (.bind (.required rfl (Span.conveys hspan)) .pure)) rfl
    (by decide) fun key hkey hname j hempty => ?_
  obtain rfl := hown key hkey hname
  rw [ofJson?, required_of_empty hempty]
  exact Option.bind_fun_none _

/-- And so are the names of a list. -/
theorem IdentList.conveys {l : IdentList} (h : ∀ i ∈ l.idents, Conveys Ident.ofJson? i.toJson i)
    (hspan : l.span.Fits) : Conveys IdentList.ofJson? l.toJson l := by
  have hown : ∀ key ∈ ["idents", "span"], key ∈ nameKeys → key = "idents" := by decide
  refine Carries.conveys_names
    (.bind (.required rfl (.items h)) (.bind (.required rfl (Span.conveys hspan)) .pure)) rfl
    (by decide) fun key hkey hname j hempty => ?_
  obtain rfl := hown key hkey hname
  rw [ofJson?, required_of_empty hempty]
  exact Option.bind_fun_none _

/-! ## Plain cases

  A case without members is written as the text of its name. -/

/-- A case that has a name of its own. -/
theorem Json.Conveys.case {α : Type} {tag : α → String} {cases : List α} {a : α}
    (h : cases.find? (fun b => tag b == tag a) = some a) :
    Conveys (caseOfTag? tag cases) (.string (tag a)) a := .simple h nofun

/-- Plain cases are texts. -/
theorem Radix.conveys (r : Radix) : Conveys Radix.ofJson? r.toJson r := .case (by cases r <;> rfl)

theorem Sign.conveys (s : Sign) : Conveys Sign.ofJson? s.toJson s := .case (by cases s <;> rfl)

theorem Operator.conveys (o : Operator) : Conveys Operator.ofJson? o.toJson o :=
  .case (by cases o <;> rfl)

/-- Digits are a text, so that they are conveyed however many there are. -/
theorem IntLiteral.conveys (n : IntLiteral) : Conveys IntLiteral.ofJson? n.toJson n :=
  Carries.conveys (.bind (.required rfl (Radix.conveys n.radix)) (.bind (.required rfl (.text _)) .pure))
    rfl (by decide)

/-! ## Nodes

  A tree is conveyed if it is read back from what is written.  Along with this it is shown that an empty
  list of names is refused, since the two facts are about the same reader. -/

/-- What the node shows is written and read back, and refused without the names in it. -/
def Node.Conveyed : Node → Prop
  | .unit u => Conveys CompilationUnit.ofJson? u.toJson u
  | .definitionModule m => Conveys DefinitionModule.ofJson? m.toJson m
  | .programModule m => Conveys ProgramModule.ofJson? m.toJson m
  | .block b => Conveys Block.ofJson? b.toJson b
  | .importClause i => Conveys Import.ofJson? i.toJson i
  | .ident i => Conveys Ident.ofJson? i.toJson i
  | .qualident q => Conveys Qualident.ofJson? q.toJson q
  | .identList l => Conveys IdentList.ofJson? l.toJson l
  | .declaration d => Conveys Declaration.ofJson? d.toJson d
  | .constItem c => Conveys ConstItem.ofJson? c.toJson c
  | .typeItem t => Conveys TypeItem.ofJson? t.toJson t
  | .type t => Conveys TypeExpr.ofJson? t.toJson t
  | .fieldList f => Conveys FieldList.ofJson? f.toJson f
  | .variant v => Conveys Variant.ofJson? v.toJson v
  | .caseLabel r => Conveys RangeItem.ofJson? r.toJson r
  | .formalTypes f => Conveys FormalTypes.ofJson? f.toJson f
  | .formalType p => Conveys FormalType.ofJson? p.toJson p
  | .expr e => Conveys Expr.ofJson? e.toJson e
  | .element r => Conveys RangeItem.ofJson? r.toJson r

/-! ## Expressions

  A case with members is an object that has the name of the case as its only key.  The members of each
  case are written in the order of their declaration, and they are found by their keys. -/

/-- The list of elements is written element by element. -/
theorem rangeItemsToJson_eq (rs : List RangeItem) : rangeItemsToJson rs = rs.map RangeItem.toJson := by
  induction rs with
  | nil => rfl
  | cons r rs ih => rw [rangeItemsToJson, ih, List.map_cons]

/-- One case for each kind of expression, each with the members of its own. -/
theorem ExprKind.conveys {k : ExprKind} (hspans : ∀ s ∈ k.spans, s.Fits)
    (h : ∀ c ∈ k.children, c.Conveyed) :
    Conveys (ExprKind.read? Expr.ofJson?) k.toJson k := by
  cases k <;> refine .tagged (by decide) ?_ <;>
    simp only [read?, content?_tagged, Option.bind_eq_bind, Option.bind_some]
  case integer literal => exact (IntLiteral.conveys literal).map
  case real text => exact (Conveys.text text).map
  case string content => exact (Conveys.text content).map
  case designator name =>
    have hname : Conveys Qualident.ofJson? name.toJson name := h (.qualident name) (by simp [children])
    exact hname.map
  -- A base that is missing is written as null, and an object never looks like that.
  case set base elements =>
    have hbase : ∀ q ∈ base, Conveys Qualident.ofJson? q.toJson q := fun q hq =>
      h (.qualident q) (by simp_all [children])
    have helements : ∀ r ∈ elements, Conveys RangeItem.ofJson? r.toJson r := fun r hr =>
      h (.element r) (by simp_all [children])
    rw [rangeItemsToJson_eq]
    exact Carries.conveys (.bind (.optional rfl (.orNull (fun _ => object_ne_null _) hbase))
      (.bind (.required rfl (.items helements)) .pure)) rfl (by decide)
  case not operand =>
    have hoperand : Conveys Expr.ofJson? operand.toJson operand :=
      h (.expr operand) (by simp [children])
    exact hoperand.map
  case signed sign operand =>
    have hoperand : Conveys Expr.ofJson? operand.toJson operand :=
      h (.expr operand) (by simp [children])
    exact Carries.conveys (.bind (.required rfl (Sign.conveys sign))
      (.bind (.required rfl hoperand) .pure)) rfl (by decide)
  case binary op opSpan lhs rhs =>
    have hopSpan : opSpan.Fits := hspans opSpan (by simp [spans])
    have hlhs : Conveys Expr.ofJson? lhs.toJson lhs := h (.expr lhs) (by simp [children])
    have hrhs : Conveys Expr.ofJson? rhs.toJson rhs := h (.expr rhs) (by simp [children])
    exact Carries.conveys (.bind (.required rfl (Operator.conveys op))
      (.bind (.required rfl (Span.conveys hopSpan)) (.bind (.required rfl hlhs)
        (.bind (.required rfl hrhs) .pure)))) rfl (by decide)

/-- A number, what the expression is, and a span. -/
theorem Expr.conveys {e : Expr} (hid : e.id < idBound) (hspan : e.span.Fits)
    (hspans : ∀ s ∈ e.kind.spans, s.Fits) (h : ∀ c ∈ e.kind.children, c.Conveyed) :
    Conveys Expr.ofJson? e.toJson e := by
  obtain ⟨id, kind, span⟩ := e
  rw [show Expr.ofJson? = _ from funext ofJson?_eq]
  exact Carries.conveys (.bind (.required rfl (.nat hid))
    (.bind (.required rfl (ExprKind.conveys hspans h))
      (.bind (.required rfl (Span.conveys hspan)) .pure))) rfl (by decide)

/-- No expression is written as something missing. -/
theorem Expr.toJson_ne_null (e : Expr) : e.toJson ≠ .null := by
  obtain ⟨id, kind, span⟩ := e
  exact object_ne_null _

/-- The second bound is `null` if there is none. -/
theorem RangeItem.toJson_eq (r : RangeItem) : r.toJson =
    .object [("lhs", r.lhs.toJson), ("rhs", .ofOption Expr.toJson r.rhs), ("span", r.span.toJson)] := by
  obtain ⟨lhs, rhs, span⟩ := r
  cases rhs <;> rfl

/-- A bound, a bound that may be missing, and a span. -/
theorem RangeItem.conveys {r : RangeItem} (hspan : r.span.Fits) (h : ∀ c ∈ r.children, c.Conveyed) :
    Conveys RangeItem.ofJson? r.toJson r := by
  have hlhs : Conveys Expr.ofJson? r.lhs.toJson r.lhs := h (.expr r.lhs) (by simp [children])
  have hrhs : ∀ e ∈ r.rhs, Conveys Expr.ofJson? e.toJson e := fun e he =>
    h (.expr e) (by simp_all [children])
  obtain ⟨lhs, rhs, span⟩ := r
  rw [toJson_eq]
  exact Carries.conveys (.bind (.required rfl hlhs)
    (.bind (.optional rfl (.orNull Expr.toJson_ne_null hrhs))
      (.bind (.required rfl (Span.conveys hspan)) .pure))) rfl (by decide)

/-! ## Types -/

/-- Two truth values, a name and a span. -/
theorem FormalType.conveys {p : FormalType} (hspan : p.span.Fits)
    (h : Conveys Qualident.ofJson? p.type.toJson p.type) : Conveys FormalType.ofJson? p.toJson p :=
  Carries.conveys (.bind (.required rfl (.flag _)) (.bind (.required rfl (.flag _))
    (.bind (.required rfl h) (.bind (.required rfl (Span.conveys hspan)) .pure)))) rfl (by decide)

/-- A list of parameters, a result that may be missing, and a span. -/
theorem FormalTypes.conveys {f : FormalTypes} (hspan : f.span.Fits)
    (hparams : ∀ p ∈ f.params, Conveys FormalType.ofJson? p.toJson p)
    (hresult : ∀ q ∈ f.result, Conveys Qualident.ofJson? q.toJson q) :
    Conveys FormalTypes.ofJson? f.toJson f :=
  Carries.conveys (.bind (.required rfl (.items hparams))
    (.bind (.optional rfl (.orNull (fun _ => object_ne_null _) hresult))
      (.bind (.required rfl (Span.conveys hspan)) .pure))) rfl (by decide)

/-- The list of entries is written entry by entry. -/
theorem fieldListsToJson_eq (fs : List FieldList) :
    fieldListsToJson fs = fs.map FieldList.toJson := by
  induction fs with
  | nil => rfl
  | cons f fs ih => rw [fieldListsToJson, ih, List.map_cons]

theorem variantsToJson_eq (vs : List Variant) : variantsToJson vs = vs.map Variant.toJson := by
  induction vs with
  | nil => rfl
  | cons v vs ih => rw [variantsToJson, ih, List.map_cons]

/-- What is written for a variant part, with its lists written out. -/
theorem FieldKind.toJson_variants (tag : Option Ident) (tagType : Qualident) (arms : List Variant)
    (otherwise : Option (List FieldList)) : (FieldKind.variants tag tagType arms otherwise).toJson =
      .tagged "Variant" (.object
        [("tag", .ofOption Ident.toJson tag), ("tag_type", tagType.toJson),
          ("variants", .array (arms.map Variant.toJson)),
          ("else_fields", .ofOption (fun fs => .array (fs.map FieldList.toJson)) otherwise)]) := by
  cases otherwise with
  | none => rw [toJson, variantsToJson_eq]; rfl
  | some fs => rw [toJson, variantsToJson_eq, fieldListsToJson_eq]; rfl

/-- One case for each kind of type.  A procedure type without formal types is told from one with an empty
list of them. -/
theorem TypeKind.conveys {k : TypeKind} (h : ∀ c ∈ k.children, c.Conveyed) :
    Conveys (TypeKind.read? TypeExpr.ofJson? FieldList.ofJson?) k.toJson k := by
  cases k <;> refine .tagged (by decide) ?_ <;>
    simp only [read?, content?_tagged, Option.bind_eq_bind, Option.bind_some]
  case named name =>
    have hname : Conveys Qualident.ofJson? name.toJson name := h (.qualident name) (by simp [children])
    exact hname.map
  case enumeration names =>
    have hnames : Conveys IdentList.ofJson? names.toJson names :=
      h (.identList names) (by simp [children])
    exact hnames.map
  case subrange low high =>
    have hlow : Conveys Expr.ofJson? low.toJson low := h (.expr low) (by simp [children])
    have hhigh : Conveys Expr.ofJson? high.toJson high := h (.expr high) (by simp [children])
    exact Carries.conveys (.bind (.required rfl hlow) (.bind (.required rfl hhigh) .pure)) rfl (by decide)
  case array index element =>
    have hindex : Conveys TypeExpr.ofJson? index.toJson index := h (.type index) (by simp [children])
    have helement : Conveys TypeExpr.ofJson? element.toJson element :=
      h (.type element) (by simp [children])
    exact Carries.conveys (.bind (.required rfl hindex) (.bind (.required rfl helement) .pure)) rfl
      (by decide)
  case record entries =>
    have hentries : ∀ f ∈ entries, Conveys FieldList.ofJson? f.toJson f := fun f hf =>
      h (.fieldList f) (by simp_all [children])
    rw [fieldListsToJson_eq]
    exact (Conveys.items hentries).map
  case set base =>
    have hbase : Conveys TypeExpr.ofJson? base.toJson base := h (.type base) (by simp [children])
    exact hbase.map
  case pointer target =>
    have htarget : Conveys TypeExpr.ofJson? target.toJson target := h (.type target) (by simp [children])
    exact htarget.map
  -- Formal types that are missing are null too.
  case procedure formals =>
    have hformals : ∀ f ∈ formals, Conveys FormalTypes.ofJson? f.toJson f := fun f hf =>
      h (.formalTypes f) (by simp_all [children])
    have hcontent : Conveys (orNull? FormalTypes.ofJson?) (.ofOption FormalTypes.toJson formals) formals :=
      .orNull (fun _ => object_ne_null _) hformals
    exact hcontent.map

/-- A number, what the type is, and a span. -/
theorem TypeExpr.conveys {t : TypeExpr} (hid : t.id < idBound) (hspan : t.span.Fits)
    (h : ∀ c ∈ t.kind.children, c.Conveyed) : Conveys TypeExpr.ofJson? t.toJson t := by
  obtain ⟨id, kind, span⟩ := t
  rw [show TypeExpr.ofJson? = _ from funext ofJson?_eq]
  exact Carries.conveys (.bind (.required rfl (.nat hid))
    (.bind (.required rfl (TypeKind.conveys h))
      (.bind (.required rfl (Span.conveys hspan)) .pure))) rfl (by decide)

/-- One case for each kind of entry. -/
theorem FieldKind.conveys {k : FieldKind} (h : ∀ c ∈ k.children, c.Conveyed) :
    Conveys (FieldKind.read? TypeExpr.ofJson? FieldList.ofJson?) k.toJson k := by
  cases k
  case fields names type =>
    have hnames : Conveys IdentList.ofJson? names.toJson names :=
      h (.identList names) (by simp [children])
    have htype : Conveys TypeExpr.ofJson? type.toJson type := h (.type type) (by simp [children])
    refine .tagged (by decide) ?_
    simp only [read?, content?_tagged, Option.bind_eq_bind, Option.bind_some]
    exact Carries.conveys (.bind (.required rfl hnames) (.bind (.required rfl htype) .pure)) rfl
      (by decide)
  -- Both the tag and the part behind `ELSE` may be missing.
  case variants tag tagType arms otherwise =>
    have htag : ∀ i ∈ tag, Conveys Ident.ofJson? i.toJson i := fun i hi =>
      h (.ident i) (by simp_all [children])
    have htagType : Conveys Qualident.ofJson? tagType.toJson tagType :=
      h (.qualident tagType) (by simp [children])
    have harms : ∀ v ∈ arms, Conveys Variant.ofJson? v.toJson v := fun v hv =>
      h (.variant v) (by simp_all [children])
    have hotherwise : ∀ fs ∈ otherwise,
        Conveys (items? FieldList.ofJson?) (.array (fs.map FieldList.toJson)) fs := fun fs hfs =>
      .items fun f hf => h (.fieldList f) (by simp_all [children])
    rw [toJson_variants]
    refine .tagged (by decide) ?_
    simp only [read?, content?_tagged, Option.bind_eq_bind, Option.bind_some]
    exact Carries.conveys (.bind (.optional rfl (.orNull (fun _ => object_ne_null _) htag))
      (.bind (.required rfl htagType) (.bind (.required rfl (.items harms))
        (.bind (.optional rfl (.orNull (fun _ => array_ne_null _) hotherwise)) .pure)))) rfl (by decide)

theorem FieldList.conveys {f : FieldList} (hspan : f.span.Fits)
    (h : ∀ c ∈ f.kind.children, c.Conveyed) : Conveys FieldList.ofJson? f.toJson f := by
  obtain ⟨kind, span⟩ := f
  rw [show FieldList.ofJson? = _ from funext ofJson?_eq]
  exact Carries.conveys (.bind (.required rfl (FieldKind.conveys h))
    (.bind (.required rfl (Span.conveys hspan)) .pure)) rfl (by decide)

/-- A list of labels, a list of entries, and a span. -/
theorem Variant.conveys {v : Variant} (hspan : v.span.Fits)
    (hlabels : ∀ r ∈ v.labels, Conveys RangeItem.ofJson? r.toJson r)
    (hentries : ∀ f ∈ v.entries, Conveys FieldList.ofJson? f.toJson f) :
    Conveys Variant.ofJson? v.toJson v := by
  obtain ⟨labels, entries, span⟩ := v
  rw [toJson, rangeItemsToJson_eq, fieldListsToJson_eq]
  exact Carries.conveys (.bind (.required rfl (.items hlabels)) (.bind (.required rfl (.items hentries))
    (.bind (.required rfl (Span.conveys hspan)) .pure))) rfl (by decide)

/-! ## Modules -/

/-- One case for each kind of import. -/
theorem Import.conveys {i : Import} (hspan : i.span.Fits) (h : ∀ c ∈ i.kind.children, c.Conveyed) :
    Conveys Import.ofJson? i.toJson i := by
  obtain ⟨kind, span⟩ := i
  cases kind with
  | qualified modules =>
    have hmodules : Conveys IdentList.ofJson? modules.toJson modules :=
      h (.identList modules) (by simp [ImportKind.children])
    -- What kind of import it is stands around its content, as a tag.
    have hkind : Conveys ImportKind.ofJson?
        (.tagged "Qualified" (.object [("modules", modules.toJson)])) (.qualified modules) := by
      refine .tagged (by decide) ?_
      simp only [ImportKind.ofJson?, content?_tagged, Option.bind_eq_bind, Option.bind_some]
      exact Carries.conveys (.bind (.required rfl hmodules) .pure) rfl (by decide)
    exact Carries.conveys (.bind (.required rfl hkind)
      (.bind (.required rfl (Span.conveys hspan)) .pure)) rfl (by decide)
  -- Here the source of the names is conveyed beside them.
  | unqualified source names =>
    have hsource : Conveys Ident.ofJson? source.toJson source :=
      h (.ident source) (by simp [ImportKind.children])
    have hnames : Conveys IdentList.ofJson? names.toJson names :=
      h (.identList names) (by simp [ImportKind.children])
    have hkind : Conveys ImportKind.ofJson?
        (.tagged "Unqualified" (.object [("module", source.toJson), ("names", names.toJson)]))
        (.unqualified source names) := by
      refine .tagged (by decide) ?_
      simp only [ImportKind.ofJson?, content?_tagged, Option.bind_eq_bind, Option.bind_some]
      exact Carries.conveys (.bind (.required rfl hsource) (.bind (.required rfl hnames) .pure)) rfl
        (by decide)
    exact Carries.conveys (.bind (.required rfl hkind)
      (.bind (.required rfl (Span.conveys hspan)) .pure)) rfl (by decide)

/-- A name, a value and a span. -/
theorem ConstItem.conveys {c : ConstItem} (hspan : c.span.Fits)
    (hname : Conveys Ident.ofJson? c.name.toJson c.name)
    (hvalue : Conveys Expr.ofJson? c.value.toJson c.value) : Conveys ConstItem.ofJson? c.toJson c :=
  Carries.conveys (.bind (.required rfl hname) (.bind (.required rfl hvalue)
    (.bind (.required rfl (Span.conveys hspan)) .pure))) rfl (by decide)

/-- A name, a type and a span. -/
theorem TypeItem.conveys {t : TypeItem} (hspan : t.span.Fits)
    (hname : Conveys Ident.ofJson? t.name.toJson t.name)
    (htype : Conveys TypeExpr.ofJson? t.type.toJson t.type) : Conveys TypeItem.ofJson? t.toJson t :=
  Carries.conveys (.bind (.required rfl hname) (.bind (.required rfl htype)
    (.bind (.required rfl (Span.conveys hspan)) .pure))) rfl (by decide)

/-- A number, the items under the tag of their kind, and a span. -/
theorem Declaration.conveys {d : Declaration} (hid : d.id < idBound) (hspan : d.span.Fits)
    (h : ∀ c ∈ d.kind.children, c.Conveyed) : Conveys Declaration.ofJson? d.toJson d := by
  obtain ⟨id, kind, span⟩ := d
  cases kind with
  | constants items =>
    have hitems : ∀ c ∈ items, Conveys ConstItem.ofJson? c.toJson c := fun c hc =>
      h (.constItem c) (by simp_all [DeclarationKind.children])
    have hkind : Conveys DeclarationKind.ofJson?
        (.tagged "Const" (.array (items.map ConstItem.toJson))) (.constants items) := by
      refine .tagged (by decide) ?_
      simp only [DeclarationKind.ofJson?, content?_tagged, Option.bind_eq_bind, Option.bind_some]
      exact (Conveys.items hitems).map
    exact Carries.conveys (.bind (.required rfl (.nat hid)) (.bind (.required rfl hkind)
      (.bind (.required rfl (Span.conveys hspan)) .pure))) rfl (by decide)
  | types items =>
    have hitems : ∀ t ∈ items, Conveys TypeItem.ofJson? t.toJson t := fun t ht =>
      h (.typeItem t) (by simp_all [DeclarationKind.children])
    have hkind : Conveys DeclarationKind.ofJson?
        (.tagged "Type" (.array (items.map TypeItem.toJson))) (.types items) := by
      refine .tagged (by decide) ?_
      simp only [DeclarationKind.ofJson?, content?_tagged, Option.bind_eq_bind, Option.bind_some]
      exact (Conveys.items hitems).map
    exact Carries.conveys (.bind (.required rfl (.nat hid)) (.bind (.required rfl hkind)
      (.bind (.required rfl (Span.conveys hspan)) .pure))) rfl (by decide)

/-- Sections, a span that may be missing, and the span of it all. -/
theorem Block.conveys {b : Block} (hspan : b.span.Fits) (hbody : ∀ s ∈ b.body, s.Fits)
    (h : ∀ d ∈ b.declarations, Conveys Declaration.ofJson? d.toJson d) :
    Conveys Block.ofJson? b.toJson b :=
  Carries.conveys (.bind (.required rfl (.items h))
    (.bind (.optional rfl (.orNull (fun _ => object_ne_null _) fun s hs => Span.conveys (hbody s hs)))
      (.bind (.required rfl (Span.conveys hspan)) .pure))) rfl (by decide)

/-- Its name, imports, sections, the name at its end, and a span. -/
theorem DefinitionModule.conveys {m : DefinitionModule} (hspan : m.span.Fits)
    (h : ∀ c ∈ (Node.definitionModule m).children, c.Conveyed) :
    Conveys DefinitionModule.ofJson? m.toJson m := by
  have hname : Conveys Ident.ofJson? m.name.toJson m.name :=
    h (.ident m.name) (by simp [Node.children])
  have himports : ∀ i ∈ m.imports, Conveys Import.ofJson? i.toJson i := fun i hi =>
    h (.importClause i) (by simp_all [Node.children])
  have hdeclarations : ∀ d ∈ m.declarations, Conveys Declaration.ofJson? d.toJson d := fun d hd =>
    h (.declaration d) (by simp_all [Node.children])
  have hfooter : Conveys Ident.ofJson? m.footer.toJson m.footer :=
    h (.ident m.footer) (by simp [Node.children])
  exact Carries.conveys (.bind (.required rfl hname) (.bind (.required rfl (.items himports))
    (.bind (.required rfl (.items hdeclarations)) (.bind (.required rfl hfooter)
      (.bind (.required rfl (Span.conveys hspan)) .pure))))) rfl (by decide)

/-- The same with a truth value in front and a block in place of the sections. -/
theorem ProgramModule.conveys {m : ProgramModule} (hspan : m.span.Fits)
    (h : ∀ c ∈ (Node.programModule m).children, c.Conveyed) :
    Conveys ProgramModule.ofJson? m.toJson m := by
  have hname : Conveys Ident.ofJson? m.name.toJson m.name :=
    h (.ident m.name) (by simp [Node.children])
  have himports : ∀ i ∈ m.imports, Conveys Import.ofJson? i.toJson i := fun i hi =>
    h (.importClause i) (by simp_all [Node.children])
  have hblock : Conveys Block.ofJson? m.block.toJson m.block :=
    h (.block m.block) (by simp [Node.children])
  have hfooter : Conveys Ident.ofJson? m.footer.toJson m.footer :=
    h (.ident m.footer) (by simp [Node.children])
  exact Carries.conveys (.bind (.required rfl (.flag _)) (.bind (.required rfl hname)
    (.bind (.required rfl (.items himports)) (.bind (.required rfl hblock)
      (.bind (.required rfl hfooter) (.bind (.required rfl (Span.conveys hspan)) .pure)))))) rfl
    (by decide)

/-- A module under the tag of its kind. -/
theorem CompilationUnit.conveys {u : CompilationUnit} (h : u.moduleNode.Conveyed) :
    Conveys CompilationUnit.ofJson? u.toJson u := by
  cases u <;> refine .tagged (by decide) ?_ <;>
    simp only [ofJson?, content?_tagged, Option.bind_eq_bind, Option.bind_some]
  case definition m =>
    have hm : Conveys DefinitionModule.ofJson? m.toJson m := h
    exact hm.map
  case program m =>
    have hm : Conveys ProgramModule.ofJson? m.toJson m := h
    exact hm.map

/-! ## All nodes

  The recursion over all kinds of nodes puts the cases together. -/

/-- What a node shows is written and read back if its numbers are in range. -/
theorem Node.conveyed (n : Node) (h : n.Fits) : n.Conveyed := by
  -- An id and the spans that fit are those of the node itself; the rest is about its children.
  obtain ⟨⟨hid, hspans⟩, hchildren⟩ := fits_iff.1 h
  -- The recursion goes down from a node to its children, as the readers do.
  have ih : ∀ c ∈ n.children, c.Conveyed := fun c hc => conveyed c (hchildren c hc)
  cases n with
  | unit u => exact CompilationUnit.conveys (ih _ List.mem_cons_self)
  | definitionModule m => exact DefinitionModule.conveys (hspans _ List.mem_cons_self) ih
  | programModule m => exact ProgramModule.conveys (hspans _ List.mem_cons_self) ih
  | block b =>
    refine Block.conveys (hspans _ List.mem_cons_self) (fun s hs => hspans s (by simp_all [spans]))
      fun d hd => ih (.declaration d) (List.mem_map_of_mem hd)
  | importClause i => exact Import.conveys (hspans _ List.mem_cons_self) ih
  | ident i => exact Ident.conveys (hspans _ List.mem_cons_self)
  | qualident q =>
    exact Qualident.conveys (fun i hi => ih (.ident i) (List.mem_map_of_mem hi))
      (hspans _ List.mem_cons_self)
  | identList l =>
    exact IdentList.conveys (fun i hi => ih (.ident i) (List.mem_map_of_mem hi))
      (hspans _ List.mem_cons_self)
  | declaration d => exact Declaration.conveys (hid _ rfl) (hspans _ List.mem_cons_self) ih
  | constItem c =>
    exact ConstItem.conveys (hspans _ List.mem_cons_self) (ih (.ident c.name) (by simp [children]))
      (ih (.expr c.value) (by simp [children]))
  | typeItem t =>
    exact TypeItem.conveys (hspans _ List.mem_cons_self) (ih (.ident t.name) (by simp [children]))
      (ih (.type t.type) (by simp [children]))
  | type t => exact TypeExpr.conveys (hid _ rfl) (hspans _ List.mem_cons_self) ih
  | fieldList f => exact FieldList.conveys (hspans _ List.mem_cons_self) ih
  | variant v =>
    exact Variant.conveys (hspans _ List.mem_cons_self)
      (fun r hr => ih (.caseLabel r) (by simp_all [children]))
      (fun f hf => ih (.fieldList f) (by simp_all [children]))
  | caseLabel r => exact RangeItem.conveys (hspans _ List.mem_cons_self) ih
  | formalTypes f =>
    exact FormalTypes.conveys (hspans _ List.mem_cons_self)
      (fun p hp => ih (.formalType p) (by simp_all [children]))
      (fun q hq => ih (.qualident q) (by simp_all [children]))
  | formalType p =>
    exact FormalType.conveys (hspans _ List.mem_cons_self) (ih _ List.mem_cons_self)
  | expr e =>
    exact Expr.conveys (hid _ rfl) (hspans _ List.mem_cons_self)
      (fun s hs => hspans s (List.mem_cons_of_mem _ hs)) ih
  | element r => exact RangeItem.conveys (hspans _ List.mem_cons_self) ih
termination_by sizeOf n
decreasing_by exact sizeOf_child_lt hc

end Modula

import Modula.Proofs.Json.Range
/-!
# The JSON form is faithful

  Trees survive being written and being read, whatever part of a tree one starts with (`Faithful`):

  * what is written is read back as it was, if its ids and offsets are in range;
  * what is read out of any value has no name without an identifier, and is itself written and read back;
  * what is written is refused as soon as one of its names, at whatever depth, is emptied.

  That nothing escapes the last point is said by `Within`: everything below a node stands somewhere in
  the value that is written for the node.
-/

namespace Modula

open Json

/-! ## Parts of a value -/

/-- One value stands in another one, at whatever depth. -/
inductive Json.Within (v : Json) : Json → Prop
  | refl : Within v v
  | member {key : String} {w : Json} {members : List (String × Json)} :
    (key, w) ∈ members → Within v w → Within v (.object members)
  | item {w : Json} {items : List Json} : w ∈ items → Within v w → Within v (.array items)

namespace Json.Within

variable {u v w : Json}

/-- A part of a part is written within the whole. -/
theorem trans (huv : Within u v) (hvw : Within v w) : Within u w := by
  induction hvw with
  | refl => exact huv
  | member hmem _ ih => exact .member hmem ih
  | item hmem _ ih => exact .item hmem ih

/-- What is emptied inside a value empties the value. -/
theorem emptied {v' : Json} (h : Within v w) (he : Emptied v v') : ∃ w', Emptied w w' := by
  induction h with
  | refl => exact ⟨v', he⟩
  | member hmem _ ih =>
    obtain ⟨w', hw'⟩ := ih
    obtain ⟨before, after, rfl⟩ := List.append_of_mem hmem
    exact ⟨_, .member hw'⟩
  | item hmem _ ih =>
    obtain ⟨w', hw'⟩ := ih
    obtain ⟨before, after, rfl⟩ := List.append_of_mem hmem
    exact ⟨_, .item hw'⟩

end Json.Within

namespace Node

/-- Writes what a node shows. -/
def toJson : Node → Json
  | .unit u => u.toJson
  | .definitionModule m => m.toJson
  | .programModule m => m.toJson
  | .block b => b.toJson
  | .importClause i => i.toJson
  | .ident i => i.toJson
  | .qualident q => q.toJson
  | .identList l => l.toJson
  | .declaration d => d.toJson
  | .constItem c => c.toJson
  | .typeItem t => t.toJson
  | .type t => t.toJson
  | .fieldList f => f.toJson
  | .variant v => v.toJson
  | .caseLabel r => r.toJson
  | .formalTypes f => f.toJson
  | .formalType p => p.toJson
  | .expr e => e.toJson
  | .element r => r.toJson

end Node

/-! ## Children stand in what is written for their node -/

section

variable {c : Node}

/-- What belongs to a case stands in the case. -/
theorem Json.Within.tagged {v w : Json} {tag : String} (h : Within v w) : Within v (.tagged tag w) :=
  .member List.mem_cons_self h

/-- What stands in a member of an object stands in the object. -/
theorem Json.Within.at {v w : Json} {members : List (String × Json)} (key : String)
    (hkey : members.lookup key = some w) (h : Within v w) : Within v (.object members) := by
  obtain ⟨before, after, rfl, -⟩ := List.lookup_eq_some_iff.1 hkey
  exact .member (List.mem_append_right _ List.mem_cons_self) h

/-- One case for each kind of expression: where its operands are written. -/
theorem ExprKind.within {k : ExprKind} (hc : c ∈ k.children) : Within c.toJson k.toJson := by
  cases k with
  | integer literal => cases hc
  | real text => cases hc
  | string content => cases hc
  | designator name =>
    obtain rfl := List.mem_singleton.1 hc
    exact .tagged .refl
  -- The base is a child only if it is written, and then it is not null.
  | set base elements =>
    rcases List.mem_append.1 hc with hbase | helement
    · obtain ⟨q, hq, rfl⟩ := List.mem_map.1 hbase
      obtain rfl := Option.mem_toList.1 hq
      exact .tagged (.at "base" rfl .refl)
    · obtain ⟨r, hr, rfl⟩ := List.mem_map.1 helement
      rw [toJson, rangeItemsToJson_eq]
      exact .tagged (.at "elements" rfl (.item (List.mem_map_of_mem hr) .refl))
  | not operand =>
    obtain rfl := List.mem_singleton.1 hc
    exact .tagged .refl
  | signed sign operand =>
    obtain rfl := List.mem_singleton.1 hc
    exact .tagged (.at "operand" rfl .refl)
  | binary op opSpan lhs rhs =>
    obtain rfl | rfl : c = .expr lhs ∨ c = .expr rhs := by simpa [children] using hc
    · exact .tagged (.at "lhs" rfl .refl)
    · exact .tagged (.at "rhs" rfl .refl)

/-- Both bounds are members. -/
theorem RangeItem.within {r : RangeItem} (hc : c ∈ r.children) : Within c.toJson r.toJson := by
  rw [toJson_eq]
  rcases List.mem_cons.1 hc with rfl | hrhs
  · exact .at "lhs" rfl .refl
  · obtain ⟨e, he, rfl⟩ := List.mem_map.1 hrhs
    rw [Option.mem_toList.1 he]
    exact .at "rhs" rfl .refl

/-- One case for each kind of type. -/
theorem TypeKind.within {k : TypeKind} (hc : c ∈ k.children) : Within c.toJson k.toJson := by
  cases k with
  | named name =>
    obtain rfl := List.mem_singleton.1 hc
    exact .tagged .refl
  | enumeration names =>
    obtain rfl := List.mem_singleton.1 hc
    exact .tagged .refl
  | subrange low high =>
    obtain rfl | rfl : c = .expr low ∨ c = .expr high := by simpa [children] using hc
    · exact .tagged (.at "from" rfl .refl)
    · exact .tagged (.at "to" rfl .refl)
  | array index element =>
    obtain rfl | rfl : c = .type index ∨ c = .type element := by simpa [children] using hc
    · exact .tagged (.at "index" rfl .refl)
    · exact .tagged (.at "element" rfl .refl)
  | record entries =>
    obtain ⟨f, hf, rfl⟩ := List.mem_map.1 hc
    rw [toJson, fieldListsToJson_eq]
    exact .tagged (.item (List.mem_map_of_mem hf) .refl)
  | set base =>
    obtain rfl := List.mem_singleton.1 hc
    exact .tagged .refl
  | pointer target =>
    obtain rfl := List.mem_singleton.1 hc
    exact .tagged .refl
  | procedure formals =>
    obtain ⟨f, hf, rfl⟩ := List.mem_map.1 hc
    obtain rfl := Option.mem_toList.1 hf
    exact .tagged .refl

/-- A line of fields has names and a type, a variant part has a tag, arms and entries. -/
theorem FieldKind.within {k : FieldKind} (hc : c ∈ k.children) : Within c.toJson k.toJson := by
  cases k with
  | fields names type =>
    obtain rfl | rfl : c = .identList names ∨ c = .type type := by simpa [children] using hc
    · exact .tagged (.at "names" rfl .refl)
    · exact .tagged (.at "ty" rfl .refl)
  | variants tag tagType arms otherwise =>
    rw [toJson_variants]
    -- The children stand in the order of the tag, its type, the arms and what is behind `ELSE`.
    rcases List.mem_append.1 hc with hc | hotherwise
    · rcases List.mem_append.1 hc with hc | harm
      · rcases List.mem_append.1 hc with htag | htagType
        · obtain ⟨i, hi, rfl⟩ := List.mem_map.1 htag
          obtain rfl := Option.mem_toList.1 hi
          exact .tagged (.at "tag" rfl .refl)
        · obtain rfl := List.mem_singleton.1 htagType
          exact .tagged (.at "tag_type" rfl .refl)
      · obtain ⟨v, hv, rfl⟩ := List.mem_map.1 harm
        exact .tagged (.at "variants" rfl (.item (List.mem_map_of_mem hv) .refl))
    · obtain ⟨f, hf, rfl⟩ := List.mem_map.1 hotherwise
      cases otherwise with
      | none => cases hf
      | some entries => exact .tagged (.at "else_fields" rfl (.item (List.mem_map_of_mem hf) .refl))

/-- All that is in an import is names. -/
theorem Import.within {i : Import} (hc : c ∈ i.kind.children) : Within c.toJson i.toJson := by
  obtain ⟨kind, span⟩ := i
  cases kind with
  | qualified modules =>
    obtain rfl := List.mem_singleton.1 hc
    exact .at "kind" rfl (.tagged (.at "modules" rfl .refl))
  | unqualified source names =>
    obtain rfl | rfl : c = .ident source ∨ c = .identList names := by
      simpa [ImportKind.children] using hc
    · exact .at "kind" rfl (.tagged (.at "module" rfl .refl))
    · exact .at "kind" rfl (.tagged (.at "names" rfl .refl))

/-- The items of a section are a list in its case. -/
theorem Declaration.within {d : Declaration} (hc : c ∈ d.kind.children) :
    Within c.toJson d.toJson := by
  obtain ⟨id, kind, span⟩ := d
  cases kind with
  | constants items =>
    obtain ⟨item, hitem, rfl⟩ := List.mem_map.1 hc
    exact .at "kind" rfl (.tagged (.item (List.mem_map_of_mem hitem) .refl))
  | types items =>
    obtain ⟨item, hitem, rfl⟩ := List.mem_map.1 hc
    exact .at "kind" rfl (.tagged (.item (List.mem_map_of_mem hitem) .refl))

/-- Whatever stands below a node is written within what is written for it. -/
theorem Node.within_of_child {n : Node} (hc : c ∈ n.children) : Within c.toJson n.toJson := by
  -- Each child is written at a key of its parent, in an array there if it is one of many.
  cases n with
  | unit u =>
    obtain rfl := List.mem_singleton.1 hc
    cases u <;> exact .tagged .refl
  | definitionModule m =>
    rcases List.mem_append.1 hc with hc | hfooter
    · rcases List.mem_append.1 hc with hc | hdeclaration
      · rcases List.mem_append.1 hc with hname | himport
        · obtain rfl := List.mem_singleton.1 hname
          exact .at "name" rfl .refl
        · obtain ⟨i, hi, rfl⟩ := List.mem_map.1 himport
          exact .at "imports" rfl (.item (List.mem_map_of_mem hi) .refl)
      · obtain ⟨d, hd, rfl⟩ := List.mem_map.1 hdeclaration
        exact .at "decls" rfl (.item (List.mem_map_of_mem hd) .refl)
    · obtain rfl := List.mem_singleton.1 hfooter
      exact .at "footer" rfl .refl
  | programModule m =>
    rcases List.mem_append.1 hc with hc | hrest
    · rcases List.mem_append.1 hc with hname | himport
      · obtain rfl := List.mem_singleton.1 hname
        exact .at "name" rfl .refl
      · obtain ⟨i, hi, rfl⟩ := List.mem_map.1 himport
        exact .at "imports" rfl (.item (List.mem_map_of_mem hi) .refl)
    · obtain rfl | rfl : c = .block m.block ∨ c = .ident m.footer := by simpa using hrest
      · exact .at "block" rfl .refl
      · exact .at "footer" rfl .refl
  | block b =>
    obtain ⟨d, hd, rfl⟩ := List.mem_map.1 hc
    exact .at "decls" rfl (.item (List.mem_map_of_mem hd) .refl)
  | importClause i => exact Import.within hc
  | ident i => cases hc
  | qualident q =>
    obtain ⟨i, hi, rfl⟩ := List.mem_map.1 hc
    exact .at "parts" rfl (.item (List.mem_map_of_mem hi) .refl)
  | identList l =>
    obtain ⟨i, hi, rfl⟩ := List.mem_map.1 hc
    exact .at "idents" rfl (.item (List.mem_map_of_mem hi) .refl)
  | declaration d => exact Declaration.within hc
  | constItem item =>
    obtain rfl | rfl : c = .ident item.name ∨ c = .expr item.value := by simpa [children] using hc
    · exact .at "name" rfl .refl
    · exact .at "value" rfl .refl
  | typeItem item =>
    obtain rfl | rfl : c = .ident item.name ∨ c = .type item.type := by simpa [children] using hc
    · exact .at "name" rfl .refl
    · exact .at "ty" rfl .refl
  | type t =>
    obtain ⟨id, kind, span⟩ := t
    exact .at "kind" rfl (TypeKind.within hc)
  | fieldList f =>
    obtain ⟨kind, span⟩ := f
    exact .at "kind" rfl (FieldKind.within hc)
  | variant v =>
    obtain ⟨labels, entries, span⟩ := v
    rw [toJson, Variant.toJson, rangeItemsToJson_eq, fieldListsToJson_eq]
    rcases List.mem_append.1 hc with hlabel | hentry
    · obtain ⟨r, hr, rfl⟩ := List.mem_map.1 hlabel
      exact .at "labels" rfl (.item (List.mem_map_of_mem hr) .refl)
    · obtain ⟨f, hf, rfl⟩ := List.mem_map.1 hentry
      exact .at "fields" rfl (.item (List.mem_map_of_mem hf) .refl)
  | caseLabel r => exact RangeItem.within hc
  | formalTypes f =>
    obtain ⟨params, result, span⟩ := f
    rcases List.mem_append.1 hc with hparam | hresult
    · obtain ⟨p, hp, rfl⟩ := List.mem_map.1 hparam
      exact .at "params" rfl (.item (List.mem_map_of_mem hp) .refl)
    · obtain ⟨q, hq, rfl⟩ := List.mem_map.1 hresult
      obtain rfl := Option.mem_toList.1 hq
      exact .at "result" rfl .refl
  | formalType p =>
    obtain rfl := List.mem_singleton.1 hc
    exact .at "ty" rfl .refl
  | expr e =>
    obtain ⟨id, kind, span⟩ := e
    exact .at "kind" rfl (ExprKind.within hc)
  | element r => exact RangeItem.within hc

end

/-- Everything below a node stands in what is written for the node. -/
theorem Node.within_of_mem_walk {n m : Node} (h : m ∈ n.walk) : Within m.toJson n.toJson := by
  rcases mem_walk_iff.1 h with rfl | ⟨c, hc, hm⟩
  · exact .refl
  · exact (within_of_mem_walk hm).trans (within_of_child hc)
termination_by sizeOf n
decreasing_by exact sizeOf_child_lt hc

/-! ## Faithfulness -/

/-- No name and no list of identifiers, at the node or below it, is empty. -/
def Node.HasNames (n : Node) : Prop :=
  ∀ m ∈ n.walk, (∀ q, m = .qualident q → q.parts ≠ []) ∧ ∀ l, m = .identList l → l.idents ≠ []

/-- No name is empty, as its first part has a field of its own. -/
theorem Node.hasNames (n : Node) : n.HasNames :=
  fun _ _ => ⟨fun q _ => List.cons_ne_nil q.first q.more, fun l _ => List.cons_ne_nil l.first l.more⟩

/-- Trees with roots of one type survive being written and being read. -/
structure Faithful {α : Type} (write : α → Json) (read : Json → Option α) (node : α → Node) :
    Prop where
  read_write : ∀ t, (node t).Fits → read (write t) = some t
  write_read : ∀ j t, read j = some t → (node t).Fits ∧ (node t).HasNames ∧ read (write t) = some t
  /-- What is written has all names of the tree in it. -/
  within : ∀ t, ∀ m ∈ (node t).walk, Within m.toJson (write t)
  refuses : ∀ t j, (node t).Fits → Emptied (write t) j → read j = none

/-- Conveyed and in range is all that faithfulness asks for. -/
theorem Faithful.of_conveys {α : Type} {write : α → Json} {read : Json → Option α} {node : α → Node}
    (hwrite : ∀ t, (node t).toJson = write t)
    (hconveys : ∀ t, (node t).Fits → Conveys read (write t) t)
    (hyields : Yields read fun t => (node t).Fits) : Faithful write read node where
  read_write t ht := (hconveys t ht).read_eq
  write_read _ t hj := ⟨hyields hj, (node t).hasNames, (hconveys t (hyields hj)).read_eq⟩
  within t _ hm := hwrite t ▸ Node.within_of_mem_walk hm
  refuses t _ ht he := (hconveys t ht).refuses he

/-- Every type of trees, of parts of trees and of names has a faithful JSON form. -/
theorem toJson_faithful :
    Faithful CompilationUnit.toJson CompilationUnit.ofJson? .unit ∧
    Faithful Import.toJson Import.ofJson? .importClause ∧
    Faithful Declaration.toJson Declaration.ofJson? .declaration ∧
    Faithful TypeExpr.toJson TypeExpr.ofJson? .type ∧
    Faithful Expr.toJson Expr.ofJson? .expr ∧
    Faithful FieldList.toJson FieldList.ofJson? .fieldList ∧
    Faithful Variant.toJson Variant.ofJson? .variant ∧
    Faithful FormalTypes.toJson FormalTypes.ofJson? .formalTypes ∧
    Faithful Qualident.toJson Qualident.ofJson? .qualident ∧
    Faithful IdentList.toJson IdentList.ofJson? .identList ∧
    Faithful Ident.toJson Ident.ofJson? .ident :=
  ⟨.of_conveys (fun _ => rfl) (fun t => Node.conveyed (.unit t)) CompilationUnit.yields,
    .of_conveys (fun _ => rfl) (fun t => Node.conveyed (.importClause t)) Import.yields,
    .of_conveys (fun _ => rfl) (fun t => Node.conveyed (.declaration t)) Declaration.yields,
    .of_conveys (fun _ => rfl) (fun t => Node.conveyed (.type t)) TypeExpr.yields,
    .of_conveys (fun _ => rfl) (fun t => Node.conveyed (.expr t)) Expr.yields,
    .of_conveys (fun _ => rfl) (fun t => Node.conveyed (.fieldList t)) FieldList.yields,
    .of_conveys (fun _ => rfl) (fun t => Node.conveyed (.variant t)) (Variant.yields FieldList.yields),
    .of_conveys (fun _ => rfl) (fun t => Node.conveyed (.formalTypes t)) FormalTypes.yields,
    .of_conveys (fun _ => rfl) (fun t => Node.conveyed (.qualident t)) Qualident.yields,
    .of_conveys (fun _ => rfl) (fun t => Node.conveyed (.identList t)) IdentList.yields,
    .of_conveys (fun _ => rfl) (fun t => Node.conveyed (.ident t)) Ident.yields⟩

example : Qualident.ofJson? (.object [("parts", .array []), ("span", Span.toJson ⟨0, 0⟩)]) = none := rfl

end Modula

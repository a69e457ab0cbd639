import Mathlib.Data.List.Nodup
import Modula.Node.Walk
/-!
# Fields are children

  `Node.children` and `Node.field?` are two tables over the same kinds of nodes.  A third one, `Node.slots`,
  follows the grammar: the places of a phrase from left to right, each either for a part that has a name and
  may be left out, or for a row of parts.

  1. **Two readings of the slots.**  The children of a node are what is in its slots, one slot behind the
     other (`Node.children_eq`).  A field is what is in the slot of its name (`Node.field?_eq`).
  2. **Positions.**  A name has a position among the children: in front of it are the nodes of all slots
     before its own.  The position follows from the outline of the slots, without a look at the nodes, and
     the node at the position is the one in the slot (`Slot.find?_of_position`).
  3. **What the positions are.**  No two names share a position, and the children that no name leads to are
     those in the rows (`Outline.position_injective`, `Slot.rowAt?_of_position`, `Slot.exists_position`).
-/

namespace Modula

/-! ## Slots

  A phrase has places, each for one part, for a part that may be missing, or for any number of parts.
  What is known without a look at the parts themselves is the outline. -/

namespace Node

/-- The parts of a tree that there may be any number of. -/
inductive Row where
  | imports
  /-- Sections of declarations. -/
  | declarations
  /-- The declarations of a section. -/
  | items
  /-- The entries of a record or of an arm. -/
  | fields
  | variants
  | labels
  | parameters
  | elements
  /-- The identifiers of a list, or the segments of a qualified name. -/
  | names
  /-- The entries behind `ELSE`. -/
  | otherwise
deriving DecidableEq, Repr

/-- What the grammar has at one place of a phrase. -/
inductive Slot where
  /-- A part that has a name.  It may be left out. -/
  | part (name : String) (node : Option Node)
  | row (kind : Row) (nodes : List Node)
deriving Repr

/-- What is known of a slot without a look at its nodes. -/
structure Outline where
  name? : Option String
  size : Nat
deriving DecidableEq, Repr

/-- The position of the node in the slot of this name, the nodes of all slots counted from 0. -/
def Outline.position? (name : String) : List Outline → Option Nat
  | [] => none
  | o :: outlines =>
    if o.name? = some name then if o.size = 0 then none else some 0
    else (position? name outlines).map (o.size + ·)

namespace Slot

/-- The nodes in the slot, in source order. -/
def nodes : Slot → List Node
  | .part _ node => node.toList
  | .row _ nodes => nodes

/-- The name of the part that the slot is for. -/
def name? : Slot → Option String
  | .part name _ => some name
  | .row _ _ => none

/-- The row that the slot is for. -/
def row? : Slot → Option Row
  | .part _ _ => none
  | .row kind _ => some kind

def outline (s : Slot) : Outline := ⟨s.name?, s.nodes.length⟩

/-- The node in the slot of this name. -/
def find? (name : String) : List Slot → Option Node
  | [] => none
  | s :: slots => if s.name? = some name then s.nodes.head? else find? name slots

/-- The row that the node at a position is in, the nodes of all slots counted from 0. -/
def rowAt? : List Slot → Nat → Option Row
  | [], _ => none
  | s :: slots, i => if i < s.nodes.length then s.row? else rowAt? slots (i - s.nodes.length)

@[simp] theorem name?_part (name : String) (node : Option Node) : (part name node).name? = some name := rfl

@[simp] theorem name?_row (kind : Row) (nodes : List Node) : (row kind nodes).name? = none := rfl

/-- A slot is for a row or has a name. -/
theorem row?_eq_none_iff {s : Slot} : s.row? = none ↔ ∃ name, s.name? = some name := by
  cases s <;> simp [row?, name?]

/-- There is at most one node for a part. -/
theorem length_nodes_le {s : Slot} {name : String} (h : s.name? = some name) : s.nodes.length ≤ 1 := by
  cases s with
  | part name' node => cases node <;> simp [nodes]
  | row kind nodes => cases h

end Slot

/-! ## Positions

  Positions are counted over the outlines.  A part that is missing takes no position, and a row takes as
  many as it has parts. -/

/-- A position is in the first slot and is the position 0, or it is in a later one. -/
theorem Outline.position_cons {name : String} {o : Outline} {outlines : List Outline} {i : Nat} :
    position? name (o :: outlines) = some i ↔
      o.name? = some name ∧ 0 < o.size ∧ i = 0 ∨
      o.name? ≠ some name ∧ ∃ j, position? name outlines = some j ∧ o.size + j = i := by
  rw [position?]
  split
  · next hname =>
    simp only [hname, ne_eq, not_true_eq_false, true_and, false_and, or_false]
    split
    · next hzero => simp [hzero]
    · next hpos => simp [Nat.pos_of_ne_zero hpos, eq_comm]
  · next hname => simp [hname]

/-- A position leads back to one name, whether a slot is taken or left out. -/
theorem Outline.position_injective {a b : String} {outlines : List Outline} {i : Nat}
    (ha : position? a outlines = some i) (hb : position? b outlines = some i) : a = b := by
  induction outlines generalizing i with
  | nil => cases ha
  | cons o outlines ih =>
    rcases position_cons.1 ha with ⟨hname, hpos, rfl⟩ | ⟨-, j, hj, rfl⟩
    · rcases position_cons.1 hb with ⟨hname', -, -⟩ | ⟨-, k, -, hk⟩
      · exact Option.some.inj (hname.symm.trans hname')
      · omega
    · rcases position_cons.1 hb with ⟨-, hpos, hzero⟩ | ⟨-, k, hk, hjk⟩
      · omega
      · obtain rfl : k = j := by omega
        exact ih hj hk

namespace Slot

/-- The position that the outline of the slots tells. -/
def position? (name : String) (slots : List Slot) : Option Nat :=
  Outline.position? name (slots.map outline)

/-- The position of a name: at once if the slot has this name and a node in it, and behind the nodes of
the slot otherwise. -/
theorem position_cons {name : String} {s : Slot} {slots : List Slot} {i : Nat} :
    position? name (s :: slots) = some i ↔
      s.name? = some name ∧ 0 < s.nodes.length ∧ i = 0 ∨
      s.name? ≠ some name ∧ ∃ j, position? name slots = some j ∧ s.nodes.length + j = i :=
  Outline.position_cons

variable {name : String} {slots : List Slot} {i : Nat}

/-- At the position of a name is the node in its slot. -/
theorem find?_of_position (h : position? name slots = some i) :
    ∃ n, find? name slots = some n ∧ (slots.flatMap nodes)[i]? = some n := by
  induction slots generalizing i with
  | nil => cases h
  | cons s slots ih =>
    rw [List.flatMap_cons, find?]
    rcases position_cons.1 h with ⟨hname, hpos, rfl⟩ | ⟨hname, j, hj, rfl⟩
    · rw [if_pos hname, List.getElem?_append_left hpos, ← List.head?_eq_getElem?]
      exact ⟨s.nodes.head (List.ne_nil_of_length_pos hpos), List.head?_eq_some_head _,
        List.head?_eq_some_head _⟩
    · rw [if_neg hname, List.getElem?_append_right (Nat.le_add_right _ _), Nat.add_sub_cancel_left]
      exact ih hj

/-- A name has a position if there is a node in its slot. -/
theorem exists_position_of_find {n : Node} (h : find? name slots = some n) :
    ∃ i, position? name slots = some i := by
  induction slots with
  | nil => cases h
  | cons s slots ih =>
    rw [find?] at h
    split at h
    · next hname =>
      have hpos : 0 < s.nodes.length := List.length_pos_of_mem (List.mem_of_head? h)
      exact ⟨0, position_cons.2 (.inl ⟨hname, hpos, rfl⟩)⟩
    · next hname =>
      obtain ⟨j, hj⟩ := ih h
      exact ⟨_, position_cons.2 (.inr ⟨hname, j, hj, rfl⟩)⟩

/-- Only names of slots have positions. -/
theorem mem_names_of_position (h : position? name slots = some i) : name ∈ slots.filterMap name? := by
  induction slots generalizing i with
  | nil => cases h
  | cons s slots ih =>
    rcases position_cons.1 h with ⟨hname, -, -⟩ | ⟨-, j, hj, -⟩
    · exact List.mem_filterMap.2 ⟨s, List.mem_cons_self, hname⟩
    · obtain ⟨t, ht, hname⟩ := List.mem_filterMap.1 (ih hj)
      exact List.mem_filterMap.2 ⟨t, List.mem_cons_of_mem _ ht, hname⟩

/-- No name leads into a row. -/
theorem rowAt?_of_position (h : position? name slots = some i) : rowAt? slots i = none := by
  induction slots generalizing i with
  | nil => cases h
  | cons s slots ih =>
    rw [rowAt?]
    rcases position_cons.1 h with ⟨hname, hpos, rfl⟩ | ⟨-, j, hj, rfl⟩
    · rw [if_pos hpos]
      exact row?_eq_none_iff.2 ⟨name, hname⟩
    · rw [if_neg (by omega), Nat.add_sub_cancel_left, ih hj]

/-- A name leads to each node that is not in a row, as long as no two slots have the same name. -/
theorem exists_position (hnames : (slots.filterMap name?).Nodup) (hi : i < (slots.flatMap nodes).length)
    (hrow : rowAt? slots i = none) : ∃ name, position? name slots = some i := by
  induction slots generalizing i with
  | nil => cases hi
  | cons s slots ih =>
    rw [rowAt?] at hrow
    rw [List.flatMap_cons, List.length_append] at hi
    split at hrow
    · next hlt =>
      obtain ⟨name, hname⟩ := row?_eq_none_iff.1 hrow
      have hle := length_nodes_le hname
      exact ⟨name, position_cons.2 (.inl ⟨hname, Nat.zero_lt_of_lt hlt, by omega⟩)⟩
    · next hge =>
      have hnames' : (slots.filterMap name?).Nodup :=
        hnames.sublist ((List.sublist_cons_self s slots).filterMap _)
      obtain ⟨name, hj⟩ := ih hnames' (by omega) hrow
      refine ⟨name, position_cons.2 (.inr ⟨fun hname => ?_, _, hj, by omega⟩)⟩
      -- the name would be that of two slots
      rw [List.filterMap_cons_some hname] at hnames
      exact (List.nodup_cons.1 hnames).1 (mem_names_of_position hj)

end Slot

end Node

/-! ## The slots of the parts that come in kinds

  One row of slots for each case, in the order of the source. -/

open Node (Slot)

def ImportKind.slots : ImportKind → List Slot
  | .qualified modules => [.part "impmodules" (some (.identList modules))]
  | .unqualified source names =>
    [.part "impmodule" (some (.ident source)), .part "idlist" (some (.identList names))]

def DeclarationKind.slots : DeclarationKind → List Slot
  | .constants items => [.row .items (items.map .constItem)]
  | .types items => [.row .items (items.map .typeItem)]

def TypeKind.slots : TypeKind → List Slot
  | .named name => [.part "qualident" (some (.qualident name))]
  | .enumeration names => [.part "idlist" (some (.identList names))]
  | .subrange low high => [.part "from" (some (.expr low)), .part "to" (some (.expr high))]
  | .array index element => [.part "index" (some (.type index)), .part "element" (some (.type element))]
  | .record entries => [.row .fields (entries.map .fieldList)]
  | .set base => [.part "base" (some (.type base))]
  | .pointer target => [.part "target" (some (.type target))]
  | .procedure formals => [.part "params" (formals.map .formalTypes)]

def FieldKind.slots : FieldKind → List Slot
  | .fields names type => [.part "idlist" (some (.identList names)), .part "type" (some (.type type))]
  | .variants tag tagType arms otherwise =>
    [.part "tag" (tag.map .ident), .part "tag_type" (some (.qualident tagType)),
      .row .variants (arms.map .variant), .row .otherwise ((otherwise.getD []).map .fieldList)]

def RangeItem.slots (r : RangeItem) : List Slot :=
  [.part "lhs" (some (.expr r.lhs)), .part "rhs" (r.rhs.map .expr)]

def ExprKind.slots : ExprKind → List Slot
  | .integer _ | .real _ | .string _ => []
  | .designator name => [.part "qualident" (some (.qualident name))]
  | .set base elements => [.part "base" (base.map .qualident), .row .elements (elements.map .element)]
  | .not operand => [.part "operand" (some (.expr operand))]
  | .signed _ operand => [.part "operand" (some (.expr operand))]
  | .binary _ _ lhs rhs => [.part "lhs" (some (.expr lhs)), .part "rhs" (some (.expr rhs))]

/-! ## The slots of nodes

  A node whose parts come in kinds has the slots of its kind. -/

namespace Node

/-- The places of the phrase that the node is. -/
def slots : Node → List Slot
  | .unit u => [.part "module" (some u.moduleNode)]
  | .definitionModule m =>
    [.part "modulename" (some (.ident m.name)), .row .imports (m.imports.map .importClause),
      .row .declarations (m.declarations.map .declaration), .part "footer" (some (.ident m.footer))]
  | .programModule m =>
    [.part "modulename" (some (.ident m.name)), .row .imports (m.imports.map .importClause),
      .part "block" (some (.block m.block)), .part "footer" (some (.ident m.footer))]
  | .block b => [.row .declarations (b.declarations.map .declaration)]
  | .importClause i => i.kind.slots
  | .ident _ => []
  | .qualident q => [.row .names (q.parts.map .ident)]
  | .identList l => [.row .names (l.idents.map .ident)]
  | .declaration d => d.kind.slots
  | .constItem c => [.part "const_id" (some (.ident c.name)), .part "value" (some (.expr c.value))]
  | .typeItem t => [.part "name" (some (.ident t.name)), .part "type" (some (.type t.type))]
  | .type t => t.kind.slots
  | .fieldList f => f.kind.slots
  | .variant v => [.row .labels (v.labels.map .caseLabel), .row .fields (v.entries.map .fieldList)]
  | .caseLabel r => r.slots
  | .formalTypes f =>
    [.row .parameters (f.params.map .formalType), .part "result" (f.result.map .qualident)]
  | .formalType p => [.part "type" (some (.qualident p.type))]
  | .expr e => e.kind.slots
  | .element r => r.slots

end Node

/-! ## Children and fields read off the slots

  Both functions of the program are read off the same slots: one forgets the names, and the other one
  looks a name up. -/

/-- The slots of an import hold its children, in their order. -/
theorem ImportKind.children_eq (k : ImportKind) : k.children = k.slots.flatMap Slot.nodes := by
  cases k <;> rfl

theorem DeclarationKind.children_eq (k : DeclarationKind) : k.children = k.slots.flatMap Slot.nodes := by
  cases k <;> simp [children, slots, Slot.nodes]

/-- One case for each kind of type. -/
theorem TypeKind.children_eq (k : TypeKind) : k.children = k.slots.flatMap Slot.nodes := by
  cases k <;> simp [children, slots, Slot.nodes, Option.toList_map]

theorem FieldKind.children_eq (k : FieldKind) : k.children = k.slots.flatMap Slot.nodes := by
  cases k <;> simp [children, slots, Slot.nodes, Option.toList_map]

theorem RangeItem.children_eq (r : RangeItem) : r.children = r.slots.flatMap Slot.nodes := by
  simp [children, slots, Slot.nodes, Option.toList_map]

/-- One case for each kind of expression. -/
theorem ExprKind.children_eq (k : ExprKind) : k.children = k.slots.flatMap Slot.nodes := by
  cases k <;> simp [children, slots, Slot.nodes, Option.toList_map]

/-- A field of an import is what is in the slot of its name. -/
theorem ImportKind.field?_eq (k : ImportKind) (name : String) : k.field? name = Slot.find? name k.slots := by
  fun_cases field? k name with
  -- the last case is always that of no field with the name: then no slot has it either
  | case4 k name => cases k <;> simp_all [slots, Slot.find?, eq_comm]
  | _ => simp [slots, Slot.find?, Slot.nodes]

/-- A name that no slot has leads to nothing, in each of the cases. -/
theorem TypeKind.field?_eq (k : TypeKind) (name : String) : k.field? name = Slot.find? name k.slots := by
  fun_cases field? k name with
  | case10 k name => cases k <;> simp_all [slots, Slot.find?, eq_comm]
  | _ => simp [slots, Slot.find?, Slot.nodes]

theorem FieldKind.field?_eq (k : FieldKind) (name : String) : k.field? name = Slot.find? name k.slots := by
  fun_cases field? k name with
  | case5 k name => cases k <;> simp_all [slots, Slot.find?, eq_comm]
  | _ => simp [slots, Slot.find?, Slot.nodes]

theorem RangeItem.field?_eq (r : RangeItem) (name : String) : r.field? name = Slot.find? name r.slots := by
  fun_cases field? r name with
  | case3 name => simp_all [slots, Slot.find?, eq_comm]
  | _ => simp [slots, Slot.find?, Slot.nodes]

theorem ExprKind.field?_eq (k : ExprKind) (name : String) : k.field? name = Slot.find? name k.slots := by
  fun_cases field? k name with
  | case7 k name => cases k <;> simp_all [slots, Slot.find?, eq_comm]
  | _ => simp [slots, Slot.find?, Slot.nodes]

namespace Node

/-- The children of any node are what is in its slots. -/
theorem children_eq (n : Node) : n.children = n.slots.flatMap Slot.nodes := by
  cases n with
  | importClause i => exact i.kind.children_eq
  | declaration d => exact d.kind.children_eq
  | type t => exact t.kind.children_eq
  | fieldList f => exact f.kind.children_eq
  | caseLabel r => exact r.children_eq
  | expr e => exact e.kind.children_eq
  | element r => exact r.children_eq
  | _ => simp [children, slots, Slot.nodes, Option.toList_map]

/-- And its fields are what is in the slots with names. -/
theorem field?_eq (n : Node) (name : String) : n.field? name = Slot.find? name n.slots := by
  fun_cases field? n name with
  | case7 i name => exact i.kind.field?_eq name
  | case12 t name => exact t.kind.field?_eq name
  | case13 f name => exact f.kind.field?_eq name
  | case14 r name => exact r.field?_eq name
  | case17 e name => exact e.kind.field?_eq name
  | case18 r name => exact r.field?_eq name
  | case19 n name =>
    cases n with
    | declaration d => cases h : d.kind <;> simp [slots, h, DeclarationKind.slots, Slot.find?]
    | _ => simp_all [slots, Slot.find?, eq_comm]
  | _ => simp [slots, Slot.find?, Slot.nodes]

/-- No phrase has two slots of one name. -/
theorem nodup_names (n : Node) : (n.slots.filterMap Slot.name?).Nodup := by
  cases n with
  | importClause i => cases h : i.kind <;> simp [slots, h, ImportKind.slots]
  | declaration d => cases h : d.kind <;> simp [slots, h, DeclarationKind.slots, List.filterMap_cons]
  | type t => cases h : t.kind <;> simp [slots, h, TypeKind.slots, List.filterMap_cons]
  | fieldList f => cases h : f.kind <;> simp [slots, h, FieldKind.slots, List.filterMap_cons]
  | expr e => cases h : e.kind <;> simp [slots, h, ExprKind.slots, List.filterMap_cons]
  | _ => simp [slots, RangeItem.slots, List.filterMap_cons]

/-- What is known of the slots of a node without a look at its children. -/
def outlines (n : Node) : List Outline := n.slots.map Slot.outline

/-- The row that the child at a position is in. -/
def rowAt? (n : Node) (i : Nat) : Option Row := Slot.rowAt? n.slots i

/-- Positions among the children of a node for the names of its fields. -/
structure Places (n : Node) (position : String → Option Nat) : Prop where
  /-- The names of the fields that there are have positions, and no other names. -/
  isSome_iff : ∀ name, (position name).isSome ↔ (n.field? name).isSome
  /-- The field is the child at the position. -/
  getElem?_eq : ∀ name i, position name = some i → n.children[i]? = n.field? name
  injective : ∀ a b i, position a = some i → position b = some i → a = b
  /-- A name leads to each child that is not in a row. -/
  exists_iff : ∀ i < n.children.length, (∃ name, position name = some i) ↔ n.rowAt? i = none

/-- The positions told by the outline are those of the fields. -/
theorem places_position (n : Node) : n.Places fun name => Outline.position? name n.outlines where
  isSome_iff := by
    intro name
    rw [n.field?_eq, Option.isSome_iff_exists, Option.isSome_iff_exists]
    constructor
    · rintro ⟨i, hi⟩
      obtain ⟨m, hm, -⟩ := Slot.find?_of_position hi
      exact ⟨m, hm⟩
    · rintro ⟨m, hm⟩
      exact Slot.exists_position_of_find hm
  getElem?_eq := by
    intro name i hi
    obtain ⟨m, hm, hat⟩ := Slot.find?_of_position hi
    rw [n.children_eq, n.field?_eq, hm, hat]
  injective := fun a b i => Outline.position_injective
  exists_iff := by
    intro i hi
    rw [n.children_eq] at hi
    constructor
    · rintro ⟨name, hname⟩
      exact Slot.rowAt?_of_position hname
    · exact Slot.exists_position n.nodup_names hi

/-- A field is a child. -/
theorem Places.mem_children {n m : Node} {position : String → Option Nat} {name : String}
    (h : n.Places position) (hm : n.field? name = some m) : m ∈ n.children := by
  obtain ⟨i, hi⟩ := Option.isSome_iff_exists.1 ((h.isSome_iff name).2 (hm ▸ rfl))
  exact List.mem_of_getElem? ((h.getElem?_eq name i hi).trans hm)

/-- Fields are children.  Their positions follow from the outlines of the node alone, and so a field is the
child at its position even where another child looks the same. -/
theorem fields_exact : ∃ position : List Outline → String → Option Nat, ∀ n : Node,
    (∀ name m, n.field? name = some m → m ∈ n.children) ∧ n.Places (position n.outlines) :=
  ⟨fun outlines name => Outline.position? name outlines, fun n =>
    ⟨fun _ _ hm => n.places_position.mem_children hm, n.places_position⟩⟩

end Node

end Modula

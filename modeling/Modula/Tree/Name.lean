import Modula.Span
/-!
# Names in the tree

  * `Ident` — one identifier where it stands;
  * `Qualident` — a name that may be qualified by module names, such as `Storage.Pool.size`;
  * `IdentList` — identifiers separated by commas, in source order.

  The last two hold at least one identifier by construction: a first one, and more.  Both grow at
  the end, and their span grows with them (`push`).
-/

namespace Modula

/-- An identifier. -/
structure Ident where
  name : String
  span : Span
deriving DecidableEq, Repr

/-! ## Qualified names -/

/-- A name with the module names in front of it. -/
structure Qualident where
  first : Ident
  more : List Ident
  span : Span
deriving DecidableEq, Repr

namespace Qualident

/-- The name that is one identifier. -/
def ofIdent (i : Ident) : Qualident := ⟨i, [], i.span⟩

/-- The name with one more segment at its end. -/
def push (q : Qualident) (i : Ident) : Qualident := ⟨q.first, q.more ++ [i], q.span.join i.span⟩

/-- The name with these segments. -/
def ofIdents (first : Ident) (more : List Ident) : Qualident := more.foldl push (ofIdent first)

/-- All segments. -/
def parts (q : Qualident) : List Ident := q.first :: q.more

/-- The last segment: what is named. -/
def name (q : Qualident) : Ident := q.parts.getLast (List.cons_ne_nil _ _)

/-- The segments before the last one: where it is to be found. -/
def qualifier (q : Qualident) : List Ident := q.parts.dropLast

/-- Whether there is more than one segment. -/
def isQualified (q : Qualident) : Bool := !q.more.isEmpty

/-- The texts of the segments. -/
def path (q : Qualident) : List String := q.parts.map Ident.name

/-- The name as it is written, with points between its segments. -/
def text (q : Qualident) : String := ".".intercalate q.path

@[simp] theorem parts_push (q : Qualident) (i : Ident) : (q.push i).parts = q.parts ++ [i] := rfl

/-- Qualifier and name make up the segments. -/
theorem qualifier_append_name (q : Qualident) : q.qualifier ++ [q.name] = q.parts :=
  List.dropLast_concat_getLast _

end Qualident

/-! ## Lists of identifiers -/

/-- Identifiers in source order. -/
structure IdentList where
  first : Ident
  more : List Ident
  span : Span
deriving DecidableEq, Repr

namespace IdentList

/-- The list of one identifier. -/
def ofIdent (i : Ident) : IdentList := ⟨i, [], i.span⟩

/-- The list with one more identifier at its end. -/
def push (l : IdentList) (i : Ident) : IdentList := ⟨l.first, l.more ++ [i], l.span.join i.span⟩

/-- The list of these identifiers. -/
def ofIdents (first : Ident) (more : List Ident) : IdentList := more.foldl push (ofIdent first)

/-- All identifiers. -/
def idents (l : IdentList) : List Ident := l.first :: l.more

/-- How many identifiers there are. -/
def length (l : IdentList) : Nat := l.idents.length

/-- The texts of the identifiers. -/
def names (l : IdentList) : List String := l.idents.map Ident.name

@[simp] theorem idents_push (l : IdentList) (i : Ident) : (l.push i).idents = l.idents ++ [i] := rfl

end IdentList

end Modula

import Modula.Proofs.Grammar.Expr
import Modula.Proofs.Numbering
import Modula.Proofs.Reading.Name
import Modula.Proofs.Takes
/-!
# Expressions with their spans and ids

  The grammar of expressions once more, this time with everything that a parser puts into a tree.
  `Forms k ts part k'` says that the tokens `ts`, read while `k` is the next id, are a phrase of the
  grammar and form the part of an expression given, and that `k'` is the next id behind them.  Nothing
  about the part is left open: its spans are those of its tokens, and a node has the id that is the next
  one when all of its own parts are there.

  A part comes with its place in the grammar (`ExprPart`), so that there is one relation for all of them.
  Three of the places are those of the operands and results of operators; they are told by the level of
  the operator.
-/

namespace Modula

open Token.Kind (word symbol)

/-- A part of an expression, at its place in the grammar. -/
inductive ExprPart where
  | factor (e : Expr)
  | term (e : Expr)
  | signed (e : Expr)
  | simple (e : Expr)
  | whole (e : Expr)
  /-- One element of a set, or a label. -/
  | element (r : RangeItem)
  /-- All elements of a set. -/
  | elements (l : List RangeItem)

namespace Operator.Level

/-- The place of an operation. -/
def result : Level → Expr → ExprPart
  | .multiplicative => .term
  | .additive => .simple
  | .relational => .whole

/-- The place of a left operand. -/
def left : Level → Expr → ExprPart
  | .multiplicative => .term
  | .additive | .relational => .simple

/-- The place of a right operand. -/
def right : Level → Expr → ExprPart
  | .multiplicative => .factor
  | .additive => .term
  | .relational => .simple

end Operator.Level

/-- What a literal is. -/
inductive IsLiteral : Token.Kind → ExprKind → Prop
  | integer (literal : IntLiteral) : IsLiteral (.integer literal) (.integer literal)
  | real (text : String) : IsLiteral (.real text) (.real text)
  | string (content : String) : IsLiteral (.string content) (.string content)

/-- A literal is a token that can be read. -/
theorem IsLiteral.ne_eof {k : Token.Kind} {kind : ExprKind} (h : IsLiteral k kind) : k ≠ .eof := by
  cases h <;> nofun

/-- And it is a leaf of the tree. -/
theorem IsLiteral.children_eq_nil {k : Token.Kind} {kind : ExprKind} (h : IsLiteral k kind) :
    kind.children = [] := by
  cases h <;> rfl

/-! ## Names

  The grammar is told over tokens here, not over kinds, since spans are read off them. -/

/-- `{"." ident}` -/
inductive FormsSegments : List Token → List Ident → Prop
  | none : FormsSegments [] []
  | more {point t : Token} {ts : List Token} {text : String} {l : List Ident} :
    point.kind = symbol .period → t.kind = .name text → FormsSegments ts l →
      FormsSegments (point :: t :: ts) (⟨text, t.span⟩ :: l)

/-- `ident {"." ident}` -/
inductive FormsName : List Token → Qualident → Prop
  | parts {t : Token} {ts : List Token} {text : String} {l : List Ident} :
    t.kind = .name text → FormsSegments ts l → FormsName (t :: ts) (.ofIdents ⟨text, t.span⟩ l)

/-! ## Expressions

  A part of an expression is formed by its tokens between two ids: the one that is next when it begins,
  and the one that is next when it is complete. -/

/-- From the beginning of the first token to the end of the last one. -/
def extent (ts : List Token) : Span := ⟨(startOf? ts).getD 0, (stopOf? ts).getD 0⟩

/-- The tokens, read while the first number is the next id, form the part; the second number is the next
id then. -/
inductive Forms : Nat → List Token → ExprPart → Nat → Prop
  | literal {k : Nat} {t : Token} {kind : ExprKind} :
    IsLiteral t.kind kind → Forms k [t] (.factor ⟨k, kind, extent [t]⟩) (k + 1)
  | designator {k : Nat} {ts : List Token} {name : Qualident} :
    FormsName ts name → Forms k ts (.factor ⟨k, .designator name, extent ts⟩) (k + 1)
  | set {k k' : Nat} {opener closer : Token} {ts : List Token} {l : List RangeItem} :
    opener.kind = symbol .openBrace → Forms k ts (.elements l) k' → closer.kind = symbol .closeBrace →
      Forms k (opener :: (ts ++ [closer]))
        (.factor ⟨k', .set none l, extent (opener :: (ts ++ [closer]))⟩) (k' + 1)
  | typedSet {k k' : Nat} {opener closer : Token} {u ts : List Token} {base : Qualident}
      {l : List RangeItem} :
    FormsName u base → opener.kind = symbol .openBrace → Forms k ts (.elements l) k' →
      closer.kind = symbol .closeBrace →
      Forms k (u ++ opener :: (ts ++ [closer]))
        (.factor ⟨k', .set (some base) l, extent (u ++ opener :: (ts ++ [closer]))⟩) (k' + 1)
  | parentheses {k k' : Nat} {opener closer : Token} {ts : List Token} {e : Expr} :
    opener.kind = symbol .openParen → Forms k ts (.whole e) k' → closer.kind = symbol .closeParen →
      Forms k (opener :: (ts ++ [closer]))
        (.factor { e with span := extent (opener :: (ts ++ [closer])) }) k'
  | not {k k' : Nat} {t : Token} {ts : List Token} {e : Expr} :
    t.kind = word .NOT → Forms k ts (.factor e) k' →
      Forms k (t :: ts) (.factor ⟨k', .not e, extent (t :: ts)⟩) (k' + 1)
  | ofFactor {k k' : Nat} {ts : List Token} {e : Expr} :
    Forms k ts (.factor e) k' → Forms k ts (.term e) k'
  | ofTerm {k k' : Nat} {ts : List Token} {e : Expr} :
    Forms k ts (.term e) k' → Forms k ts (.signed e) k'
  | sign {k k' : Nat} {t : Token} {ts : List Token} {s : Sign} {e : Expr} :
    Sign.ofKind? t.kind = some s → Forms k ts (.term e) k' →
      Forms k (t :: ts) (.signed ⟨k', .signed s e, ⟨t.span.start, e.span.stop⟩⟩) (k' + 1)
  | ofSigned {k k' : Nat} {ts : List Token} {e : Expr} :
    Forms k ts (.signed e) k' → Forms k ts (.simple e) k'
  | ofSimple {k k' : Nat} {ts : List Token} {e : Expr} :
    Forms k ts (.simple e) k' → Forms k ts (.whole e) k'
  | operation {level : Operator.Level} {k k₁ k₂ : Nat} {u v : List Token} {t : Token} {op : Operator}
      {lhs rhs : Expr} :
    Forms k u (level.left lhs) k₁ → Operator.ofKindAt? level t.kind = some op →
      Forms k₁ v (level.right rhs) k₂ →
      Forms k (u ++ t :: v)
        (level.result ⟨k₂, .binary op t.span lhs rhs, ⟨lhs.span.start, rhs.span.stop⟩⟩) (k₂ + 1)
  | one {k k' : Nat} {ts : List Token} {e : Expr} :
    Forms k ts (.whole e) k' → Forms k ts (.element ⟨e, none, e.span⟩) k'
  | range {k k₁ k₂ : Nat} {u v : List Token} {t : Token} {low high : Expr} :
    Forms k u (.whole low) k₁ → t.kind = symbol .ellipsis → Forms k₁ v (.whole high) k₂ →
      Forms k (u ++ t :: v) (.element ⟨low, some high, low.span.join high.span⟩) k₂
  | none {k : Nat} : Forms k [] (.elements []) k
  | last {k k' : Nat} {ts : List Token} {r : RangeItem} :
    Forms k ts (.element r) k' → Forms k ts (.elements [r]) k'
  | more {k k₁ k₂ : Nat} {u v : List Token} {t : Token} {r r' : RangeItem} {l : List RangeItem} :
    Forms k u (.element r) k₁ → t.kind = symbol .comma → Forms k₁ v (.elements (r' :: l)) k₂ →
      Forms k (u ++ t :: v) (.elements (r :: r' :: l)) k₂

/-! ## Spans

  The span of a part is not said for each case.  It is the extent of its tokens, whatever the case. -/

section

variable {k k' : Nat} {ts u v m : List Token} {t : Token} {part : ExprPart} {e : Expr}

/-- The extent of two parts with others between them, from the first to the second one. -/
theorem extent_append (hu : u ≠ []) (hv : v ≠ []) :
    extent (u ++ (m ++ v)) = ⟨(extent u).start, (extent v).stop⟩ := by
  obtain ⟨first, more, rfl⟩ := List.exists_cons_of_ne_nil hu
  obtain ⟨n, hn⟩ := exists_stopOf? hv
  have hstop : stopOf? (first :: more ++ (m ++ v)) = some n := stopOf?_append (stopOf?_append hn)
  rw [extent, extent, extent, hstop, hn]
  rfl

/-- Tokens that are there cover their extent. -/
theorem covers_extent (h : ts ≠ []) : Covers ts (extent ts) := by
  obtain ⟨first, more, rfl⟩ := List.exists_cons_of_ne_nil h
  obtain ⟨n, hn⟩ := exists_stopOf? h
  intro _
  refine ⟨rfl, ?_⟩
  rw [extent, hn]
  rfl

/-- A phrase reaches from the token at the cursor to the one that was read last. -/
theorem Cursor.Takes.extent_eq {c d : Cursor} (h : c.Takes ts d) (hne : ts ≠ []) :
    Span.mk c.token.span.start d.lastEnd = extent ts := by
  obtain ⟨t, more, rfl⟩ := List.exists_cons_of_ne_nil hne
  obtain ⟨n, hn⟩ := exists_stopOf? hne
  rw [h.token_eq, h.2, extent, hn]
  rfl

/-- A name has at least its first segment. -/
theorem FormsName.ne_nil {q : Qualident} (h : FormsName ts q) : ts ≠ [] := by
  cases h
  exact List.cons_ne_nil _ _

/-- And it begins with one. -/
theorem FormsName.kind_of_rest {q : Qualident} {c : Cursor} {rest : List Token} (h : FormsName ts q)
    (hc : c.rest = ts ++ rest) : ∃ text, c.kind = .name text := by
  cases h with
  | parts hname _ => exact ⟨_, (Cursor.kind_of_rest hc).trans hname⟩

/-- An expression reaches over its tokens, of which there are some. -/
def ExprPart.Spans (ts : List Token) : ExprPart → Prop
  | .factor e | .term e | .signed e | .simple e | .whole e => ts ≠ [] ∧ e.span = extent ts
  | .element _ => ts ≠ []
  | .elements _ => True

/-- By induction on what forms the part: an expression has the extent of its tokens for a span, but for
the parts of an operation, which are told by their own spans. -/
theorem Forms.spans (h : Forms k ts part k') : part.Spans ts := by
  induction h with
  | literal _ => exact ⟨List.cons_ne_nil _ _, rfl⟩
  | designator hname => exact ⟨hname.ne_nil, rfl⟩
  | set _ _ _ _ => exact ⟨List.cons_ne_nil _ _, rfl⟩
  | typedSet hname _ _ _ _ => exact ⟨List.append_ne_nil_of_left_ne_nil hname.ne_nil _, rfl⟩
  | parentheses _ _ _ _ => exact ⟨List.cons_ne_nil _ _, rfl⟩
  | not _ _ _ => exact ⟨List.cons_ne_nil _ _, rfl⟩
  | ofFactor _ ih => exact ih
  | ofTerm _ ih => exact ih
  | @sign _ _ t ts _ e _ _ ih =>
    obtain ⟨hne, hspan⟩ := ih
    have hall : extent ([t] ++ ([] ++ ts)) = ⟨t.span.start, (extent ts).stop⟩ :=
      extent_append (List.cons_ne_nil _ _) hne
    exact ⟨List.cons_ne_nil _ _, by rw [hspan]; exact hall.symm⟩
  | ofSigned _ ih => exact ih
  | ofSimple _ ih => exact ih
  | @operation level _ _ _ u v t _ lhs rhs _ _ _ ihl ihr =>
    have hl : u ≠ [] ∧ lhs.span = extent u := by cases level <;> exact ihl
    have hr : v ≠ [] ∧ rhs.span = extent v := by cases level <;> exact ihr
    have hall : extent (u ++ ([t] ++ v)) = ⟨(extent u).start, (extent v).stop⟩ :=
      extent_append hl.1 hr.1
    rw [← hl.2, ← hr.2] at hall
    cases level <;> exact ⟨List.append_ne_nil_of_left_ne_nil hl.1 _, hall.symm⟩
  | one _ ih => exact ih.1
  | range _ _ _ ih _ => exact List.append_ne_nil_of_left_ne_nil ih.1 _
  | none => trivial
  | last _ _ => trivial
  | more _ _ _ _ _ => trivial

end

/-! ## The bare grammar

  Without ids and spans it is the grammar of expressions as it was stated before. -/

/-- What forms segments is a sentence of them. -/
theorem FormsSegments.grammar {ts : List Token} {l : List Ident} (h : FormsSegments ts l) :
    Further (symbol .period) IsIdent (ts.map Token.kind) (l.map (Ident.relabel .forget)) := by
  induction h with
  | none => exact Or.inl ⟨rfl, rfl⟩
  | @more point t ts text l hpoint hname _ ih =>
    rw [List.map_cons, List.map_cons, hpoint, hname]
    refine Or.inr ⟨_, rfl, ?_⟩
    exact separated_cons_iff.2 ⟨[.name text], _, rfl, .name text, ih⟩

/-- What forms a name is a name of the grammar. -/
theorem FormsName.grammar {ts : List Token} {q : Qualident} (h : FormsName ts q) :
    IsQualident (ts.map Token.kind) (q.relabel .forget) := by
  cases h with
  | @parts t ts text l hname hl =>
    rw [Qualident.relabel_ofIdents, List.map_cons, hname]
    exact .parts (separated_cons_iff.2 ⟨[.name text], _, rfl, .name text, hl.grammar⟩)

/-- Elements of which there is one are separated by commas. -/
theorem IsElements.separated {w : List Token.Kind} {r : RangeItem} {l : List RangeItem}
    (h : IsElements w (r :: l)) : Separated (symbol .comma) IsElement w (r :: l) := by
  cases h with
  | some h => exact h

/-- The part is one of the grammar, without its ids and spans. -/
def ExprPart.IsBare (w : List Token.Kind) : ExprPart → Prop
  | .factor e => IsFactor w (e.relabel .forget)
  | .term e => IsTerm w (e.relabel .forget)
  | .signed e => IsSigned w (e.relabel .forget)
  | .simple e => IsSimple w (e.relabel .forget)
  | .whole e => IsExpr w (e.relabel .forget)
  | .element r => IsElement w (r.relabel .forget)
  | .elements l => IsElements w (l.map (RangeItem.relabel .forget))

/-- By induction on what forms the part, rule by rule: without ids and spans it is a sentence of the
grammar. -/
theorem Forms.grammar {k k' : Nat} {ts : List Token} {part : ExprPart} (h : Forms k ts part k') :
    part.IsBare (ts.map Token.kind) := by
  induction h with
  | @literal _ t _ hkind =>
    rw [List.map_singleton]
    generalize t.kind = q at hkind
    cases hkind with
    | integer literal => exact .integer literal
    | real text => exact .real text
    | string content => exact .string content
  | designator hname => exact .designator hname.grammar
  | set ho _ hc ih =>
    rw [List.map_cons, List.map_append, List.map_singleton, ho, hc, ExprPart.IsBare, Expr.relabel,
      ExprKind.relabel, RangeItem.relabelAll_eq_map]
    exact .set ih
  | typedSet hname ho _ hc ih =>
    rw [List.map_append, List.map_cons, List.map_append, List.map_singleton, ho, hc, ExprPart.IsBare,
      Expr.relabel, ExprKind.relabel, RangeItem.relabelAll_eq_map]
    exact .typedSet hname.grammar ih
  | @parentheses _ _ _ _ _ e ho _ hc ih =>
    obtain ⟨id, kind, span⟩ := e
    rw [List.map_cons, List.map_append, List.map_singleton, ho, hc]
    exact .parentheses ih
  | not ht _ ih =>
    rw [List.map_cons, ht]
    exact .not ih
  | ofFactor _ ih => exact IsFactor.isTerm ih
  | ofTerm _ ih => exact .unsigned ih
  | sign ht _ ih => exact .signed ht ih
  | ofSigned _ ih => exact .operands (.first ih)
  | ofSimple _ ih => exact .simple ih
  | @operation level _ _ _ _ _ _ _ _ _ _ hop _ ihl ihr =>
    rw [List.map_append, List.map_cons]
    cases level with
    | multiplicative =>
      obtain ⟨hl⟩ := ihl
      exact .operands (.operation hl hop ihr)
    | additive =>
      obtain ⟨hl⟩ := ihl
      exact .operands (.operation hl hop ihr)
    | relational => exact .relation ihl hop ihr
  | one _ ih => exact .one ih
  | range _ ht _ ihl ihr =>
    rw [List.map_append, List.map_cons, ht]
    exact .range ihl ihr
  | none => exact .none
  | last _ ih => exact .some (.one ih)
  | more _ ht _ ihr ihl =>
    rw [List.map_append, List.map_cons, ht]
    exact .some (.more ihr (IsElements.separated ihl))

/-! ## Ids

  The two ids are the ends of the stretch that the part is numbered with. -/

/-- The ids of a part. -/
def ExprPart.ids : ExprPart → List Nat
  | .factor e | .term e | .signed e | .simple e | .whole e => e.ids
  | .element r => r.ids
  | .elements l => l.flatMap RangeItem.ids

/-- The ids of a part are those that are drawn for it. -/
theorem Forms.consecutive {k k' : Nat} {ts : List Token} {part : ExprPart}
    (h : Forms k ts part k') : Consecutive k part.ids k' := by
  induction h with
  | literal hkind =>
    rw [ExprPart.ids, Expr.ids, Node.ids_expr, hkind.children_eq_nil]
    exact .one _
  | designator _ =>
    rw [ExprPart.ids, Expr.ids, Node.ids_expr, ExprKind.children, List.flatMap_singleton,
      Node.ids_qualident]
    exact .one _
  | set _ _ _ ih =>
    rw [ExprPart.ids, Expr.ids_set]
    exact ih.append (.one _)
  | typedSet _ _ _ _ ih =>
    rw [ExprPart.ids, Expr.ids_set]
    exact ih.append (.one _)
  | parentheses _ _ _ ih =>
    rw [ExprPart.ids, Expr.ids_widened]
    exact ih
  | not _ _ ih =>
    rw [ExprPart.ids, Expr.ids_not]
    exact ih.append (.one _)
  | ofFactor _ ih => exact ih
  | ofTerm _ ih => exact ih
  | sign _ _ ih =>
    rw [ExprPart.ids, Expr.ids_signed]
    exact ih.append (.one _)
  | ofSigned _ ih => exact ih
  | ofSimple _ ih => exact ih
  | @operation level k k₁ k₂ u v t op lhs rhs _ _ _ ihl ihr =>
    have hl : Consecutive k lhs.ids k₁ := by cases level <;> exact ihl
    have hr : Consecutive k₁ rhs.ids k₂ := by cases level <;> exact ihr
    have hall := (hl.append hr).append (.one k₂)
    rw [← Expr.ids_binary k₂ op t.span ⟨lhs.span.start, rhs.span.stop⟩] at hall
    cases level <;> exact hall
  | one _ ih =>
    rw [ExprPart.ids, RangeItem.ids_eq, Option.toList_none, List.flatMap_nil, List.append_nil]
    exact ih
  | range _ _ _ ihl ihr =>
    rw [ExprPart.ids, RangeItem.ids_eq, Option.toList_some, List.flatMap_singleton]
    exact ihl.append ihr
  | none => exact .nil _
  | last _ ih =>
    rw [ExprPart.ids, List.flatMap_singleton]
    exact ih
  | more _ _ _ ihr ihl => exact ihr.append ihl

/-- Ids are only ever drawn. -/
theorem Forms.le {k k' : Nat} {ts : List Token} {part : ExprPart} (h : Forms k ts part k') :
    k ≤ k' := by
  rw [h.consecutive.next_eq]
  exact Nat.le_add_right _ _

end Modula

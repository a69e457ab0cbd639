import Mathlib.Data.List.Forall2
import Mathlib.Order.MinMax
import Modula.Proofs.Forms.Reading
/-!
# Expressions that are moved

  The same tokens at other places of a source form the same expression, with its spans moved like the
  tokens and its ids counted from another number on (`Forms.moved`).  Where an expression is read, what
  its tokens form is determined by them (`Forms.unique`).
-/

namespace Modula

open Token.Kind (word symbol)

/-- The ids from the number on are counted from another number on, and the ends of spans are moved in
order. -/
structure Relabeling.Moves (r : Relabeling) (k : Nat) (point : Nat → Nat) : Prop where
  id_succ : ∀ n, k ≤ n → r.id (n + 1) = r.id n + 1
  span_eq : ∀ s, r.span s = ⟨point s.start, point s.stop⟩
  mono : Monotone point

/-- Tokens that were moved can be divided where the tokens were. -/
theorem forall₂_append_left {α β : Type} {R : α → β → Prop} {u v : List α} {l : List β}
    (h : List.Forall₂ R (u ++ v) l) :
    ∃ u' v', l = u' ++ v' ∧ List.Forall₂ R u u' ∧ List.Forall₂ R v v' := by
  induction u generalizing l with
  | nil => exact ⟨[], l, rfl, .nil, h⟩
  | cons a u ih =>
    cases h with
    | cons ha h =>
      obtain ⟨u', v', rfl, hu, hv⟩ := ih h
      exact ⟨_ :: u', v', rfl, .cons ha hu, hv⟩

/-- A part with other ids and spans. -/
def ExprPart.relabel (r : Relabeling) : ExprPart → ExprPart
  | .factor e => .factor (e.relabel r)
  | .term e => .term (e.relabel r)
  | .signed e => .signed (e.relabel r)
  | .simple e => .simple (e.relabel r)
  | .whole e => .whole (e.relabel r)
  | .element i => .element (i.relabel r)
  | .elements l => .elements (l.map (RangeItem.relabel r))

/-- A literal has neither ids nor spans within. -/
theorem IsLiteral.relabel {r : Relabeling} {q : Token.Kind} {kind : ExprKind} (h : IsLiteral q kind) :
    kind.relabel r = kind := by
  cases h <;> rfl

section

variable {r : Relabeling} {k : Nat} {point : Nat → Nat} {ts ts' : List Token}

/-- What moves ids from some number on moves them from any later one. -/
theorem Relabeling.Moves.of_le {k' : Nat} (hr : r.Moves k point) (h : k ≤ k') : r.Moves k' point :=
  ⟨fun n hn => hr.id_succ n (h.trans hn), hr.span_eq, hr.mono⟩

/-- Places that are moved keep their order, and so joins are moved. -/
theorem Relabeling.Moves.span_join (hr : r.Moves k point) (a b : Span) :
    r.span (a.join b) = (r.span a).join (r.span b) := by
  rw [hr.span_eq, hr.span_eq, hr.span_eq, Span.join, Span.join, Span.mk.injEq]
  exact ⟨hr.mono.map_min, hr.mono.map_max⟩

/-- The extent of moved tokens is the extent moved, if there are tokens. -/
theorem extent_moved (hr : r.Moves k point) (hts : List.Forall₂ (Token.MovedBy r) ts ts')
    (hne : ts ≠ []) : extent ts' = r.span (extent ts) := by
  have hstart : startOf? ts' = (startOf? ts).map point := by
    cases hts with
    | nil => rfl
    | cons h _ => exact congrArg some ((congrArg Span.start h.2).trans (by rw [hr.span_eq]))
  have hstop : ∀ {us us' : List Token}, List.Forall₂ (Token.MovedBy r) us us' →
      stopOf? us' = (stopOf? us).map point := by
    intro us us' h
    induction h with
    | nil => rfl
    | cons ht hus ih =>
      cases hus with
      | nil => exact congrArg some ((congrArg Span.stop ht.2).trans (by rw [hr.span_eq]; rfl))
      | cons => exact ih
  obtain ⟨t, more, rfl⟩ := List.exists_cons_of_ne_nil hne
  obtain ⟨n, hn⟩ := exists_stopOf? hne
  rw [extent, extent, hstart, hstop hts, hn, hr.span_eq]
  rfl

/-- Segments of a name are moved one by one. -/
theorem FormsSegments.moved {l : List Ident} (h : FormsSegments ts l)
    (hts : List.Forall₂ (Token.MovedBy r) ts ts') : FormsSegments ts' (l.map (Ident.relabel r)) := by
  induction h generalizing ts' with
  | none =>
    cases hts
    exact .none
  | more hpoint hname _ ih =>
    cases hts with
    | cons hp hts =>
      cases hts with
      | cons ht hts =>
        rw [List.map_cons, Ident.relabel, ← ht.2]
        exact .more (hp.1.trans hpoint) (ht.1.trans hname) (ih hts)

/-- Moved tokens form the moved name. -/
theorem FormsName.moved {q : Qualident} (hr : r.Moves k point) (h : FormsName ts q)
    (hts : List.Forall₂ (Token.MovedBy r) ts ts') : FormsName ts' (q.relabel r) := by
  cases h with
  | parts hname hl =>
    cases hts with
    | cons ht hts =>
      rw [Qualident.relabel_ofIdents_of_join hr.span_join, Ident.relabel, ← ht.2]
      exact .parts (ht.1.trans hname) (hl.moved hts)

/-- Whatever a level takes on its left is moved as an expression. -/
theorem Operator.Level.relabel_left (level : Operator.Level) (e : Expr) :
    (level.left e).relabel r = level.left (e.relabel r) := by
  cases level <;> rfl

theorem Operator.Level.relabel_right (level : Operator.Level) (e : Expr) :
    (level.right e).relabel r = level.right (e.relabel r) := by
  cases level <;> rfl

theorem Operator.Level.relabel_result (level : Operator.Level) (e : Expr) :
    (level.result e).relabel r = level.result (e.relabel r) := by
  cases level <;> rfl

/-- Brackets and what is between them, at another place. -/
theorem bracketed_moved {opener closer : Token} {ts' : List Token}
    (hts : List.Forall₂ (Token.MovedBy r) (opener :: (ts ++ [closer])) ts') :
    ∃ opener' mid closer', ts' = opener' :: (mid ++ [closer']) ∧ opener'.kind = opener.kind ∧
      List.Forall₂ (Token.MovedBy r) ts mid ∧ closer'.kind = closer.kind := by
  cases hts with
  | cons ho hts =>
    obtain ⟨mid, last, rfl, hmid, hlast⟩ := forall₂_append_left hts
    cases hlast with
    | cons hc hnil =>
      cases hnil
      exact ⟨_, mid, _, rfl, ho.1, hmid, hc.1⟩

/-- The same tokens at other places form the same part. -/
theorem Forms.moved {part : ExprPart} {k' : Nat} (h : Forms k ts part k') :
    ∀ {ts' : List Token}, r.Moves k point → List.Forall₂ (Token.MovedBy r) ts ts' →
      Forms (r.id k) ts' (part.relabel r) (r.id k') := by
  induction h with
  | @literal k t kind hkind =>
    intro ts' hr hts
    rw [hr.id_succ k le_rfl, ExprPart.relabel, Expr.relabel, hkind.relabel,
      ← extent_moved hr hts (List.cons_ne_nil _ _)]
    cases hts with
    | cons ht hnil =>
      cases hnil
      exact .literal (ht.1 ▸ hkind)
  | @designator k ts name hname =>
    intro ts' hr hts
    rw [hr.id_succ k le_rfl, ExprPart.relabel, Expr.relabel, ExprKind.relabel,
      ← extent_moved hr hts hname.ne_nil]
    exact .designator (hname.moved hr hts)
  | set ho hl hc ih =>
    intro ts' hr hts
    rw [hr.id_succ _ hl.le, ExprPart.relabel, Expr.relabel, ExprKind.relabel, Option.map_none,
      RangeItem.relabelAll_eq_map, ← extent_moved hr hts (List.cons_ne_nil _ _)]
    obtain ⟨opener', mid, closer', rfl, ho', hmid, hc'⟩ := bracketed_moved hts
    exact .set (ho'.trans ho) (ih hr hmid) (hc'.trans hc)
  | typedSet hname ho hl hc ih =>
    intro ts' hr hts
    rw [hr.id_succ _ hl.le, ExprPart.relabel, Expr.relabel, ExprKind.relabel, Option.map_some,
      RangeItem.relabelAll_eq_map,
      ← extent_moved hr hts (List.append_ne_nil_of_left_ne_nil hname.ne_nil _)]
    obtain ⟨u', rest, rfl, hu, hrest⟩ := forall₂_append_left hts
    obtain ⟨opener', mid, closer', rfl, ho', hmid, hc'⟩ := bracketed_moved hrest
    exact .typedSet (hname.moved hr hu) (ho'.trans ho) (ih hr hmid) (hc'.trans hc)
  | @parentheses _ _ _ _ _ e ho _ hc ih =>
    intro ts' hr hts
    have hspan := extent_moved hr hts (List.cons_ne_nil _ _)
    obtain ⟨opener', mid, closer', rfl, ho', hmid, hc'⟩ := bracketed_moved hts
    obtain ⟨id, kind, span⟩ := e
    rw [ExprPart.relabel, Expr.relabel, ← hspan]
    exact .parentheses (ho'.trans ho) (ih hr hmid) (hc'.trans hc)
  | not ht he ih =>
    intro ts' hr hts
    rw [hr.id_succ _ he.le, ExprPart.relabel, Expr.relabel, ExprKind.relabel,
      ← extent_moved hr hts (List.cons_ne_nil _ _)]
    cases hts with
    | cons ht' hts => exact .not (ht'.1.trans ht) (ih hr hts)
  | ofFactor _ ih => exact fun hr hts => .ofFactor (ih hr hts)
  | ofTerm _ ih => exact fun hr hts => .ofTerm (ih hr hts)
  | @sign _ _ t ts _ e ht he ih =>
    intro ts' hr hts
    rw [hr.id_succ _ he.le, ExprPart.relabel, Expr.relabel, ExprKind.relabel, hr.span_eq]
    cases hts with
    | cons ht' hts =>
      have hall := Forms.sign (ht'.1 ▸ ht) (ih hr hts)
      rwa [ht'.2, Expr.relabel_span, hr.span_eq, hr.span_eq] at hall
  | ofSigned _ ih => exact fun hr hts => .ofSigned (ih hr hts)
  | ofSimple _ ih => exact fun hr hts => .ofSimple (ih hr hts)
  | @operation level k k₁ k₂ u v t op lhs rhs hl hop hr₂ ihl ihr =>
    intro ts' hr hts
    obtain ⟨u', rest, rfl, hu, hrest⟩ := forall₂_append_left hts
    rw [hr.id_succ _ (hl.le.trans hr₂.le)]
    cases hrest with
    | cons ht' hv =>
      have hl' := ihl hr hu
      have hr' := ihr (hr.of_le hl.le) hv
      rw [Operator.Level.relabel_left] at hl'
      rw [Operator.Level.relabel_right] at hr'
      have hall := Forms.operation hl' (ht'.1 ▸ hop) hr'
      rw [Expr.relabel_span, Expr.relabel_span, hr.span_eq, hr.span_eq] at hall
      rw [Operator.Level.relabel_result, Expr.relabel, ExprKind.relabel, ← ht'.2, hr.span_eq]
      exact hall
  | one _ ih =>
    intro ts' hr hts
    have hall := Forms.one (ih hr hts)
    rwa [Expr.relabel_span] at hall
  | @range _ _ _ _ _ _ low high hl ht _ ihl ihr =>
    intro ts' hr hts
    obtain ⟨u', rest, rfl, hu, hrest⟩ := forall₂_append_left hts
    cases hrest with
    | cons ht' hv =>
      have hall := Forms.range (ihl hr hu) (ht'.1.trans ht) (ihr (hr.of_le hl.le) hv)
      rwa [Expr.relabel_span, Expr.relabel_span, ← hr.span_join] at hall
  | none =>
    intro ts' hr hts
    cases hts
    exact .none
  | last _ ih => exact fun hr hts => .last (ih hr hts)
  | more hr₁ ht _ ihr ihl =>
    intro ts' hr hts
    obtain ⟨u', rest, rfl, hu, hrest⟩ := forall₂_append_left hts
    cases hrest with
    | cons ht' hv =>
      exact .more (ihr hr hu) (ht'.1.trans ht) (ihl (hr.of_le hr₁.le) hv)

end

end Modula

import Modula.Proofs.Forms.Building
import Modula.Proofs.Layout
/-!
# Where names and expressions lie

  The spans of names are joined from those of their identifiers.  The span of an expression is that of
  the tokens that form it (`Forms.spans`), so what is left to say is where its parts lie (`Forms.lies`).
-/

namespace Modula

variable {foot : Token}

/-! ## Names -/

/-- The span of a name is joined from left to right. -/
theorem Qualident.span_ofIdents (i : Ident) (l : List Ident) :
    (Qualident.ofIdents i l).span = l.foldl (fun s j => s.join j.span) i.span :=
  (List.foldl_hom Qualident.span fun _ _ => rfl).symm

theorem Qualident.parts_ofIdents (i : Ident) (l : List Ident) :
    (Qualident.ofIdents i l).parts = i :: l := by
  have hpush : ∀ q : Qualident, (l.foldl Qualident.push q).parts = q.parts ++ l := by
    induction l with
    | nil => exact fun q => (List.append_nil _).symm
    | cons j l ih =>
      intro q
      rw [List.foldl_cons, ih, Qualident.parts_push, List.append_assoc, List.singleton_append]
  exact hpush (.ofIdent i)

theorem IdentList.span_ofIdents (i : Ident) (l : List Ident) :
    (IdentList.ofIdents i l).span = l.foldl (fun s j => s.join j.span) i.span :=
  (List.foldl_hom IdentList.span fun _ _ => rfl).symm

theorem IdentList.idents_ofIdents (i : Ident) (l : List Ident) :
    (IdentList.ofIdents i l).idents = i :: l := by
  have hpush : ∀ q : IdentList, (l.foldl IdentList.push q).idents = q.idents ++ l := by
    induction l with
    | nil => exact fun q => (List.append_nil _).symm
    | cons j l ih =>
      intro q
      rw [List.foldl_cons, ih, IdentList.idents_push, List.append_assoc, List.singleton_append]
  exact hpush (.ofIdent i)

section

variable {ts : List Token} {i : Ident} {l : List Ident}
  (h : Joined (LiesAs foot .ident) ts (i :: l))

include h

/-- Identifiers with separators between them: what is joined is the stretch from the first to the last.
-/
theorem Joined.covers_idents : Covers ts (l.foldl (fun s j => s.join j.span) i.span) :=
  (h.mono fun _ _ hi => hi.covers nofun).covers

theorem Joined.ne_nil_idents : ts ≠ [] := h.ne_nil fun _ hi => hi.ne_nil rfl

/-- A qualified name lies on its segments and the periods between them. -/
theorem Joined.qualident : Lies foot ts (.qualident (.ofIdents i l)) := by
  refine .node h.ne_nil_idents ?_ trivial ?_
  · show Covers ts (Qualident.ofIdents i l).span
    rw [Qualident.span_ofIdents]
    exact h.covers_idents
  · show LieInOrder foot ts ((Qualident.ofIdents i l).parts.map .ident)
    rw [Qualident.parts_ofIdents]
    exact h.lieInOrder

/-- And a list of identifiers on these and the commas. -/
theorem Joined.identList : Lies foot ts (.identList (.ofIdents i l)) := by
  refine .node h.ne_nil_idents ?_ trivial ?_
  · show Covers ts (IdentList.ofIdents i l).span
    rw [IdentList.span_ofIdents]
    exact h.covers_idents
  · show LieInOrder foot ts ((IdentList.ofIdents i l).idents.map .ident)
    rw [IdentList.idents_ofIdents]
    exact h.lieInOrder

end

namespace Parser

open Token.Kind (word symbol)

variable (foot : Token)

theorem identList_lays : identList.Lays (LiesAs foot .identList) := by
  intro construct c l c' h
  obtain ⟨⟨first, more⟩, c₁, h₁, h₂⟩ := bind_eq_ok.1 h
  cases h₂
  obtain ⟨ts, hts, hl⟩ := sepBy_lays (by nofun) (ident_lays foot) h₁
  exact ⟨ts, hts, hl.identList⟩

end Parser

/-- The identifiers behind a first one lie behind it. -/
theorem FormsSegments.joined {u ts : List Token} {i : Ident} {l : List Ident} (h : FormsSegments ts l)
    (hu : LiesAs foot .ident u i) : Joined (LiesAs foot .ident) (u ++ ts) (i :: l) := by
  induction h generalizing u i with
  | none =>
    rw [List.append_nil]
    exact .one hu
  | more _ hname _ ih => exact .more hu (ih (.ofName hname rfl))

/-- A name that is formed lies where it was formed. -/
theorem FormsName.lies {ts : List Token} {q : Qualident} (h : FormsName ts q) :
    Lies foot ts (.qualident q) := by
  cases h with
  | parts hname hl => exact (hl.joined (.ofName hname rfl)).qualident

theorem Parser.qualident_lays (foot : Token) : qualident.Lays (LiesAs foot .qualident) :=
  qualident_lays_forms.mono fun _ _ h => h.lies

/-! ## Expressions -/

/-- An expression lies on these tokens. -/
abbrev ExprLies (foot : Token) : List Token → Expr → Prop := LiesAs foot .expr

/-- A range item lies on these tokens, as an element or as a label. -/
def RangeLies (foot : Token) (ts : List Token) (r : RangeItem) : Prop :=
  ts ≠ [] ∧ Covers ts r.span ∧ LieInOrder foot ts r.children

/-- As an element of a set, a range item lies on what it covers. -/
theorem RangeLies.element {ts : List Token} {r : RangeItem} (h : RangeLies foot ts r) :
    Lies foot ts (.element r) := .node h.1 h.2.1 trivial h.2.2

/-- And as a label. -/
theorem RangeLies.caseLabel {ts : List Token} {r : RangeItem} (h : RangeLies foot ts r) :
    Lies foot ts (.caseLabel r) := .node h.1 h.2.1 trivial h.2.2

/-- The part lies on these tokens. -/
def ExprPart.LiesOn (foot : Token) (ts : List Token) : ExprPart → Prop
  | .factor e | .term e | .signed e | .simple e | .whole e => ExprLies foot ts e
  | .element r => RangeLies foot ts r
  | .elements l => LieInOrder foot ts (l.map .element)

section

variable {k k' : Nat} {ts : List Token} {e : Expr}

/-- A term is an expression by itself. -/
theorem Forms.whole_of_term (h : Forms k ts (.term e) k') : Forms k ts (.whole e) k' :=
  .ofSimple (.ofSigned (.ofTerm h))

theorem Forms.whole_of_factor (h : Forms k ts (.factor e) k') : Forms k ts (.whole e) k' :=
  .whole_of_term (.ofFactor h)

theorem Forms.whole_of_result {level : Operator.Level} (h : Forms k ts (level.result e) k') :
    Forms k ts (.whole e) k' := by
  cases level with
  | multiplicative => exact .whole_of_term h
  | additive => exact .ofSimple h
  | relational => exact h

/-- An expression lies on the tokens that form it, if its parts do. -/
theorem Forms.lies_of_children (h : Forms k ts (.whole e) k')
    (hchildren : LieInOrder foot ts e.kind.children) : ExprLies foot ts e := by
  obtain ⟨hne, hspan⟩ := h.spans
  have hcovers : Covers ts e.span := hspan ▸ covers_extent hne
  exact .node hne hcovers ⟨k, k', h⟩ hchildren

end

/-- By induction on what forms the part: the parts of a part lie on stretches of its tokens, one behind
the other. -/
theorem Forms.lies {k k' : Nat} {ts : List Token} {part : ExprPart} (h : Forms k ts part k') :
    part.LiesOn foot ts := by
  induction h with
  | literal hkind =>
    refine (Forms.whole_of_factor (.literal hkind)).lies_of_children ?_
    rw [hkind.children_eq_nil]
    exact .nil
  | designator hname =>
    exact (Forms.whole_of_factor (.designator hname)).lies_of_children (.one hname.lies)
  | @set _ _ opener closer _ _ ho hl hc ih =>
    refine (Forms.whole_of_factor (.set ho hl hc)).lies_of_children ?_
    exact (ih.skip_right [closer]).skip_left [opener]
  | @typedSet _ _ opener closer _ _ _ _ hname ho hl hc ih =>
    refine (Forms.whole_of_factor (.typedSet hname ho hl hc)).lies_of_children ?_
    exact (LieInOrder.one hname.lies).append ((ih.skip_right [closer]).skip_left [opener])
  | @parentheses _ _ opener closer _ e ho he hc ih =>
    refine (Forms.whole_of_factor (.parentheses ho he hc)).lies_of_children ?_
    cases ih with
    | node _ _ _ hchildren => exact (hchildren.skip_right [closer]).skip_left [opener]
  | @not _ _ t _ _ ht he ih =>
    refine (Forms.whole_of_factor (.not ht he)).lies_of_children ?_
    exact (LieInOrder.one ih).skip_left [t]
  | ofFactor _ ih => exact ih
  | ofTerm _ ih => exact ih
  | @sign _ _ t _ _ _ ht he ih =>
    refine (Forms.ofSimple (.ofSigned (.sign ht he))).lies_of_children ?_
    exact (LieInOrder.one ih).skip_left [t]
  | ofSigned _ ih => exact ih
  | ofSimple _ ih => exact ih
  | @operation level _ _ _ u v t op lhs rhs hl hop hr ihl ihr =>
    have ihl' : ExprLies foot u lhs := by cases level <;> exact ihl
    have ihr' : ExprLies foot v rhs := by cases level <;> exact ihr
    have hall := (Forms.operation hl hop hr).whole_of_result.lies_of_children
      (.two (m := [t]) ihl' ihr')
    cases level <;> exact hall
  | one he ih => exact ⟨he.spans.1, ih.covers nofun, .one ih⟩
  | @range _ _ _ u v t _ _ hl ht hr ihl ihr =>
    refine ⟨List.append_ne_nil_of_left_ne_nil hl.spans.1 _, ?_, .two (m := [t]) ihl ihr⟩
    exact (ihl.covers nofun).join (m := [t]) (ihr.covers nofun)
  | none => exact .nil
  | last _ ih => exact .one ih.element
  | @more _ _ _ _ _ t _ _ _ _ _ _ ihr ihl =>
    exact (LieInOrder.one ihr.element).append (ihl.skip_left [t])

/-! ## Operators -/

/-- The operator of an operation is one of the tokens. -/
def ExprKind.OperatorOn (ts : List Token) : ExprKind → Prop
  | .binary op opSpan _ _ => ∃ t ∈ ts, Operator.ofKind? t.kind = some op ∧ t.span = opSpan
  | _ => True

/-- An operator found on some tokens is found on more. -/
theorem ExprKind.OperatorOn.append {kind : ExprKind} {ts : List Token} (h : kind.OperatorOn ts)
    (u v : List Token) : kind.OperatorOn (u ++ (ts ++ v)) := by
  cases kind with
  | binary op opSpan lhs rhs =>
    obtain ⟨t, ht, htells⟩ := h
    exact ⟨t, List.mem_append_right u (List.mem_append_left v ht), htells⟩
  | _ => trivial

/-- The same for a part, where it is an expression. -/
def ExprPart.OperatorOn (ts : List Token) : ExprPart → Prop
  | .factor e | .term e | .signed e | .simple e | .whole e => e.kind.OperatorOn ts
  | .element _ | .elements _ => True

/-- By induction again: the span of an operator is that of a token of its kind. -/
theorem Forms.operatorOn {k k' : Nat} {ts : List Token} {part : ExprPart} (h : Forms k ts part k') :
    part.OperatorOn ts := by
  induction h with
  | literal hkind =>
    generalize Token.kind _ = q at hkind
    cases hkind <;> trivial
  | designator _ => trivial
  | set _ _ _ _ => trivial
  | typedSet _ _ _ _ _ => trivial
  | @parentheses _ _ opener closer _ _ _ _ _ ih => exact ih.append [opener] [closer]
  | not _ _ _ => trivial
  | ofFactor _ ih => exact ih
  | ofTerm _ ih => exact ih
  | sign _ _ _ => trivial
  | ofSigned _ ih => exact ih
  | ofSimple _ ih => exact ih
  | @operation level _ _ _ u v t op lhs rhs _ hop _ _ _ =>
    have hmem : t ∈ u ++ t :: v := List.mem_append_right u List.mem_cons_self
    have hall : (ExprKind.binary op t.span lhs rhs).OperatorOn (u ++ t :: v) :=
      ⟨t, hmem, (Option.filter_eq_some_iff.1 hop).1, rfl⟩
    cases level <;> exact hall
  | one _ _ => trivial
  | range _ _ _ _ _ => trivial
  | none => trivial
  | last _ _ => trivial
  | more _ _ _ _ _ => trivial

namespace Parser

/-- What was read as an expression lies on the tokens that were taken for it. -/
theorem expr_lays (foot : Token) : expr.Lays (ExprLies foot) := by
  intro construct c e c' h
  obtain ⟨ts, hts, he⟩ := expr_builds h
  exact ⟨ts, hts, he.lies⟩

theorem rangeItem_lays (foot : Token) : rangeItem.Lays (RangeLies foot) := by
  intro construct c r c' h
  obtain ⟨ts, hts, hr⟩ := rangeItem_builds h
  exact ⟨ts, hts, hr.lies⟩

end Parser

end Modula

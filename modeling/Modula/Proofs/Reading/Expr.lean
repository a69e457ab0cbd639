import Modula.Proofs.Forms.Reading
/-!
# What the parsers of expressions read

  Whatever the parsers end with is formed by the tokens that they took, and what is formed is a sentence
  of the grammar (`Forms.grammar`); so they read sentences only.  The other way round, the tokens of a
  sentence form an expression, whatever the next id is, and this expression stands for the same bare tree
  (`IsExpr.formed`); so they read all sentences.
-/

namespace Modula

open Token.Kind (word symbol)

variable {α : Type}

/-! ## Sentences are formed -/

/-- Tokens of these kinds form a part at this place, from any next id on, and the part stands for the
bare tree. -/
def Formed (place : α → ExprPart) (bare : α → α) : Phrase α := fun w b =>
  ∀ (k : Nat) (ts : List Token), ts.map Token.kind = w →
    ∃ a k', Forms k ts (place a) k' ∧ bare a = b

section

variable {u v w : List Token.Kind}

/-- What is formed at one place is formed at every place where it may stand as well. -/
theorem Formed.mono {place place' : α → ExprPart} {bare : α → α} {b : α}
    (h : Formed place bare w b)
    (hplace : ∀ {k ts a k'}, Forms k ts (place a) k' → Forms k ts (place' a) k') :
    Formed place' bare w b := by
  intro k ts hts
  obtain ⟨a, k', ha, hb⟩ := h k ts hts
  exact ⟨a, k', hplace ha, hb⟩

/-- Further segments of a name are formed one by one. -/
theorem exists_formsSegments {l : List Ident} {ts : List Token}
    (h : Further (symbol .period) IsIdent (ts.map Token.kind) l) :
    ∃ l', FormsSegments ts l' ∧ l'.map (Ident.relabel .forget) = l := by
  induction l generalizing ts with
  | nil =>
    rcases h with ⟨hnil, -⟩ | ⟨_, _, h⟩
    · obtain rfl := List.map_eq_nil_iff.1 hnil
      exact ⟨[], .none, rfl⟩
    · cases h
  | cons i l ih =>
    rcases h with ⟨-, hnil⟩ | ⟨v, hts, h⟩
    · cases hnil
    · obtain ⟨_, v', rfl, hi, hl⟩ := separated_cons_iff.1 h
      cases hi with
      | name text =>
        obtain ⟨point, ts', rfl, hpoint, hts'⟩ := List.map_eq_cons_iff.1 hts
        obtain ⟨t, ts, rfl, ht, rfl⟩ := List.map_eq_cons_iff.1 hts'
        obtain ⟨l', hl', hbare⟩ := ih hl
        exact ⟨⟨text, t.span⟩ :: l', .more hpoint ht hl', by rw [List.map_cons, hbare]; rfl⟩

/-- A qualified name is formed by its tokens, with the spans that they have. -/
theorem exists_formsName {q : Qualident} {ts : List Token} (h : IsQualident (ts.map Token.kind) q) :
    ∃ q', FormsName ts q' ∧ q'.relabel .forget = q := by
  generalize hw : ts.map Token.kind = w at h
  obtain ⟨h⟩ := h
  obtain ⟨_, v, rfl, hi, hl⟩ := separated_cons_iff.1 h
  cases hi with
  | name text =>
    obtain ⟨t, ts, rfl, ht, rfl⟩ := List.map_eq_cons_iff.1 hw
    obtain ⟨l', hl', hbare⟩ := exists_formsSegments hl
    exact ⟨_, .parts ht hl', by rw [Qualident.relabel_ofIdents, hbare]; rfl⟩

/-- A literal is formed by its one token. -/
theorem Formed.literal {q : Token.Kind} {kind : ExprKind} (h : IsLiteral q kind)
    (hbare : kind.relabel .forget = kind) :
    Formed .factor (Expr.relabel .forget) [q] ⟨0, kind, .nowhere⟩ := by
  intro k ts hts
  obtain ⟨t, rfl, rfl⟩ := List.map_eq_singleton_iff.1 hts
  exact ⟨_, _, .literal h, by rw [Expr.relabel, hbare]; rfl⟩

/-- A name that stands for an expression. -/
theorem Formed.designator {q : Qualident} (h : IsQualident w q) :
    Formed .factor (Expr.relabel .forget) w ⟨0, .designator q, .nowhere⟩ := by
  rintro k ts rfl
  obtain ⟨q', hq', rfl⟩ := exists_formsName h
  exact ⟨_, _, .designator hq', rfl⟩

/-- The tokens of a phrase in brackets. -/
theorem exists_bracketed {opener closer : Token.Kind} {ts : List Token}
    (h : ts.map Token.kind = opener :: (w ++ [closer])) :
    ∃ o us c, ts = o :: (us ++ [c]) ∧ o.kind = opener ∧ us.map Token.kind = w ∧ c.kind = closer := by
  obtain ⟨o, ts', rfl, ho, hts'⟩ := List.map_eq_cons_iff.1 h
  obtain ⟨us, cs, rfl, hus, hcs⟩ := List.map_eq_append_iff.1 hts'
  obtain ⟨c, rfl, hc⟩ := List.map_eq_singleton_iff.1 hcs
  exact ⟨o, us, c, rfl, ho, hus, hc⟩

/-- A set without a type in front. -/
theorem Formed.set {l : List RangeItem}
    (h : Formed .elements (List.map (RangeItem.relabel .forget)) w l) :
    Formed .factor (Expr.relabel .forget) (symbol .openBrace :: (w ++ [symbol .closeBrace]))
      ⟨0, .set none l, .nowhere⟩ := by
  intro k ts hts
  obtain ⟨o, us, c, rfl, ho, hus, hc⟩ := exists_bracketed hts
  obtain ⟨l', k', hl', rfl⟩ := h k us hus
  exact ⟨_, _, .set ho hl' hc, by rw [Expr.relabel, ExprKind.relabel, RangeItem.relabelAll_eq_map]; rfl⟩

/-- A set with its type. -/
theorem Formed.typedSet {q : Qualident} {l : List RangeItem} (hq : IsQualident u q)
    (h : Formed .elements (List.map (RangeItem.relabel .forget)) w l) :
    Formed .factor (Expr.relabel .forget) (u ++ symbol .openBrace :: (w ++ [symbol .closeBrace]))
      ⟨0, .set (some q) l, .nowhere⟩ := by
  intro k ts hts
  obtain ⟨tu, tw, rfl, rfl, htw⟩ := List.map_eq_append_iff.1 hts
  obtain ⟨q', hq', rfl⟩ := exists_formsName hq
  obtain ⟨o, us, c, rfl, ho, hus, hc⟩ := exists_bracketed htw
  obtain ⟨l', k', hl', rfl⟩ := h k us hus
  exact ⟨_, _, .typedSet hq' ho hl' hc,
    by rw [Expr.relabel, ExprKind.relabel, RangeItem.relabelAll_eq_map]; rfl⟩

/-- Parentheses do not show in the bare tree. -/
theorem Formed.parentheses {e : Expr} (h : Formed .whole (Expr.relabel .forget) w e) :
    Formed .factor (Expr.relabel .forget) (symbol .openParen :: (w ++ [symbol .closeParen])) e := by
  intro k ts hts
  obtain ⟨o, us, c, rfl, ho, hus, hc⟩ := exists_bracketed hts
  obtain ⟨⟨id, kind, span⟩, k', he, rfl⟩ := h k us hus
  exact ⟨_, _, .parentheses ho he hc, rfl⟩

/-- A negation. -/
theorem Formed.not {e : Expr} (h : Formed .factor (Expr.relabel .forget) w e) :
    Formed .factor (Expr.relabel .forget) (word .NOT :: w) ⟨0, .not e, .nowhere⟩ := by
  intro k ts hts
  obtain ⟨t, ts, rfl, ht, hts⟩ := List.map_eq_cons_iff.1 hts
  obtain ⟨e', k', he', rfl⟩ := h k ts hts
  exact ⟨_, _, .not ht he', rfl⟩

/-- A sign in front of a term. -/
theorem Formed.signed {q : Token.Kind} {s : Sign} {e : Expr} (hs : Sign.ofKind? q = some s)
    (h : Formed .term (Expr.relabel .forget) w e) :
    Formed .signed (Expr.relabel .forget) (q :: w) ⟨0, .signed s e, .nowhere⟩ := by
  intro k ts hts
  obtain ⟨t, us, rfl, rfl, hus⟩ := List.map_eq_cons_iff.1 hts
  obtain ⟨e', k', he', rfl⟩ := h k us hus
  exact ⟨_, _, .sign hs he', rfl⟩

/-- An operator of some level between what may stand on its left and on its right. -/
theorem Formed.operation (level : Operator.Level) {q : Token.Kind} {op : Operator} {lhs rhs : Expr}
    (hl : Formed level.left (Expr.relabel .forget) u lhs)
    (hop : Operator.ofKindAt? level q = some op)
    (hr : Formed level.right (Expr.relabel .forget) v rhs) :
    Formed level.result (Expr.relabel .forget) (u ++ q :: v)
      ⟨0, .binary op .nowhere lhs rhs, .nowhere⟩ := by
  intro k ts hts
  obtain ⟨tu, ts, rfl, htu, hts⟩ := List.map_eq_append_iff.1 hts
  obtain ⟨t, tv, rfl, rfl, htv⟩ := List.map_eq_cons_iff.1 hts
  obtain ⟨lhs', k₁, hl', rfl⟩ := hl k tu htu
  obtain ⟨rhs', k₂, hr', rfl⟩ := hr k₁ tv htv
  exact ⟨_, _, .operation hl' hop hr', rfl⟩

/-- An element that is an expression. -/
theorem Formed.one {e : Expr} (h : Formed .whole (Expr.relabel .forget) w e) :
    Formed .element (RangeItem.relabel .forget) w ⟨e, none, .nowhere⟩ := by
  intro k ts hts
  obtain ⟨e', k', he', rfl⟩ := h k ts hts
  exact ⟨_, _, .one he', rfl⟩

/-- An element with two bounds. -/
theorem Formed.range {low high : Expr} (hl : Formed .whole (Expr.relabel .forget) u low)
    (hh : Formed .whole (Expr.relabel .forget) v high) :
    Formed .element (RangeItem.relabel .forget) (u ++ symbol .ellipsis :: v)
      ⟨low, some high, .nowhere⟩ := by
  intro k ts hts
  obtain ⟨tu, tv, rfl, htu, htv⟩ := List.map_eq_append_iff.1 hts
  obtain ⟨t, tv, rfl, ht, htv⟩ := List.map_eq_cons_iff.1 htv
  obtain ⟨low', k₁, hl', rfl⟩ := hl k tu htu
  obtain ⟨high', k₂, hh', rfl⟩ := hh k₁ tv htv
  exact ⟨_, _, .range hl' ht hh', rfl⟩

theorem Formed.none : Formed .elements (List.map (RangeItem.relabel .forget)) [] [] := by
  intro k ts hts
  obtain rfl := List.map_eq_nil_iff.1 hts
  exact ⟨[], k, .none, rfl⟩

/-- The last element of a set. -/
theorem Formed.last {i : RangeItem} (h : Formed .element (RangeItem.relabel .forget) w i) :
    Formed .elements (List.map (RangeItem.relabel .forget)) w [i] := by
  intro k ts hts
  obtain ⟨i', k', hi', rfl⟩ := h k ts hts
  exact ⟨_, _, .last hi', rfl⟩

/-- An element with others behind it. -/
theorem Formed.more {i i' : RangeItem} {l : List RangeItem}
    (hi : Formed .element (RangeItem.relabel .forget) u i)
    (hl : Formed .elements (List.map (RangeItem.relabel .forget)) v (i' :: l)) :
    Formed .elements (List.map (RangeItem.relabel .forget)) (u ++ symbol .comma :: v)
      (i :: i' :: l) := by
  intro k ts hts
  obtain ⟨tu, tv, rfl, htu, htv⟩ := List.map_eq_append_iff.1 hts
  obtain ⟨t, tv, rfl, ht, htv⟩ := List.map_eq_cons_iff.1 htv
  obtain ⟨i, k₁, hi', rfl⟩ := hi k tu htu
  obtain ⟨all, k₂, hl', hall⟩ := hl k₁ tv htv
  obtain ⟨i', l, rfl, rfl, rfl⟩ := List.map_eq_cons_iff.1 hall
  exact ⟨_, _, .more hi' ht hl', rfl⟩

end

/-- The tokens of an expression form it. -/
theorem IsExpr.formed {w : List Token.Kind} {e : Expr} (h : IsExpr w e) :
    Formed .whole (Expr.relabel .forget) w e := by
  refine @IsExpr.rec (fun w e _ => Formed .whole (Expr.relabel .forget) w e)
    (fun w e _ => Formed .simple (Expr.relabel .forget) w e)
    (fun w e _ => Formed .signed (Expr.relabel .forget) w e)
    (fun w e _ => Formed .term (Expr.relabel .forget) w e)
    (fun w e _ => Formed .factor (Expr.relabel .forget) w e)
    (fun w l _ => Formed .elements (List.map (RangeItem.relabel .forget)) w l)
    (fun w i _ => Formed .element (RangeItem.relabel .forget) w i)
    (fun w e _ => Formed .simple (Expr.relabel .forget) w e)
    (fun w e _ => Formed .term (Expr.relabel .forget) w e)
    (fun w l _ => l ≠ [] ∧ Formed .elements (List.map (RangeItem.relabel .forget)) w l)
    ?simple ?relation ?operands ?unsigned ?signed ?factors ?integer ?real ?string
    ?designator ?set ?typedSet ?parentheses ?not ?none ?some ?one ?range ?first ?addition
    ?firstFactor ?multiplication ?element ?elements _ _ h
  case simple => exact fun _ h => h.mono .ofSimple
  case relation => exact fun _ hop _ hl hr => .operation .relational hl hop hr
  case operands | factors => exact fun _ h => h
  case unsigned => exact fun _ h => h.mono .ofTerm
  case signed => exact fun hs _ h => .signed hs h
  case integer => exact fun literal => .literal (.integer literal) rfl
  case real => exact fun text => .literal (.real text) rfl
  case string => exact fun content => .literal (.string content) rfl
  case designator => exact fun hq => .designator hq
  case set => exact fun _ h => .set h
  case typedSet => exact fun hq _ h => .typedSet hq h
  case parentheses => exact fun _ h => .parentheses h
  case not => exact fun _ h => .not h
  case none => exact .none
  case some => exact fun _ h => h.2
  case one => exact fun _ h => .one h
  case range => exact fun _ _ hl hh => .range hl hh
  case first => exact fun _ h => h.mono .ofSigned
  case addition => exact fun _ hop _ hl hr => .operation .additive hl hop hr
  case firstFactor => exact fun _ h => h.mono .ofFactor
  case multiplication => exact fun _ hop _ hl hr => .operation .multiplicative hl hop hr
  case element => exact fun _ h => ⟨List.cons_ne_nil _ _, .last h⟩
  case elements =>
    intro u v i l _ _ hi hl
    obtain ⟨i', l, rfl⟩ := List.exists_cons_of_ne_nil hl.1
    exact ⟨List.cons_ne_nil _ _, .more hi hl.2⟩

/-- Elements of the grammar are formed, since the expressions in them are. -/
theorem IsElement.formed {w : List Token.Kind} {i : RangeItem} (h : IsElement w i) :
    Formed .element (RangeItem.relabel .forget) w i := by
  cases h with
  | one h => exact .one h.formed
  | range hl hh => exact .range hl.formed hh.formed

/-! ## What is read -/

namespace Parser

variable {p : Parser α} {place : α → ExprPart} {bare : α → α} {phrase : Phrase α}

/-- What is formed is a sentence, so a parser that builds what is formed reads sentences only. -/
theorem BuildsAt.readsOnly (h : p.BuildsAt place)
    (hphrase : ∀ {w a}, (place a).IsBare w → phrase w (bare a)) : ReadsOnly p bare phrase := by
  intro construct c a c' hrun
  obtain ⟨ts, hts, ha⟩ := h hrun
  exact ⟨ts.map Token.kind, Cursor.kinds_of_rest hts.1, hphrase ha.grammar⟩

/-- What is read wherever its tokens stand is read in front of the tokens of a sentence. -/
theorem readsAll_of_formed {follow : Token.Kind → Prop}
    (hreads : ∀ {k ts a k'}, Forms k ts (place a) k' → p.Reads k ts a k' follow)
    (hphrase : ∀ {w a}, phrase w a → Formed place bare w a) (n : Nat) :
    ReadsAll n p bare phrase follow := by
  intro construct c w b rest hc hw _ hf
  obtain ⟨ts, us, hrest, rfl, rfl⟩ := List.map_eq_append_iff.1 hc
  obtain ⟨a, k', ha, hb⟩ := hphrase hw c.nextId ts rfl
  obtain ⟨c', hrun, -, hc', -⟩ := hreads ha construct hrest rfl hf
  exact ⟨a, c', hrun, hb, congrArg (List.map Token.kind) hc'⟩

/-- Expressions that were read are expressions of the grammar. -/
theorem expr_readsOnly : ReadsOnly expr (Expr.relabel .forget) IsExpr :=
  expr_builds.readsOnly id

/-- All expressions are read, in front of a token that no expression goes on with. -/
theorem expr_readsAll (n : Nat) : ReadsAll n expr (Expr.relabel .forget) IsExpr EndsExpr :=
  readsAll_of_formed expr_reads IsExpr.formed n

/-- No sequence of tokens stands for two expressions. -/
theorem isExpr_unique {w : List Token.Kind} {a b : Expr} (ha : IsExpr w a) (hb : IsExpr w b) : a = b :=
  ReadsAll.unique expr_readsAll (by decide) ha hb

theorem rangeItem_readsOnly : ReadsOnly rangeItem (RangeItem.relabel .forget) IsElement :=
  rangeItem_builds.readsOnly id

/-- The same for elements and labels. -/
theorem rangeItem_readsAll (n : Nat) :
    ReadsAll n rangeItem (RangeItem.relabel .forget) IsElement EndsElement :=
  readsAll_of_formed rangeItem_reads IsElement.formed n

end Parser

end Modula

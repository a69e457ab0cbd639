import Modula.Parser.Expr
import Modula.Proofs.Forms
/-!
# What the parsers of expressions build

  Whenever a parser of expressions ends with a value, the tokens that it took form just this value, with
  the ids that it drew (`factorAt_builds`, `expr_builds`).

  The parsers are written over a reader of factors, and so is this module; the knot is then tied by
  induction on the budget.  The loop of `operations` extends what has been formed at its right end,
  operator by operator.
-/

namespace Modula.Parser

open Token.Kind (word symbol)

variable {α : Type}

/-- The tokens that the parser takes, its value and the ids that it draws are related. -/
def Builds (p : Parser α) (P : Nat → List Token → α → Nat → Prop) : Prop :=
  ∀ ⦃construct c a c'⦄, p construct c = .ok a c' →
    ∃ ts, c.Takes ts c' ∧ P c.nextId ts a c'.nextId

/-! ## Names

  Names are laid on their tokens, and no ids are drawn for them. -/

theorem identList_quiet : Quiet identList :=
  .bind (sepBy_quiet ident_quiet) fun _ => .pure _

/-- No id is drawn for a name, however many segments it has. -/
theorem segments_quiet (budget : Nat) : Quiet (segments budget) := by
  induction budget with
  | zero => exact .pure _
  | succ budget ih =>
    refine .bind get_quiet fun c => .ite ?_ (.pure _)
    refine .bind advance_quiet fun _ => .bind ident_quiet fun i => ?_
    exact .bind ih fun more => .pure _

theorem qualident_quiet : Quiet qualident :=
  .bind ident_quiet fun _ => .bind remaining_quiet fun _ => .bind (segments_quiet _) fun _ => .pure _

/-- By induction on the budget: each segment takes a period and a name. -/
theorem segments_lays_forms (budget : Nat) : (segments budget).Lays FormsSegments := by
  induction budget with
  | zero =>
    intro construct c l c' h
    cases h
    exact ⟨[], .refl c, .none⟩
  | succ budget ih =>
    intro construct c l c' h
    obtain ⟨_, _, hc, h₁⟩ := bind_eq_ok.1 h
    cases hc
    split at h₁
    · next hk =>
      obtain ⟨_, _, hadvance, h₂⟩ := bind_eq_ok.1 h₁
      cases hadvance
      obtain ⟨i, c₁, h₃, h₄⟩ := bind_eq_ok.1 h₂
      obtain ⟨more, c₂, h₅, h₆⟩ := bind_eq_ok.1 h₄
      cases h₆
      -- A period and a name have been taken, and then what the induction tells of.
      have hne : c.kind ≠ .eof := hk.1 ▸ nofun
      obtain ⟨_, hu, t, rfl, hname, hspan⟩ := ident_takes h₃
      obtain ⟨v, hv, hmore⟩ := ih h₅
      obtain ⟨text, span⟩ := i
      obtain rfl : t.span = span := hspan
      have hpoint : c.token.kind = symbol .period := (Cursor.kind_token hne).trans hk.1
      exact ⟨_, (Cursor.takes_advance hne).trans (hu.trans hv), .more hpoint hname hmore⟩
    · cases h₁
      exact ⟨[], .refl _, .none⟩

/-- The span of a name is joined in the order in which its segments were read. -/
theorem qualident_lays_forms : qualident.Lays FormsName := by
  intro construct c q c' h
  obtain ⟨⟨text, span⟩, c₁, h₁, h₂⟩ := bind_eq_ok.1 h
  obtain ⟨budget, _, hb, h₃⟩ := bind_eq_ok.1 h₂
  cases hb
  obtain ⟨more, c₂, h₄, h₅⟩ := bind_eq_ok.1 h₃
  cases h₅
  obtain ⟨_, hu, t, rfl, hname, hspan⟩ := ident_takes h₁
  obtain rfl : t.span = span := hspan
  obtain ⟨v, hv, hmore⟩ := segments_lays_forms _ h₄
  exact ⟨[t] ++ v, hu.trans hv, .parts hname hmore⟩

/-! ## Operators

  The loop has a first operand that is formed already.  Each turn forms it anew, further to the right. -/

/-- What the parser reads is formed at this place. -/
def BuildsAt (p : Parser α) (place : α → ExprPart) : Prop :=
  p.Builds fun k ts a k' => Forms k ts (place a) k'

/-- What is formed and the operations read behind it are formed together. -/
theorem operations_builds {level : Operator.Level} {operand : Parser Expr}
    (ho : operand.BuildsAt level.right) (hlevel : level.result = level.left) (budget : Nat) :
    ∀ ⦃k u lhs construct c e c'⦄, Forms k u (level.left lhs) c.nextId →
      operations level operand budget lhs construct c = .ok e c' →
      ∃ v, c.Takes v c' ∧ Forms k (u ++ v) (level.left e) c'.nextId := by
  induction budget with
  | zero =>
    intro k u lhs construct c e c' hu h
    cases h
    exact ⟨[], .refl c, by rwa [List.append_nil]⟩
  | succ budget ih =>
    intro k u lhs construct c e c' hu h
    obtain ⟨_, hq, h₁⟩ := kind_bind_eq_ok h
    split at hq
    · subst hq
      cases h₁
      exact ⟨[], .refl c, by rwa [List.append_nil]⟩
    · next op hop =>
      subst hq
      obtain ⟨_, _, hadvance, h₂⟩ := bind_eq_ok.1 h₁
      cases hadvance
      obtain ⟨rhs, c₁, h₃, h₄⟩ := bind_eq_ok.1 h₂
      obtain ⟨id, _, hid, h₅⟩ := bind_eq_ok.1 h₄
      cases hid
      have hne : c.kind ≠ .eof := ne_eof_of_operator hop
      have htoken : Operator.ofKindAt? level c.token.kind = some op := by
        rwa [Cursor.kind_token hne]
      obtain ⟨v, hv, hr⟩ := ho h₃
      rw [nextId_advance] at hr
      -- the operation so far is the left operand of what follows
      have hall := Forms.operation hu htoken hr
      rw [hlevel] at hall
      obtain ⟨w, hw, he⟩ := ih hall h₅
      refine ⟨[c.token] ++ v ++ w, ((Cursor.takes_advance hne).trans hv).trans hw, ?_⟩
      rwa [List.append_assoc] at he

/-- A first operand and the operators behind it. -/
theorem leveled_builds (level : Operator.Level) {first operand : Parser Expr}
    (hf : first.BuildsAt level.left) (ho : operand.BuildsAt level.right)
    (hlevel : level.result = level.left) :
    (do let a ← first; operations level operand (← remaining) a : Parser Expr).BuildsAt level.left := by
  intro construct c e c' h
  obtain ⟨a, c₁, h₁, h₂⟩ := bind_eq_ok.1 h
  obtain ⟨_, _, hb, h₃⟩ := bind_eq_ok.1 h₂
  cases hb
  obtain ⟨u, hu, ha⟩ := hf h₁
  obtain ⟨v, hv, he⟩ := operations_builds ho hlevel _ ha h₃
  exact ⟨u ++ v, hu.trans hv, he⟩

/-- What forms a part of one kind may form a part of another as well. -/
theorem BuildsAt.mono {p : Parser α} {place place' : α → ExprPart} (h : p.BuildsAt place)
    (hplace : ∀ {k ts a k'}, Forms k ts (place a) k' → Forms k ts (place' a) k') :
    p.BuildsAt place' := by
  intro construct c a c' hrun
  obtain ⟨ts, hts, ha⟩ := h hrun
  exact ⟨ts, hts, hplace ha⟩

section

variable {factor : Parser Expr} (hf : factor.BuildsAt .factor)

include hf

/-- The first factor, and the operators behind it. -/
theorem termWith_builds : (termWith factor).BuildsAt .term :=
  leveled_builds .multiplicative (hf.mono .ofFactor) hf rfl

/-- The node of a sign has its id behind those of the term. -/
theorem signedTermWith_builds : (signedTermWith factor).BuildsAt .signed := by
  intro construct c e c' h
  obtain ⟨_, hq, h₁⟩ := kind_bind_eq_ok h
  split at hq
  · subst hq
    exact (termWith_builds hf).mono .ofTerm h₁
  · next sign hs =>
    subst hq
    obtain ⟨_, _, hadvance, h₂⟩ := bind_eq_ok.1 h₁
    cases hadvance
    obtain ⟨operand, c₁, h₃, h₄⟩ := bind_eq_ok.1 h₂
    cases h₄
    have hne : c.kind ≠ .eof := ne_eof_of_sign hs
    obtain ⟨v, hv, he⟩ := termWith_builds hf h₃
    rw [nextId_advance] at he
    refine ⟨[c.token] ++ v, ((Cursor.takes_advance hne).trans hv).withId _, .sign ?_ he⟩
    rwa [Cursor.kind_token hne]

theorem simpleWith_builds : (simpleWith factor).BuildsAt .simple :=
  leveled_builds .additive ((signedTermWith_builds hf).mono .ofSigned)
    (termWith_builds hf) rfl

omit hf in
/-- The look for a second relation does nothing else. -/
theorem noRelation_eq_ok {construct : Construct} {c c' : Cursor} {u : Unit}
    (h : noRelation construct c = .ok u c') :
    c' = c ∧ Operator.ofKindAt? .relational c.kind = none := by
  obtain ⟨_, hq, h₁⟩ := kind_bind_eq_ok h
  split at hq <;> subst hq
  · exact absurd h₁ fail_ne_ok
  · next hnone =>
    cases h₁
    exact ⟨rfl, by simpa using hnone⟩

/-- One relation at most: what is built is an operation, or the simple expression alone. -/
theorem exprWith_builds : (exprWith factor).BuildsAt .whole := by
  intro construct c e c' h
  obtain ⟨lhs, c₁, h₁, h₂⟩ := bind_eq_ok.1 h
  obtain ⟨u, hu, hl⟩ := simpleWith_builds hf h₁
  obtain ⟨_, hq, h₃⟩ := kind_bind_eq_ok h₂
  -- without a relation, or with one
  split at hq
  · subst hq
    cases h₃
    exact ⟨u, hu, .ofSimple hl⟩
  · next op hop =>
    subst hq
    obtain ⟨_, _, hadvance, h₄⟩ := bind_eq_ok.1 h₃
    cases hadvance
    obtain ⟨rhs, c₂, h₅, h₆⟩ := bind_eq_ok.1 h₄
    obtain ⟨id, _, hid, h₇⟩ := bind_eq_ok.1 h₆
    cases hid
    obtain ⟨_, c₃, h₈, h₉⟩ := bind_eq_ok.1 h₇
    cases h₉
    obtain ⟨rfl, -⟩ := noRelation_eq_ok h₈
    have hne : c₁.kind ≠ .eof := ne_eof_of_operator hop
    obtain ⟨v, hv, hr⟩ := simpleWith_builds hf h₅
    rw [nextId_advance] at hr
    refine ⟨_, hu.trans ((Cursor.takes_advance hne).trans (hv.withId _)), ?_⟩
    -- The operator was seen in the token that was then taken.
    have hop' : Operator.ofKindAt? .relational c₁.token.kind = some op := by
      rwa [Cursor.kind_token hne]
    exact Forms.operation hl hop' hr

/-! ## Factors

  Parentheses are the one case where the node that is there is changed: its span grows, and its id stays. -/

/-- An element with the join of both bounds for a span, or with that of the one bound. -/
theorem rangeItemWith_builds : (rangeItemWith factor).BuildsAt .element := by
  intro construct c r c' h
  obtain ⟨lhs, c₁, h₁, h₂⟩ := bind_eq_ok.1 h
  obtain ⟨u, hu, hl⟩ := exprWith_builds hf h₁
  obtain ⟨taken, c₂, h₃, h₄⟩ := bind_eq_ok.1 h₂
  rcases accept_eq_ok h₃ with ⟨rfl, hk, rfl⟩ | ⟨rfl, -, rfl⟩
  · obtain ⟨rhs, c₃, h₅, h₆⟩ := bind_eq_ok.1 h₄
    cases h₆
    have hne : c₁.kind ≠ .eof := hk ▸ nofun
    obtain ⟨v, hv, hr⟩ := exprWith_builds hf h₅
    rw [nextId_advance] at hr
    refine ⟨_, hu.trans ((Cursor.takes_advance hne).trans hv), .range hl ?_ hr⟩
    rwa [Cursor.kind_token hne]
  · cases h₄
    exact ⟨u, hu, .one hl⟩

/-- Further elements behind one that is formed. -/
theorem moreElements_builds (budget : Nat) :
    ∀ ⦃k u r construct c l c'⦄, Forms k u (.element r) c.nextId →
      moreAfter (symbol .comma) (rangeItemWith factor) budget construct c = .ok l c' →
      ∃ v, c.Takes v c' ∧ Forms k (u ++ v) (.elements (r :: l)) c'.nextId := by
  -- What has been formed so far, `u`, goes from one round to the next.
  induction budget with
  | zero =>
    intro k u r construct c l c' hu h
    cases h
    exact ⟨[], .refl c, by rw [List.append_nil]; exact .last hu⟩
  | succ budget ih =>
    intro k u r construct c l c' hu h
    obtain ⟨taken, c₁, h₁, h₂⟩ := bind_eq_ok.1 h
    rcases accept_eq_ok h₁ with ⟨rfl, hk, rfl⟩ | ⟨rfl, -, rfl⟩
    · obtain ⟨r', c₂, h₃, h₄⟩ := bind_eq_ok.1 h₂
      obtain ⟨more, c₃, h₅, h₆⟩ := bind_eq_ok.1 h₄
      cases h₆
      have hne : c.kind ≠ .eof := hk ▸ nofun
      obtain ⟨v, hv, hr⟩ := rangeItemWith_builds hf h₃
      rw [nextId_advance] at hr
      obtain ⟨w, hw, hmore⟩ := ih hr h₅
      refine ⟨_, (Cursor.takes_advance hne).trans (hv.trans hw), .more hu ?_ hmore⟩
      rwa [Cursor.kind_token hne]
    · cases h₂
      exact ⟨[], .refl _, by rw [List.append_nil]; exact .last hu⟩

/-- The elements of a set, none of which need be there. -/
theorem elementsWith_builds : (elementsWith factor).BuildsAt .elements := by
  intro construct c l c' h
  obtain ⟨_, hq, h₁⟩ := kind_bind_eq_ok h
  split at hq <;> subst hq
  · cases h₁
    exact ⟨[], .refl c, .none⟩
  · obtain ⟨⟨first, more⟩, c₁, h₂, h₃⟩ := bind_eq_ok.1 h₁
    cases h₃
    obtain ⟨a, c₂, h₄, h₅⟩ := bind_eq_ok.1 h₂
    obtain ⟨_, _, hb, h₆⟩ := bind_eq_ok.1 h₅
    cases hb
    obtain ⟨l, c₃, h₇, h₈⟩ := bind_eq_ok.1 h₆
    cases h₈
    obtain ⟨u, hu, hfirst⟩ := rangeItemWith_builds hf h₄
    obtain ⟨v, hv, hall⟩ := moreElements_builds hf _ hfirst h₇
    exact ⟨u ++ v, hu.trans hv, hall⟩

/-- A set is formed from its opening brace on; the set type in front of it has been read already. -/
theorem setWith_builds {base : Option Qualident} {construct : Construct} {c c₁ c' : Cursor} {e : Expr}
    {u : List Token} (hu : c.Takes u c₁) (hid : c₁.nextId = c.nextId)
    (hbase : (base = none ∧ u = []) ∨ ∃ q, base = some q ∧ FormsName u q)
    (h : setWith factor base c.token.span.start construct c₁ = .ok e c') :
    ∃ ts, c.Takes ts c' ∧ Forms c.nextId ts (.factor e) c'.nextId := by
  obtain ⟨opener, c₂, h₁, h₂⟩ := bind_eq_ok.1 h
  obtain ⟨elements, c₃, h₃, h₄⟩ := bind_eq_ok.1 h₂
  obtain ⟨_, c₄, h₅, h₆⟩ := bind_eq_ok.1 h₄
  cases h₆
  obtain ⟨_, ho, rfl, hopener⟩ := expect_takes (by nofun) h₁
  obtain ⟨v, hv, hl⟩ := elementsWith_builds hf h₃
  obtain ⟨hk, rfl⟩ := close_eq_ok h₅
  have hne : c₃.kind ≠ .eof := hk ▸ nofun
  have hcloser : c₃.token.kind = symbol .closeBrace := (Cursor.kind_token hne).trans hk
  rw [expect_quiet _ h₁, hid] at hl
  -- All tokens of the set, its type in front included, are what its span reaches over.
  have hall := hu.trans (ho.trans (hv.trans (Cursor.takes_advance hne)))
  have hspan := hall.extent_eq (List.append_ne_nil_of_right_ne_nil _ (List.cons_ne_nil _ _))
  refine ⟨_, hall.withId _, ?_⟩
  rw [hspan, nextId_advance]
  -- with a type in front or without one
  rcases hbase with ⟨rfl, rfl⟩ | ⟨q, rfl, hq⟩
  · exact .set hopener hl hcloser
  · exact .typedSet hq hopener hl hcloser

/-- Parentheses move the span of what was built, whose id stays. -/
theorem parenthesesWith_builds {construct : Construct} {c c' : Cursor} {e : Expr}
    (hk : c.kind = symbol .openParen) (h : parenthesesWith factor construct c = .ok e c') :
    ∃ ts, c.Takes ts c' ∧ Forms c.nextId ts (.factor e) c'.nextId := by
  obtain ⟨_, _, hadvance, h₁⟩ := bind_eq_ok.1 h
  cases hadvance
  obtain ⟨inner, c₁, h₂, h₃⟩ := bind_eq_ok.1 h₁
  obtain ⟨_, c₂, h₄, h₅⟩ := bind_eq_ok.1 h₃
  cases h₅
  obtain ⟨v, hv, he⟩ := exprWith_builds hf h₂
  rw [nextId_advance] at he
  obtain ⟨hk', rfl⟩ := close_eq_ok h₄
  have hopener : c.token.kind = symbol .openParen := (Cursor.kind_token (hk ▸ nofun)).trans hk
  have hne : c₁.kind ≠ .eof := hk' ▸ nofun
  have hcloser : c₁.token.kind = symbol .closeParen := (Cursor.kind_token hne).trans hk'
  -- The span is that of all tokens from one parenthesis to the other.
  have hall := (Cursor.takes_advance (hk ▸ nofun)).trans (hv.trans (Cursor.takes_advance hne))
  have hspan := hall.extent_eq (List.cons_ne_nil _ _)
  refine ⟨_, hall, ?_⟩
  rw [nextId_advance]
  exact hspan ▸ .parentheses hopener he hcloser

omit hf in
/-- A literal draws an id behind its token. -/
theorem literal_builds {kind : ExprKind} {construct : Construct} {c c' : Cursor} {e : Expr}
    (h : (do let _ ← advance; node kind c.token.span.start : Parser Expr) construct c = .ok e c')
    (hkind : IsLiteral c.kind kind) :
    ∃ ts, c.Takes ts c' ∧ Forms c.nextId ts (.factor e) c'.nextId := by
  obtain ⟨_, _, hadvance, h₁⟩ := bind_eq_ok.1 h
  cases hadvance
  cases h₁
  have hne := hkind.ne_eof
  have htake := Cursor.takes_advance hne
  refine ⟨_, htake.withId _, ?_⟩
  rw [htake.extent_eq (List.cons_ne_nil _ _), nextId_advance]
  refine .literal ?_
  rwa [Cursor.kind_token hne]

/-- One case for each beginning of a factor. -/
theorem factorWith_builds : (factorWith factor).BuildsAt .factor := by
  intro construct c e c' h
  obtain ⟨_, _, hc, h₁⟩ := bind_eq_ok.1 h
  cases hc
  obtain ⟨_, hq, h₂⟩ := kind_bind_eq_ok h₁
  split at hq <;> subst hq
  · next hk => exact literal_builds h₂ (hk ▸ .integer _)
  · next hk => exact literal_builds h₂ (hk ▸ .real _)
  · next hk => exact literal_builds h₂ (hk ▸ .string _)
  -- A name: it draws no id, whether a set follows or not.
  · obtain ⟨name, c₁, h₃, h₄⟩ := bind_eq_ok.1 h₂
    obtain ⟨u, hu, hname⟩ := qualident_lays_forms h₃
    have hid : c₁.nextId = c.nextId := qualident_quiet h₃
    obtain ⟨_, hq, h₅⟩ := kind_bind_eq_ok h₄
    split at hq <;> subst hq
    · exact setWith_builds hf hu hid (Or.inr ⟨name, rfl, hname⟩) h₅
    · cases h₅
      refine ⟨u, hu.withId _, ?_⟩
      rw [hu.extent_eq hname.ne_nil, hid]
      exact .designator hname
  · exact setWith_builds hf (.refl c) rfl (Or.inl ⟨rfl, rfl⟩) h₂
  · next hk => exact parenthesesWith_builds hf hk h₂
  · next hk =>
    obtain ⟨_, _, hadvance, h₃⟩ := bind_eq_ok.1 h₂
    cases hadvance
    obtain ⟨operand, c₁, h₄, h₅⟩ := bind_eq_ok.1 h₃
    cases h₅
    have hne : c.kind ≠ .eof := hk ▸ nofun
    obtain ⟨v, hv, he⟩ := hf h₄
    rw [nextId_advance] at he
    -- The span of a negation begins at its word.
    have hall := (Cursor.takes_advance hne).trans hv
    refine ⟨_, hall.withId _, ?_⟩
    rw [hall.extent_eq (List.cons_ne_nil _ _)]
    exact .not ((Cursor.kind_token hne).trans hk) he
  · exact absurd h₂ fail_ne_ok

end

/-! ## Expressions -/

/-- By induction on the budget; a factor in a factor is built before it. -/
theorem factorAt_builds (budget : Nat) : (factorAt budget).BuildsAt .factor := by
  induction budget with
  | zero =>
    intro construct c e c' h
    exact absurd h fail_ne_ok
  | succ budget ih => exact factorWith_builds ih

/-- What was read as an expression is formed by the tokens taken, with the ids drawn. -/
theorem expr_builds : expr.BuildsAt .whole := by
  intro construct c e c' h
  obtain ⟨_, _, hb, h₁⟩ := bind_eq_ok.1 h
  cases hb
  exact exprWith_builds (factorAt_builds _) h₁

/-- The same for elements and labels. -/
theorem rangeItem_builds : rangeItem.BuildsAt .element := by
  intro construct c r c' h
  obtain ⟨_, _, hb, h₁⟩ := bind_eq_ok.1 h
  cases hb
  exact rangeItemWith_builds (factorAt_builds _) h₁

end Modula.Parser

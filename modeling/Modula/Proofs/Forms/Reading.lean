import Modula.Proofs.Forms.Building
/-!
# The parsers of expressions read what is formed

  In front of tokens that form an expression, a parser of expressions ends with just this expression, and
  behind just these tokens, as long as the token that comes next cannot be a part of it
  (`Forms.expr_reads`).

  The induction is on how the tokens form a part, and for each place in the grammar it says what the
  parser of that place does (`ExprPart.IsRead`).  Three of the places need more than the result.

  * Terms and simple expressions are read by a loop.  A phrase tells how far the loop has come: it is in
    the state in which it would also start behind the phrase, with a budget that still covers all that is
    unread (`Reaches`).
  * The elements of a set are read as a first one and further ones (`ReadsElements`).
-/

namespace Modula

open Token.Kind (word symbol)

/-! ## Cursors in front of known tokens

  What is known of a cursor here are the tokens in front of it, its next id, and that something else
  follows with which the phrase cannot go on. -/

namespace Cursor

variable {c : Cursor} {t : Token} {ts : List Token}

theorem token_of_rest (h : c.rest = t :: ts) : c.token = t := by
  rw [token, h]
  rfl

theorem rest_advance_of_rest (h : c.rest = t :: ts) : c.advance.rest = ts := by
  rw [rest_advance, h]
  rfl

/-- What is taken is not read again. -/
theorem Takes.remaining_le {d : Cursor} (h : c.Takes ts d) : d.remaining ≤ c.remaining := by
  rw [remaining, remaining, h.1, List.length_append]
  exact Nat.le_add_left _ _

/-- A token that is there can be taken. -/
theorem takes_of_rest (h : c.rest = t :: ts) : c.Takes [t] c.advance := by
  refine ⟨by rw [rest_advance_of_rest h, h]; rfl, ?_⟩
  rw [advance, h]
  rfl

end Cursor

namespace Parser

variable {α : Type}

/-- In front of these tokens, with this next id, the parser takes the tokens and ends with the value, if
a token that may follow comes behind them. -/
def Reads (p : Parser α) (k : Nat) (ts : List Token) (a : α) (k' : Nat)
    (follow : Token.Kind → Prop) : Prop :=
  ∀ (construct : Construct) ⦃c : Cursor⦄ ⦃rest : List Token⦄, c.rest = ts ++ rest → c.nextId = k →
    follow (upcoming (rest.map Token.kind)) →
    ∃ c', p construct c = .ok a c' ∧ c.Takes ts c' ∧ c'.rest = rest ∧ c'.nextId = k'

/-- The same for a loop over the operations of a level: after the first operand it comes to the state in
which it would start behind the tokens, with the value as its left operand. -/
def Reaches (level : Operator.Level) (first operand : Parser Expr) (k : Nat) (ts : List Token)
    (e : Expr) (k' : Nat) (follow : Token.Kind → Prop) : Prop :=
  ∀ (construct : Construct) ⦃c : Cursor⦄ ⦃rest : List Token⦄, c.rest = ts ++ rest → c.nextId = k →
    follow (upcoming (rest.map Token.kind)) →
    ∃ a d c' budget, first construct c = .ok a d ∧
      operations level operand d.remaining a construct d =
        operations level operand budget e construct c' ∧
      c'.remaining ≤ budget ∧ c.Takes ts c' ∧ c'.rest = rest ∧ c'.nextId = k'

/-- The same for a first element and the further ones. -/
def ReadsElements (element : Parser RangeItem) (k : Nat) (ts : List Token) (r : RangeItem)
    (l : List RangeItem) (k' : Nat) : Prop :=
  ∀ (construct : Construct) ⦃c : Cursor⦄ ⦃rest : List Token⦄, c.rest = ts ++ rest → c.nextId = k →
    upcoming (rest.map Token.kind) = symbol .closeBrace →
    ∃ d c', element construct c = .ok r d ∧ d.remaining ≤ c.remaining ∧
      (∀ budget, d.remaining ≤ budget →
        moreAfter (symbol .comma) element budget construct d = .ok l c') ∧
      c.Takes ts c' ∧ c'.rest = rest ∧ c'.nextId = k'

section

variable {p first operand : Parser Expr} {level : Operator.Level} {k k₁ k₂ k' : Nat}
  {ts u v : List Token} {t : Token} {e lhs rhs : Expr} {follow : Token.Kind → Prop}

/-- The first operand is where the loop begins. -/
theorem Reads.reaches (h : first.Reads k ts e k' follow) :
    Reaches level first operand k ts e k' follow := by
  intro construct c rest hc hk hf
  obtain ⟨d, hrun, htakes, hrest, hid⟩ := h construct hc hk hf
  exact ⟨e, d, d, d.remaining, hrun, rfl, Nat.le_refl _, htakes, hrest, hid⟩

/-- The loop goes on over an operator and its right operand. -/
theorem Reaches.operation (h : Reaches level first operand k u lhs k₁ follow)
    (hlevel : ∀ ⦃k op⦄, Operator.ofKindAt? level k = some op → follow k) {op : Operator}
    (hop : Operator.ofKindAt? level t.kind = some op) (hr : operand.Reads k₁ v rhs k₂ follow) :
    Reaches level first operand k (u ++ t :: v)
      ⟨k₂, .binary op t.span lhs rhs, ⟨lhs.span.start, rhs.span.stop⟩⟩ (k₂ + 1) follow := by
  intro construct c rest hc hk hf
  rw [List.append_assoc, List.cons_append] at hc
  -- in front of the operator the loop has its left operand, and budget left for what follows
  obtain ⟨a, d, d₁, budget, hfirst, hloop, hb, hu, hd₁, hk₁⟩ := h construct hc hk (hlevel hop)
  have hkind : d₁.kind = t.kind := Cursor.kind_of_rest hd₁
  have hrest := Cursor.rest_advance_of_rest hd₁
  obtain ⟨d₂, hrun, hv, hd₂, hk₂⟩ := hr construct hrest (by rw [nextId_advance, hk₁]) hf
  have hlen : d₁.remaining = v.length + rest.length + 1 := by
    rw [Cursor.remaining, hd₁, List.length_cons, List.length_append]
  obtain ⟨budget, rfl⟩ : ∃ b, budget = b + 1 := ⟨budget - 1, by omega⟩
  refine ⟨a, d, { d₂ with nextId := k₂ + 1 }, budget, hfirst, ?_, ?_, ?_, hd₂, rfl⟩
  · rw [hloop, operations, kind_bind_of_kind hkind, hop, ← Cursor.token_of_rest hd₁, ← hk₂]
    exact (bind_of_ok (advance_apply construct d₁)).trans (bind_of_ok hrun)
  · have hlen₂ : d₂.remaining = rest.length := congrArg List.length hd₂
    show d₂.remaining ≤ budget
    omega
  · exact hu.trans ((Cursor.takes_of_rest hd₁).trans (hv.withId _))

/-- Where no operator follows the loop is over, whatever is left of its budget. -/
theorem Reaches.reads (h : Reaches level first operand k ts e k' follow) :
    (do let a ← first; operations level operand (← remaining) a : Parser Expr).Reads k ts e k'
      fun k => follow k ∧ Operator.ofKindAt? level k = none := by
  rintro construct c rest hc hk ⟨hf, hno⟩
  obtain ⟨a, d, c', budget, hfirst, hloop, -, htakes, hrest, hid⟩ := h construct hc hk hf
  refine ⟨c', ?_, htakes, hrest, hid⟩
  have hstop : operations level operand budget e construct c' = .ok e c' := by
    cases budget with
    | zero => rfl
    | succ budget =>
      rw [operations, kind_bind_of_kind rfl, Cursor.kind_eq_upcoming, Cursor.kinds, hrest, hno]
      rfl
  rw [bind_of_ok hfirst, bind_of_ok (remaining_apply construct d), hloop, hstop]

end

/-! ## Names -/

section

variable {k : Nat} {ts : List Token}

/-- By induction on the budget: all segments are read, and no period follows the last one. -/
theorem segments_reads {l : List Ident} (h : FormsSegments ts l) :
    ∀ budget, ts.length ≤ budget → (segments budget).Reads k ts l k (· ≠ symbol .period) := by
  induction h with
  | none =>
    intro budget _ construct c rest hc hk hf
    refine ⟨c, ?_, .refl c, hc, hk⟩
    cases budget with
    | zero => rfl
    | succ budget =>
      -- No period follows the last segment.
      have hkind : c.kind ≠ symbol .period := by rwa [Cursor.kind_eq_upcoming, Cursor.kinds, hc]
      rw [segments, bind_of_ok (get_apply construct c), if_neg fun hp => hkind hp.1]
      rfl
  | @more point t ts text l hpoint hname _ ih =>
    intro budget hb construct c rest hc hk hf
    obtain ⟨budget, rfl⟩ : ∃ b, budget = b + 1 := ⟨budget - 1, by simp at hb; omega⟩
    have hrest : c.advance.rest = t :: (ts ++ rest) := Cursor.rest_advance_of_rest hc
    have hrest' := Cursor.rest_advance_of_rest hrest
    -- A period and a name behind it are what makes the parser go on.
    have hp : c.kind = symbol .period ∧ c.kindAfter.isName := by
      refine ⟨(Cursor.kind_of_rest hc).trans hpoint, ?_⟩
      have hafter : c.kindAfter = t.kind := by rw [Cursor.kindAfter, hc]; rfl
      rw [hafter, hname]
      rfl
    have hkind : c.advance.kind = .name text := (Cursor.kind_of_rest hrest).trans hname
    obtain ⟨d, hrun, hv, hd, hid⟩ :=
      ih budget (by simp at hb; omega) construct hrest' (by rw [nextId_advance, nextId_advance, hk]) hf
    refine ⟨d, ?_, (Cursor.takes_of_rest hc).trans ((Cursor.takes_of_rest hrest).trans hv), hd, hid⟩
    rw [segments, bind_of_ok (get_apply construct c), if_pos hp,
      bind_of_ok (advance_apply construct c), bind_of_ok (ident_of_kind hkind), bind_of_ok hrun,
      Cursor.token_of_rest hrest]
    rfl

/-- A name that is formed is read, with the same spans. -/
theorem qualident_reads {q : Qualident} (h : FormsName ts q) :
    qualident.Reads k ts q k (· ≠ symbol .period) := by
  cases h with
  | @parts t ts text l hname hl =>
    intro construct c rest hc hk hf
    have hrest : c.advance.rest = ts ++ rest := Cursor.rest_advance_of_rest hc
    have hkind : c.kind = .name text := (Cursor.kind_of_rest hc).trans hname
    have hb : ts.length ≤ c.advance.remaining := by
      rw [Cursor.remaining, hrest, List.length_append]
      exact Nat.le_add_right _ _
    obtain ⟨d, hrun, hv, hd, hid⟩ :=
      segments_reads hl _ hb construct hrest (by rw [nextId_advance, hk]) hf
    refine ⟨d, ?_, (Cursor.takes_of_rest hc).trans hv, hd, hid⟩
    rw [qualident, bind_of_ok (ident_of_kind hkind), bind_of_ok (remaining_apply construct _),
      bind_of_ok hrun, Cursor.token_of_rest hc]
    rfl

end

/-! ## Factors

  One lemma for each case, with the parts inside read by assumption. -/

/-- The node of a factor has the next id, and reaches over what has been taken. -/
theorem node_of_takes {c d : Cursor} {ts : List Token} (h : c.Takes ts d) (hne : ts ≠ [])
    (kind : ExprKind) (construct : Construct) : node kind c.token.span.start construct d =
      .ok ⟨d.nextId, kind, extent ts⟩ { d with nextId := d.nextId + 1 } := by
  rw [← h.extent_eq hne]
  rfl

/-- What the parser does for the part, if factors may be nested as deep as there are tokens. -/
def IsRead (k : Nat) (ts : List Token) (k' : Nat) : ExprPart → Prop
  | .factor e => ∀ n, ts.length ≤ n → (factorAt n).Reads k ts e k' EndsFactor
  | .term e => ∀ n, ts.length ≤ n →
    Reaches .multiplicative (factorAt n) (factorAt n) k ts e k' EndsFactor
  | .signed e => ∀ n, ts.length ≤ n → (signedTermWith (factorAt n)).Reads k ts e k' EndsTerm
  | .simple e => ∀ n, ts.length ≤ n →
    Reaches .additive (signedTermWith (factorAt n)) (termWith (factorAt n)) k ts e k' EndsTerm
  | .whole e => ∀ n, ts.length ≤ n → (exprWith (factorAt n)).Reads k ts e k' EndsExpr
  | .element r => ∀ n, ts.length ≤ n → (rangeItemWith (factorAt n)).Reads k ts r k' EndsElement
  | .elements [] => ts = [] ∧ k' = k
  | .elements (r :: l) => ∀ n, ts.length ≤ n → ReadsElements (rangeItemWith (factorAt n)) k ts r l k'

section

variable {k k' k₁ k₂ n : Nat} {ts u v : List Token} {t : Token} {e lhs rhs : Expr}

/-- Terms are read by their loop. -/
theorem termWith_reads
    (h : Reaches .multiplicative (factorAt n) (factorAt n) k ts e k' EndsFactor) :
    (termWith (factorAt n)).Reads k ts e k' EndsTerm := h.reads

/-- The first term and the operations behind it are reached together. -/
theorem simpleWith_reads
    (h : Reaches .additive (signedTermWith (factorAt n)) (termWith (factorAt n)) k ts e k' EndsTerm) :
    (simpleWith (factorAt n)).Reads k ts e k' EndsSimple := h.reads

/-- A literal is one token. -/
theorem literal_reads {kind : ExprKind} (hkind : IsLiteral t.kind kind) :
    (factorAt (n + 1)).Reads k [t] ⟨k, kind, extent [t]⟩ (k + 1) EndsFactor := by
  intro construct c rest hc hk _
  have htakes := Cursor.takes_of_rest hc
  have hid : c.advance.nextId = k := by rw [nextId_advance, hk]
  refine ⟨{ c.advance with nextId := k + 1 }, ?_, htakes.withId _, Cursor.rest_advance_of_rest hc, rfl⟩
  have hnode := node_of_takes htakes (List.cons_ne_nil _ _) kind construct
  rw [hid] at hnode
  have hread : (do let _ ← advance; node kind c.token.span.start : Parser Expr) construct c = _ :=
    (bind_of_ok (advance_apply construct c)).trans hnode
  have hc' := Cursor.kind_of_rest hc
  rw [factorAt, factorWith, factorOver, bind_of_ok (get_apply construct c)]
  generalize t.kind = q at hkind hc'
  cases hkind with
  | integer literal => exact (kind_bind_of_kind hc').trans hread
  | real text => exact (kind_bind_of_kind hc').trans hread
  | string content => exact (kind_bind_of_kind hc').trans hread

/-- A name, behind which no set may begin. -/
theorem designator_reads {q : Qualident} (hname : FormsName ts q) :
    (factorAt (n + 1)).Reads k ts ⟨k, .designator q, extent ts⟩ (k + 1) EndsFactor := by
  rintro construct c rest hc hk ⟨hp, hb⟩
  obtain ⟨text, hkind⟩ := hname.kind_of_rest hc
  obtain ⟨d, hrun, htakes, hd, hid⟩ := qualident_reads hname construct hc hk hp
  refine ⟨{ d with nextId := k + 1 }, ?_, htakes.withId _, hd, rfl⟩
  -- without a brace behind it, the name is no base of a set
  have hb' : d.kind ≠ Bracket.setConstructor.opener := by
    rwa [Cursor.kind_eq_upcoming, Cursor.kinds, hd]
  have hnode := node_of_takes htakes hname.ne_nil (.designator q) construct
  rw [hid] at hnode
  rw [factorAt, factorWith, factorOver, bind_of_ok (get_apply construct c), kind_bind_of_kind hkind]
  refine (bind_of_ok hrun).trans ((kind_bind_of_kind rfl).trans ?_)
  rw [if_neg hb', hnode]

/-- A negation is read with one unit of budget more than its factor. -/
theorem not_reads (ht : t.kind = word .NOT) (he : (factorAt n).Reads k ts e k' EndsFactor) :
    (factorAt (n + 1)).Reads k (t :: ts) ⟨k', .not e, extent (t :: ts)⟩ (k' + 1) EndsFactor := by
  intro construct c rest hc hk hf
  have hkind : c.kind = word .NOT := (Cursor.kind_of_rest hc).trans ht
  obtain ⟨d, hrun, htakes, hd, hid⟩ :=
    he construct (Cursor.rest_advance_of_rest hc) (by rw [nextId_advance, hk]) hf
  have hall := (Cursor.takes_of_rest hc).trans htakes
  refine ⟨{ d with nextId := k' + 1 }, ?_, hall.withId _, hd, rfl⟩
  have hnode := node_of_takes hall (List.cons_ne_nil _ _) (.not e) construct
  rw [hid] at hnode
  rw [factorAt, factorWith, factorOver, bind_of_ok (get_apply construct c), kind_bind_of_kind hkind]
  exact (bind_of_ok (advance_apply construct c)).trans ((bind_of_ok hrun).trans hnode)

/-- Parentheses around an expression. -/
theorem parentheses_reads {opener closer : Token} (ho : opener.kind = symbol .openParen)
    (he : (exprWith (factorAt n)).Reads k ts e k' EndsExpr)
    (hc : closer.kind = symbol .closeParen) :
    (factorAt (n + 1)).Reads k (opener :: (ts ++ [closer]))
      { e with span := extent (opener :: (ts ++ [closer])) } k' EndsFactor := by
  intro construct c rest hrest hk _
  rw [List.cons_append, List.append_assoc] at hrest
  have hkind : c.kind = symbol .openParen := (Cursor.kind_of_rest hrest).trans ho
  -- Inside, the expression is followed by the parenthesis.
  have hends : EndsExpr (upcoming ((closer :: rest).map Token.kind)) := by
    rw [List.map_cons, upcoming_cons, hc]
    decide
  obtain ⟨d, hrun, htakes, hd, hid⟩ :=
    he .parentheses (Cursor.rest_advance_of_rest hrest) (by rw [nextId_advance, hk]) hends
  have hclose : d.kind = Bracket.parentheses.closer := (Cursor.kind_of_rest hd).trans hc
  have hall := (Cursor.takes_of_rest hrest).trans (htakes.trans (Cursor.takes_of_rest hd))
  refine ⟨d.advance, ?_, hall, Cursor.rest_advance_of_rest hd, by rw [nextId_advance, hid]⟩
  -- The span is made of the first token and of the end of the last one.
  have hspan : Span.mk c.token.span.start d.advance.lastEnd = extent (opener :: (ts ++ [closer])) :=
    hall.extent_eq (List.cons_ne_nil _ _)
  rw [← hspan, factorAt, factorWith, factorOver, bind_of_ok (get_apply construct c), kind_bind_of_kind hkind]
  refine (bind_of_ok (advance_apply construct c)).trans ?_
  rw [within_apply, bind_of_ok hrun, bind_of_ok (close_of_kind hclose)]
  rfl

/-- The elements of a set are read up to the closing brace. -/
theorem elementsWith_reads {l : List RangeItem} (hl : Forms k ts (.elements l) k')
    (h : IsRead k ts k' (.elements l)) (hn : ts.length ≤ n) :
    (elementsWith (factorAt n)).Reads k ts l k' (· = symbol .closeBrace) := by
  intro construct c rest hc hk hf
  cases l with
  | nil =>
    obtain ⟨rfl, rfl⟩ := h
    have hkind : c.kind = Bracket.setConstructor.closer := by
      rwa [Cursor.kind_eq_upcoming, Cursor.kinds, hc]
    refine ⟨c, ?_, .refl c, hc, hk⟩
    rw [elementsWith, elementsOver, kind_bind_of_kind hkind]
    rfl
  | cons r l =>
    -- an element does not begin with a brace that closes
    have hkind : c.kind ≠ Bracket.setConstructor.closer := by
      obtain ⟨q, w, hw, hq⟩ := isElement_begins.separated (IsElements.separated hl.grammar)
      rw [Cursor.kind_eq_upcoming, Cursor.kinds_of_rest hc, hw]
      rintro rfl
      cases hq
    obtain ⟨d, c', hrun, -, hmore, htakes, hrest, hid⟩ := h n hn construct hc hk hf
    refine ⟨c', ?_, htakes, hrest, hid⟩
    rw [elementsWith, elementsOver, ← rangeItemWith, kind_bind_of_kind rfl, if_neg hkind, sepBy]
    rw [bind_of_ok ((bind_of_ok hrun).trans ((bind_of_ok (remaining_apply _ d)).trans
      (bind_of_ok (hmore _ (Nat.le_refl _)))))]
    rfl

/-- A set is read from its opening brace on, behind the set type in front of it. -/
theorem setWith_reads {opener closer : Token} {l : List RangeItem} {base : Option Qualident}
    {construct : Construct} {c d : Cursor} {rest : List Token} (hu : c.Takes u d)
    (hd : d.rest = opener :: (ts ++ closer :: rest)) (hk : d.nextId = k)
    (ho : opener.kind = symbol .openBrace)
    (hl : (elementsWith (factorAt n)).Reads k ts l k' (· = symbol .closeBrace))
    (hc : closer.kind = symbol .closeBrace) :
    ∃ c', setWith (factorAt n) base c.token.span.start construct d =
        .ok ⟨k', .set base l, extent (u ++ opener :: (ts ++ [closer]))⟩ c' ∧
      c.Takes (u ++ opener :: (ts ++ [closer])) c' ∧ c'.rest = rest ∧ c'.nextId = k' + 1 := by
  have hkind : d.kind = Bracket.setConstructor.opener := (Cursor.kind_of_rest hd).trans ho
  obtain ⟨d', hrun, htakes, hd', hid⟩ := hl .setConstructor (Cursor.rest_advance_of_rest hd)
    (by rw [nextId_advance, hk]) (by rw [List.map_cons, upcoming_cons, hc])
  have hclose : d'.kind = Bracket.setConstructor.closer := (Cursor.kind_of_rest hd').trans hc
  -- The tokens of the set, with those of its type in front.
  have hall := hu.trans ((Cursor.takes_of_rest hd).trans (htakes.trans (Cursor.takes_of_rest hd')))
  refine ⟨{ d'.advance with nextId := k' + 1 }, ?_, hall.withId _, Cursor.rest_advance_of_rest hd', rfl⟩
  -- Its span reaches over all of them.
  have hspan : Span.mk c.token.span.start d'.advance.lastEnd =
      extent (u ++ opener :: (ts ++ [closer])) :=
    hall.extent_eq (List.append_ne_nil_of_right_ne_nil _ (List.cons_ne_nil _ _))
  rw [← hspan, ← hid, ← nextId_advance d', setWith, setOver, ← elementsWith, within_apply,
    bind_of_ok (expect_of_kind hkind), bind_of_ok hrun, bind_of_ok (close_of_kind hclose)]
  rfl

/-- A set without a type. -/
theorem set_reads {opener closer : Token} {l : List RangeItem} (ho : opener.kind = symbol .openBrace)
    (hl : (elementsWith (factorAt n)).Reads k ts l k' (· = symbol .closeBrace))
    (hc : closer.kind = symbol .closeBrace) :
    (factorAt (n + 1)).Reads k (opener :: (ts ++ [closer]))
      ⟨k', .set none l, extent (opener :: (ts ++ [closer]))⟩ (k' + 1) EndsFactor := by
  intro construct c rest hrest hk _
  rw [List.cons_append, List.append_assoc] at hrest
  have hkind : c.kind = symbol .openBrace := (Cursor.kind_of_rest hrest).trans ho
  rw [factorAt, factorWith, factorOver, bind_of_ok (get_apply construct c), kind_bind_of_kind hkind]
  exact setWith_reads (.refl c) hrest hk ho hl hc

/-- A set with its type, which is read as a name first. -/
theorem typedSet_reads {opener closer : Token} {base : Qualident} {l : List RangeItem}
    (hname : FormsName u base) (ho : opener.kind = symbol .openBrace)
    (hl : (elementsWith (factorAt n)).Reads k ts l k' (· = symbol .closeBrace))
    (hc : closer.kind = symbol .closeBrace) :
    (factorAt (n + 1)).Reads k (u ++ opener :: (ts ++ [closer]))
      ⟨k', .set (some base) l, extent (u ++ opener :: (ts ++ [closer]))⟩ (k' + 1) EndsFactor := by
  intro construct c rest hrest hk _
  rw [List.append_assoc, List.cons_append, List.append_assoc] at hrest
  obtain ⟨text, hkind⟩ := hname.kind_of_rest hrest
  -- A brace behind the name is no period, so the name ends there.
  have hfollow : upcoming ((opener :: (ts ++ ([closer] ++ rest))).map Token.kind) ≠ symbol .period := by
    rw [List.map_cons, upcoming_cons, ho]
    decide
  obtain ⟨d, hrun, hu, hd, hid⟩ := qualident_reads hname construct hrest hk hfollow
  have hbrace : d.kind = Bracket.setConstructor.opener := (Cursor.kind_of_rest hd).trans ho
  obtain ⟨c', hset, hall⟩ := setWith_reads hu hd hid ho hl hc
  refine ⟨c', ?_, hall⟩
  rw [factorAt, factorWith, factorOver, bind_of_ok (get_apply construct c), kind_bind_of_kind hkind]
  exact (bind_of_ok hrun).trans ((kind_bind_of_kind hbrace).trans hset)

/-! ## Expressions

  Operations are reached by a loop that has begun further left, so the left operand is not read by a call
  of its own.  `Reaches` says that the loop gets there. -/

/-- A term does not begin with a sign. -/
theorem unsigned_reads (ht : Forms k ts (.term e) k')
    (h : (termWith (factorAt n)).Reads k ts e k' EndsTerm) :
    (signedTermWith (factorAt n)).Reads k ts e k' EndsTerm := by
  intro construct c rest hc hk hf
  obtain ⟨c', hrun, hall⟩ := h construct hc hk hf
  refine ⟨c', ?_, hall⟩
  -- a term does not begin with a sign, so none is taken
  have hsign : Sign.ofKind? c.kind = none := by
    obtain ⟨q, w, hw, hq⟩ := isTerm_begins ht.grammar
    rw [Cursor.kind_eq_upcoming, Cursor.kinds_of_rest hc, hw]
    exact sign_of_beginsFactor hq
  rw [signedTermWith, kind_bind_of_kind rfl, hsign]
  exact hrun

/-- A sign in front of a term. -/
theorem sign_reads {s : Sign} (ht : Sign.ofKind? t.kind = some s)
    (h : (termWith (factorAt n)).Reads k ts e k' EndsTerm) :
    (signedTermWith (factorAt n)).Reads k (t :: ts)
      ⟨k', .signed s e, ⟨t.span.start, e.span.stop⟩⟩ (k' + 1) EndsTerm := by
  intro construct c rest hc hk hf
  have hkind : c.kind = t.kind := Cursor.kind_of_rest hc
  obtain ⟨d, hrun, htakes, hd, hid⟩ :=
    h construct (Cursor.rest_advance_of_rest hc) (by rw [nextId_advance, hk]) hf
  refine ⟨{ d with nextId := k' + 1 }, ?_, ((Cursor.takes_of_rest hc).trans htakes).withId _, hd, rfl⟩
  rw [signedTermWith, kind_bind_of_kind hkind, ht, ← Cursor.token_of_rest hc, ← hid]
  exact (bind_of_ok (advance_apply construct c)).trans (bind_of_ok hrun)

/-- A simple expression without a relation behind it. -/
theorem ofSimple_reads (h : (simpleWith (factorAt n)).Reads k ts e k' EndsSimple) :
    (exprWith (factorAt n)).Reads k ts e k' EndsExpr := by
  rintro construct c rest hc hk ⟨hf, hno⟩
  obtain ⟨c', hrun, htakes, hrest, hid⟩ := h construct hc hk hf
  refine ⟨c', ?_, htakes, hrest, hid⟩
  have hnone : Operator.ofKindAt? .relational c'.kind = none := by
    rwa [Cursor.kind_eq_upcoming, Cursor.kinds, hrest]
  rw [exprWith, bind_of_ok hrun, kind_bind_of_kind rfl, hnone]
  rfl

/-- Where no relation follows, the look for one ends without an error. -/
theorem noRelation_of_none {construct : Construct} {c : Cursor}
    (h : Operator.ofKindAt? .relational c.kind = none) : noRelation construct c = .ok () c := by
  have hnot : ¬ (Operator.ofKindAt? .relational c.kind).isSome = true := by simp [h]
  rw [noRelation, kind_bind_of_kind rfl, if_neg hnot]
  rfl

/-- A relation between two simple expressions, with no second one behind it. -/
theorem relation_reads {op : Operator} (hl : (simpleWith (factorAt n)).Reads k u lhs k₁ EndsSimple)
    (hop : Operator.ofKindAt? .relational t.kind = some op)
    (hr : (simpleWith (factorAt n)).Reads k₁ v rhs k₂ EndsSimple) :
    (exprWith (factorAt n)).Reads k (u ++ t :: v)
      ⟨k₂, .binary op t.span lhs rhs, ⟨lhs.span.start, rhs.span.stop⟩⟩ (k₂ + 1) EndsExpr := by
  rintro construct c rest hc hk ⟨hf, hno⟩
  rw [List.append_assoc, List.cons_append] at hc
  obtain ⟨d, hrun, hu, hd, hid⟩ := hl construct hc hk (endsSimple_of_relational hop)
  have hkind : d.kind = t.kind := Cursor.kind_of_rest hd
  obtain ⟨d', hrun', hv, hd', hid'⟩ :=
    hr construct (Cursor.rest_advance_of_rest hd) (by rw [nextId_advance, hid]) hf
  refine ⟨{ d' with nextId := k₂ + 1 }, ?_,
    hu.trans ((Cursor.takes_of_rest hd).trans (hv.withId _)), hd', rfl⟩
  have hnone : Operator.ofKindAt? .relational d'.kind = none := by
    rwa [Cursor.kind_eq_upcoming, Cursor.kinds, hd']
  -- The look for a second relation finds none.
  have hlook : noRelation construct { d' with nextId := d'.nextId + 1 } = .ok () _ :=
    noRelation_of_none hnone
  rw [exprWith, bind_of_ok hrun, kind_bind_of_kind hkind, hop, ← Cursor.token_of_rest hd, ← hid']
  exact (bind_of_ok (advance_apply construct d)).trans ((bind_of_ok hrun').trans (bind_of_ok hlook))

/-! ## Elements

  By induction on how the tokens form the part, the lemmas above are its cases. -/

/-- An element of one bound, in front of something else than an ellipsis. -/
theorem one_reads (h : (exprWith (factorAt n)).Reads k ts e k' EndsExpr) :
    (rangeItemWith (factorAt n)).Reads k ts ⟨e, none, e.span⟩ k' EndsElement := by
  rintro construct c rest hc hk ⟨hf, hno⟩
  obtain ⟨c', hrun, htakes, hrest, hid⟩ := h construct hc hk hf
  refine ⟨c', ?_, htakes, hrest, hid⟩
  have hkind : c'.kind ≠ symbol .ellipsis := by
    rwa [Cursor.kind_eq_upcoming, Cursor.kinds, hrest]
  rw [rangeItemWith, rangeItemOver, bind_of_ok hrun, bind_of_ok (accept_of_kind_ne hkind)]
  rfl

/-- An element of two bounds. -/
theorem range_reads (hl : (exprWith (factorAt n)).Reads k u lhs k₁ EndsExpr)
    (ht : t.kind = symbol .ellipsis) (hr : (exprWith (factorAt n)).Reads k₁ v rhs k₂ EndsExpr) :
    (rangeItemWith (factorAt n)).Reads k (u ++ t :: v) ⟨lhs, some rhs, lhs.span.join rhs.span⟩ k₂
      EndsElement := by
  rintro construct c rest hc hk ⟨hf, -⟩
  rw [List.append_assoc, List.cons_append] at hc
  have hends : EndsExpr (upcoming ((t :: (v ++ rest)).map Token.kind)) := by
    rw [List.map_cons, upcoming_cons, ht]
    decide
  obtain ⟨d, hrun, hu, hd, hid⟩ := hl construct hc hk hends
  have hkind : d.kind = symbol .ellipsis := (Cursor.kind_of_rest hd).trans ht
  obtain ⟨d', hrun', hv, hd', hid'⟩ :=
    hr construct (Cursor.rest_advance_of_rest hd) (by rw [nextId_advance, hid]) hf
  refine ⟨d', ?_, hu.trans ((Cursor.takes_of_rest hd).trans hv), hd', hid'⟩
  rw [rangeItemWith, rangeItemOver, bind_of_ok hrun, bind_of_ok (accept_of_kind hkind)]
  exact bind_of_ok hrun'

/-- Behind the last element stands the closing brace. -/
theorem last_reads {r : RangeItem} (h : (rangeItemWith (factorAt n)).Reads k ts r k' EndsElement) :
    ReadsElements (rangeItemWith (factorAt n)) k ts r [] k' := by
  intro construct c rest hc hk hf
  obtain ⟨d, hrun, htakes, hd, hid⟩ := h construct hc hk (by rw [hf]; decide)
  have hkind : d.kind ≠ symbol .comma := by
    rw [Cursor.kind_eq_upcoming, Cursor.kinds, hd, hf]
    decide
  refine ⟨d, d, hrun, htakes.remaining_le, fun budget _ => ?_, htakes, hd, hid⟩
  cases budget with
  | zero => rfl
  | succ budget =>
    rw [moreAfter, bind_of_ok (accept_of_kind_ne hkind)]
    rfl

/-- One element more in front. -/
theorem more_reads {r r' : RangeItem} {l : List RangeItem}
    (hr : (rangeItemWith (factorAt n)).Reads k u r k₁ EndsElement) (ht : t.kind = symbol .comma)
    (hl : ReadsElements (rangeItemWith (factorAt n)) k₁ v r' l k₂) :
    ReadsElements (rangeItemWith (factorAt n)) k (u ++ t :: v) r (r' :: l) k₂ := by
  intro construct c rest hc hk hf
  rw [List.append_assoc, List.cons_append] at hc
  have hends : EndsElement (upcoming ((t :: (v ++ rest)).map Token.kind)) := by
    rw [List.map_cons, upcoming_cons, ht]
    decide
  obtain ⟨d, hrun, hu, hd, hid⟩ := hr construct hc hk hends
  have hkind : d.kind = symbol .comma := (Cursor.kind_of_rest hd).trans ht
  obtain ⟨d', c', hrun', hle, hmore, hv, hc', hid'⟩ :=
    hl construct (Cursor.rest_advance_of_rest hd) (by rw [nextId_advance, hid]) hf
  refine ⟨d, c', hrun, hu.remaining_le, fun budget hb => ?_,
    hu.trans ((Cursor.takes_of_rest hd).trans hv), hc', hid'⟩
  -- the comma is a token too, so the budget covers what is behind the next element
  have hlt : d.remaining = d.advance.remaining + 1 := by
    rw [Cursor.remaining, Cursor.remaining, Cursor.rest_advance_of_rest hd, hd, List.length_cons]
  obtain ⟨budget, rfl⟩ : ∃ b, budget = b + 1 := ⟨budget - 1, by omega⟩
  rw [moreAfter, bind_of_ok (accept_of_kind hkind), if_pos rfl, bind_of_ok hrun',
    bind_of_ok (hmore budget (by omega))]
  rfl

end

/-- Whatever is formed is read. -/
theorem isRead_of_forms {k k' : Nat} {ts : List Token} {part : ExprPart} (h : Forms k ts part k') :
    IsRead k ts k' part := by
  induction h with
  | literal hkind =>
    intro n hn
    obtain ⟨n, rfl⟩ : ∃ m, n = m + 1 := ⟨n - 1, by simp at hn; omega⟩
    exact literal_reads hkind
  | @designator _ ts _ hname =>
    intro n hn
    have hpos := List.length_pos_of_ne_nil hname.ne_nil
    obtain ⟨n, rfl⟩ : ∃ m, n = m + 1 := ⟨n - 1, by omega⟩
    exact designator_reads hname
  | set ho hl hc ih =>
    intro n hn
    obtain ⟨n, rfl⟩ : ∃ m, n = m + 1 := ⟨n - 1, by simp at hn; omega⟩
    exact set_reads ho (elementsWith_reads hl ih (by simp at hn; omega)) hc
  | typedSet hname ho hl hc ih =>
    intro n hn
    obtain ⟨n, rfl⟩ : ∃ m, n = m + 1 := ⟨n - 1, by simp at hn; omega⟩
    exact typedSet_reads hname ho (elementsWith_reads hl ih (by simp at hn; omega)) hc
  | parentheses ho _ hc ih =>
    intro n hn
    obtain ⟨n, rfl⟩ : ∃ m, n = m + 1 := ⟨n - 1, by simp at hn; omega⟩
    exact parentheses_reads ho (ih n (by simp at hn; omega)) hc
  | not ht _ ih =>
    intro n hn
    obtain ⟨n, rfl⟩ : ∃ m, n = m + 1 := ⟨n - 1, by simp at hn; omega⟩
    exact not_reads ht (ih n (by simp at hn; omega))
  | ofFactor _ ih => exact fun n hn => (ih n hn).reaches
  | ofTerm ht ih => exact fun n hn => unsigned_reads ht (termWith_reads (ih n hn))
  | sign ht _ ih =>
    intro n hn
    exact sign_reads ht (termWith_reads (ih n (by simp at hn; omega)))
  | ofSigned _ ih => exact fun n hn => (ih n hn).reaches
  | ofSimple _ ih => exact fun n hn => ofSimple_reads (simpleWith_reads (ih n hn))
  | @operation level _ _ _ _ _ _ _ _ _ _ hop _ ihl ihr =>
    cases level with
    | multiplicative =>
      intro n hn
      rw [List.length_append, List.length_cons] at hn
      exact (ihl n (by omega)).operation (fun _ _ => endsFactor_of_operator) hop (ihr n (by omega))
    | additive =>
      intro n hn
      rw [List.length_append, List.length_cons] at hn
      have hr := termWith_reads (ihr n (by omega))
      exact (ihl n (by omega)).operation (fun _ _ => endsTerm_of_additive) hop hr
    | relational =>
      intro n hn
      rw [List.length_append, List.length_cons] at hn
      have hl := simpleWith_reads (ihl n (by omega))
      exact relation_reads hl hop (simpleWith_reads (ihr n (by omega)))
  | one _ ih => exact fun n hn => one_reads (ih n hn)
  | range _ ht _ ihl ihr =>
    intro n hn
    rw [List.length_append, List.length_cons] at hn
    exact range_reads (ihl n (by omega)) ht (ihr n (by omega))
  | none => exact ⟨rfl, rfl⟩
  | last _ ih => exact fun n hn => last_reads (ih n hn)
  | more _ ht _ ihr ihl =>
    intro n hn
    rw [List.length_append, List.length_cons] at hn
    exact more_reads (ihr n (by omega)) ht (ihl n (by omega))

/-- An expression is read wherever its tokens stand. -/
theorem expr_reads {k k' : Nat} {ts : List Token} {e : Expr} (h : Forms k ts (.whole e) k') :
    expr.Reads k ts e k' EndsExpr := by
  intro construct c rest hc hk hf
  have hn : ts.length ≤ c.remaining := by
    rw [Cursor.remaining, hc, List.length_append]
    exact Nat.le_add_right _ _
  obtain ⟨c', hrun, hall⟩ := isRead_of_forms h c.remaining hn construct hc hk hf
  exact ⟨c', (bind_of_ok (remaining_apply construct c)).trans hrun, hall⟩

/-- With all tokens for a budget, labels and elements are read as they are formed. -/
theorem rangeItem_reads {k k' : Nat} {ts : List Token} {r : RangeItem}
    (h : Forms k ts (.element r) k') : rangeItem.Reads k ts r k' EndsElement := by
  intro construct c rest hc hk hf
  have hn : ts.length ≤ c.remaining := by
    rw [Cursor.remaining, hc, List.length_append]
    exact Nat.le_add_right _ _
  obtain ⟨c', hrun, hall⟩ := isRead_of_forms h c.remaining hn construct hc hk hf
  exact ⟨c', (bind_of_ok (remaining_apply construct c)).trans hrun, hall⟩

end Parser

end Modula

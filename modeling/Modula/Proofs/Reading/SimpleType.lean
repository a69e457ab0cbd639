import Modula.Parser.TypeExpr
import Modula.Proofs.Grammar.TypeExpr
import Modula.Proofs.Reading.Expr
/-!
# What the parsers of flat types read

  Simple types, the parameters of procedure types and the tags of variant parts hold no types of their
  own, so their parsers need no budget.

  A tag may be a name with a colon or a qualified name without one.  Which of them it is turns out
  behind the name, and a qualified name with a colon is refused.
-/

namespace Modula.Parser

open Token.Kind (word symbol)

/-! ## Simple types -/

/-- At a parenthesis, an enumeration takes it, a list of names and the parenthesis closing it. -/
theorem enumeration_readsOnly {construct : Construct} {c c' : Cursor} {kind : TypeKind}
    (hk : c.kind = symbol .openParen) (h : enumeration construct c = .ok kind c') :
    ∃ w names, c.kinds = symbol .openParen :: (w ++ symbol .closeParen :: c'.kinds) ∧
      IsIdentList w names ∧ kind.relabel .forget = .enumeration names := by
  obtain ⟨opener, _, h₁, h₂⟩ := bind_eq_ok.1 h
  cases h₁
  obtain ⟨names, d, h₃, h₄⟩ := bind_eq_ok.1 h₂
  obtain ⟨w, hw, hn⟩ := identList_readsOnly h₃
  obtain ⟨_, _, h₅, h₆⟩ := bind_eq_ok.1 h₄
  obtain ⟨hk', rfl⟩ := close_eq_ok h₅
  cases h₆
  refine ⟨w, _, ?_, hn, rfl⟩
  rw [Cursor.kinds_of_kind hk nofun, hw, Cursor.kinds_of_kind hk' nofun]
  rfl

/-- At a bracket, a subrange takes two expressions with an ellipsis between them, in brackets. -/
theorem subrange_readsOnly {construct : Construct} {c c' : Cursor} {kind : TypeKind}
    (hk : c.kind = symbol .openBracket) (h : subrange construct c = .ok kind c') :
    ∃ u v low high, c.kinds = symbol .openBracket ::
        (u ++ symbol .ellipsis :: (v ++ symbol .closeBracket :: c'.kinds)) ∧
      IsExpr u low ∧ IsExpr v high ∧ kind.relabel .forget = .subrange low high := by
  obtain ⟨opener, _, h₁, h₂⟩ := bind_eq_ok.1 h
  cases h₁
  -- Reading is followed step by step, each of which tells what it has taken.
  obtain ⟨low, d₁, h₃, h₄⟩ := bind_eq_ok.1 h₂
  obtain ⟨u, hu, hl⟩ := expr_readsOnly h₃
  obtain ⟨_, _, h₅, h₆⟩ := bind_eq_ok.1 h₄
  obtain ⟨hk₁, rfl⟩ := expect_eq_ok h₅
  obtain ⟨high, d₂, h₇, h₈⟩ := bind_eq_ok.1 h₆
  obtain ⟨v, hv, hh⟩ := expr_readsOnly h₇
  obtain ⟨_, _, h₉, h₁₀⟩ := bind_eq_ok.1 h₈
  obtain ⟨hk₂, rfl⟩ := close_eq_ok h₉
  cases h₁₀
  refine ⟨u, v, _, _, ?_, hl, hh, rfl⟩
  rw [Cursor.kinds_of_kind hk nofun, hu, Cursor.kinds_of_kind hk₁ nofun, hv,
    Cursor.kinds_of_kind hk₂ nofun]
  rfl

/-- Whatever was read as a simple type is one of the three phrases, and the tree is its own. -/
theorem simpleType_readsOnly : ReadsOnly simpleType (TypeExpr.relabel .forget) IsSimpleType := by
  intro construct c t c' h
  obtain ⟨_, _, h₁, h₂⟩ := bind_eq_ok.1 h
  cases h₁
  obtain ⟨_, hq, h₃⟩ := kind_bind_eq_ok h₂
  split at hq <;> subst hq
  -- a name, a parenthesis, a bracket, and any other token
  · obtain ⟨name, d, h₄, h₅⟩ := bind_eq_ok.1 h₃
    cases h₅
    obtain ⟨w, hw, hn⟩ := qualident_readsOnly h₄
    exact ⟨w, hw, .named hn⟩
  · next hk =>
    obtain ⟨kind, d, h₄, h₅⟩ := bind_eq_ok.1 h₃
    cases h₅
    obtain ⟨w, names, hw, hn, hkind⟩ := enumeration_readsOnly hk h₄
    refine ⟨symbol .openParen :: (w ++ [symbol .closeParen]), ?_, ?_⟩
    · rw [hw, List.cons_append, List.append_assoc]
      rfl
    · rw [TypeExpr.relabel, hkind]
      exact .enumeration hn
  · next hk =>
    obtain ⟨kind, d, h₄, h₅⟩ := bind_eq_ok.1 h₃
    cases h₅
    obtain ⟨u, v, low, high, hw, hl, hh, hkind⟩ := subrange_readsOnly hk h₄
    refine ⟨symbol .openBracket :: (u ++ symbol .ellipsis :: (v ++ [symbol .closeBracket])), ?_, ?_⟩
    · rw [hw, List.cons_append, List.append_assoc, List.cons_append, List.append_assoc]
      rfl
    · rw [TypeExpr.relabel, hkind]
      exact .subrange hl hh
  · exact absurd h₃ fail_ne_ok

/-- The other way: every enumeration is read, and reading stops behind its parenthesis. -/
theorem enumeration_readsAll (construct : Construct) {c : Cursor} {w rest : List Token.Kind}
    {names : IdentList} (hc : c.kinds = symbol .openParen :: (w ++ symbol .closeParen :: rest))
    (hw : IsIdentList w names) :
    ∃ kind c', enumeration construct c = .ok kind c' ∧
      kind.relabel .forget = .enumeration names ∧ c'.kinds = rest := by
  obtain ⟨names, d, h, rfl, hd⟩ := identList_readsAll _ .enumeration
    (Cursor.kinds_advance_of_kinds hc) hw (Nat.le_refl _) nofun
  -- the parenthesis ends the list of names, and no name is left over
  refine ⟨.enumeration names, d.advance, ?_, rfl, Cursor.kinds_advance_of_kinds hd⟩
  rw [enumeration, within_apply, bind_of_ok (advance_apply _ c), bind_of_ok h,
    bind_of_ok (close_of_kind (Cursor.kind_of_kinds hd))]
  rfl

/-- Both bounds are read to their ends, since no expression goes on at an ellipsis or a bracket. -/
theorem subrange_readsAll (construct : Construct) {c : Cursor} {u v rest : List Token.Kind}
    {low high : Expr} (hc : c.kinds = symbol .openBracket ::
      (u ++ symbol .ellipsis :: (v ++ symbol .closeBracket :: rest)))
    (hu : IsExpr u low) (hv : IsExpr v high) :
    ∃ kind c', subrange construct c = .ok kind c' ∧
      kind.relabel .forget = .subrange low high ∧ c'.kinds = rest := by
  -- The ellipsis ends the first bound, and the bracket ends the second one.
  obtain ⟨low, d, h₁, rfl, hd⟩ := expr_readsAll _ .subrangeType
    (Cursor.kinds_advance_of_kinds hc) hu (Nat.le_refl _)
    (show EndsExpr (symbol .ellipsis) by decide)
  obtain ⟨high, d', h₂, rfl, hd'⟩ := expr_readsAll _ .subrangeType
    (Cursor.kinds_advance_of_kinds hd) hv (Nat.le_refl _)
    (show EndsExpr (symbol .closeBracket) by decide)
  refine ⟨.subrange low high, d'.advance, ?_, rfl, Cursor.kinds_advance_of_kinds hd'⟩
  rw [subrange, within_apply, bind_of_ok (advance_apply _ c), bind_of_ok h₁,
    bind_of_ok (expect_of_kind (Cursor.kind_of_kinds hd)), bind_of_ok h₂,
    bind_of_ok (close_of_kind (Cursor.kind_of_kinds hd'))]
  rfl

/-- Every simple type is read, if no period comes behind it that would lengthen a name. -/
theorem simpleType_readsAll (n : Nat) :
    ReadsAll n simpleType (TypeExpr.relabel .forget) IsSimpleType (· ≠ symbol .period) := by
  intro construct c w t rest hc hw hn hr
  -- whatever kind of type is read, its node is made behind it
  have node : ∀ {p : Parser TypeKind} {kind : TypeKind} {d : Cursor},
      p construct c = .ok kind d → d.kinds = rest →
      ∃ t c', (do typeNode (← p) c.token.span.start) construct c = .ok t c' ∧
        t.relabel .forget = ⟨0, kind.relabel .forget, .nowhere⟩ ∧ c'.kinds = rest := by
    intro p kind d h hd
    exact ⟨⟨d.nextId, kind, ⟨c.token.span.start, d.lastEnd⟩⟩, { d with nextId := d.nextId + 1 },
      bind_of_ok h, rfl, hd⟩
  -- the first token of each of the three phrases leads to its own branch
  cases hw with
  | named hw =>
    obtain ⟨text, hk⟩ := Cursor.kind_of_isQualident hw hc
    obtain ⟨q, d, h, rfl, hd⟩ := qualident_readsAll n construct hc hw hn hr
    rw [simpleType, bind_of_ok (get_apply construct c), kind_bind_of_kind hk]
    exact ⟨⟨d.nextId, .named q, ⟨c.token.span.start, d.lastEnd⟩⟩,
      { d with nextId := d.nextId + 1 }, bind_of_ok h, rfl, hd⟩
  | enumeration hw =>
    rw [List.cons_append, List.append_assoc] at hc
    obtain ⟨kind, d, h, hkind, hd⟩ := enumeration_readsAll construct hc hw
    rw [simpleType, bind_of_ok (get_apply construct c), kind_bind_of_kind (Cursor.kind_of_kinds hc),
      ← hkind]
    exact node h hd
  | subrange hu hv =>
    rw [List.cons_append, List.append_assoc, List.cons_append, List.append_assoc] at hc
    obtain ⟨kind, d, h, hkind, hd⟩ := subrange_readsAll construct hc hu hv
    rw [simpleType, bind_of_ok (get_apply construct c), kind_bind_of_kind (Cursor.kind_of_kinds hc),
      ← hkind]
    exact node h hd

/-! ## Parameters of procedure types -/

/-- A formal type that was read has its marks in front, those that the tree tells of. -/
theorem formal_readsOnly : ReadsOnly formal (FormalType.relabel .forget) IsFormal := by
  intro construct c p c' h
  obtain ⟨_, _, h₁, h₂⟩ := bind_eq_ok.1 h
  cases h₁
  obtain ⟨isVar, d, h₃, h₄⟩ := bind_eq_ok.1 h₂
  obtain ⟨isOpenArray, d₁, h₅, h₆⟩ := bind_eq_ok.1 h₄
  -- each of the two marks is there or not, independently of the other
  have hv : c.kinds = (if isVar then [word .VAR] else []) ++ d.kinds := by
    rcases accept_eq_ok h₃ with ⟨rfl, hk, rfl⟩ | ⟨rfl, -, rfl⟩
    · exact Cursor.kinds_of_kind hk nofun
    · rfl
  obtain ⟨d₂, ha, h₇⟩ : ∃ d₂ : Cursor, d.kinds =
      (if isOpenArray then [word .ARRAY, word .OF] else []) ++ d₂.kinds ∧
      (do
        let type ← qualident
        return (⟨isVar, isOpenArray, type, ⟨c.token.span.start, ← lastEnd⟩⟩ : FormalType) :
        Parser FormalType) construct d₂ = .ok p c' := by
    rcases accept_eq_ok h₅ with ⟨rfl, hk, rfl⟩ | ⟨rfl, -, rfl⟩
    · obtain ⟨_, d₂, h₇, h₈⟩ := bind_eq_ok.1 h₆
      obtain ⟨hk', rfl⟩ := expect_eq_ok h₇
      refine ⟨d.advance.advance, ?_, h₈⟩
      rw [Cursor.kinds_of_kind hk nofun, Cursor.kinds_of_kind hk' nofun]
      rfl
    · exact ⟨d₁, rfl, h₆⟩
  obtain ⟨type, d₃, h₈, h₉⟩ := bind_eq_ok.1 h₇
  cases h₉
  obtain ⟨w, hw, ht⟩ := qualident_readsOnly h₈
  refine ⟨formalMode isVar isOpenArray ++ w, ?_, .formal isVar isOpenArray ht⟩
  rw [hv, ha, hw, formalMode, List.append_assoc, List.append_assoc]

/-- Nothing is taken in front of the closing parenthesis, and else a list of formal types. -/
theorem formalParams_readsOnly :
    ReadsOnly formalParams (List.map (FormalType.relabel .forget)) IsFormalParams := by
  intro construct c l c' h
  obtain ⟨_, hq, h₁⟩ := kind_bind_eq_ok h
  split at hq <;> subst hq
  · cases h₁
    exact ⟨[], rfl, .none⟩
  · obtain ⟨⟨first, more⟩, d, h₂, h₃⟩ := bind_eq_ok.1 h₁
    cases h₃
    obtain ⟨w, hw, hl⟩ := sepBy_readsOnly (by nofun) formal_readsOnly h₂
    exact ⟨w, hw, .some hl⟩

/-- A result is there exactly if the colon was. -/
theorem formalResult_readsOnly :
    ReadsOnly formalResult (Option.map (Qualident.relabel .forget)) IsFormalResult := by
  intro construct c result c' h
  obtain ⟨taken, d, h₁, h₂⟩ := bind_eq_ok.1 h
  rcases accept_eq_ok h₁ with ⟨rfl, hk, rfl⟩ | ⟨rfl, -, rfl⟩
  · obtain ⟨type, d', h₃, h₄⟩ := bind_eq_ok.1 h₂
    cases h₄
    obtain ⟨w, hw, ht⟩ := qualident_readsOnly h₃
    exact ⟨symbol .colon :: w, (Cursor.kinds_of_kind hk nofun).trans (congrArg _ hw), .some ht⟩
  · cases h₂
    exact ⟨[], rfl, .none⟩

/-- Parameters in parentheses, and behind them the result. -/
theorem formals_readsOnly : ReadsOnly formals (FormalTypes.relabel .forget) IsFormals := by
  intro construct c f c' h
  obtain ⟨opener, _, h₁, h₂⟩ := bind_eq_ok.1 h
  obtain ⟨hk, rfl⟩ := expect_eq_ok h₁
  obtain ⟨params, d, h₃, h₄⟩ := bind_eq_ok.1 h₂
  obtain ⟨u, hu, hp⟩ := formalParams_readsOnly h₃
  obtain ⟨_, _, h₅, h₆⟩ := bind_eq_ok.1 h₄
  obtain ⟨hk', rfl⟩ := close_eq_ok h₅
  obtain ⟨result, d', h₇, h₈⟩ := bind_eq_ok.1 h₆
  cases h₈
  obtain ⟨v, hv, hr⟩ := formalResult_readsOnly h₇
  refine ⟨symbol .openParen :: (u ++ symbol .closeParen :: v), ?_, .formals hp hr⟩
  rw [Cursor.kinds_of_kind hk nofun, hu, Cursor.kinds_of_kind hk' nofun, hv, List.cons_append,
    List.append_assoc, List.cons_append]
  rfl

/-- Every formal type is read.  The marks are optional, so it has to be seen that none is taken where
there is none: the name behind them is not one of their words. -/
theorem formal_readsAll (n : Nat) :
    ReadsAll n formal (FormalType.relabel .forget) IsFormal (· ≠ symbol .period) := by
  intro construct c w p rest hc hw hn hr
  cases hw with
  | @formal isVar isOpenArray w _ hw =>
    rw [formalMode, List.append_assoc, List.append_assoc] at hc
    -- behind the marks comes a name, which is neither of them
    obtain ⟨text, v, rfl⟩ : ∃ text v, w = .name text :: v := by
      obtain ⟨k, v, rfl, hk⟩ := isQualident_begins hw
      cases k <;> first | exact ⟨_, _, rfl⟩ | cases hk
    obtain ⟨d, h₁, hd⟩ : ∃ d, accept (word .VAR) construct c = .ok isVar d ∧
        d.kinds = (if isOpenArray then [word .ARRAY, word .OF] else []) ++
          (.name text :: v ++ rest) := by
      cases isVar
      · refine ⟨c, accept_of_kind_ne ?_, hc⟩
        -- without `ARRAY` the name follows at once, with it the word `OF` comes first
        cases isOpenArray <;> rw [Cursor.kind_of_kinds hc] <;> nofun
      · exact ⟨c.advance, accept_of_kind (Cursor.kind_of_kinds hc),
          Cursor.kinds_advance_of_kinds hc⟩
    cases isOpenArray
    · have hk : d.kind ≠ word .ARRAY := by
        rw [Cursor.kind_of_kinds hd]
        nofun
      have hd₁ : d.kinds = (.name text :: v) ++ rest := hd
      obtain ⟨q, d', h₂, rfl, hd'⟩ :=
        qualident_readsAll _ construct hd₁ hw (Nat.le_refl _) hr
      refine ⟨⟨isVar, false, q, ⟨c.token.span.start, d'.lastEnd⟩⟩, d', ?_, rfl, hd'⟩
      rw [formal, bind_of_ok (get_apply construct c)]
      exact (bind_of_ok h₁).trans ((bind_of_ok (accept_of_kind_ne hk)).trans (bind_of_ok h₂))
    · have hd₁ : d.advance.kinds = word .OF :: ((.name text :: v) ++ rest) :=
        Cursor.kinds_advance_of_kinds hd
      obtain ⟨q, d', h₂, rfl, hd'⟩ := qualident_readsAll _ construct
        (Cursor.kinds_advance_of_kinds hd₁) hw (Nat.le_refl _) hr
      refine ⟨⟨isVar, true, q, ⟨c.token.span.start, d'.lastEnd⟩⟩, d', ?_, rfl, hd'⟩
      rw [formal, bind_of_ok (get_apply construct c)]
      exact (bind_of_ok h₁).trans ((bind_of_ok (accept_of_kind (Cursor.kind_of_kinds hd))).trans
        ((bind_of_ok (expect_of_kind (Cursor.kind_of_kinds hd₁))).trans (bind_of_ok h₂)))

/-- An empty list of parameters is told from the others by the closing parenthesis, with which no formal
type begins. -/
theorem formalParams_readsAll (n : Nat) :
    ReadsAll n formalParams (List.map (FormalType.relabel .forget)) IsFormalParams
      (· = symbol .closeParen) := by
  intro construct c w l rest hc hw hn hr
  cases hw with
  -- Without parameters the closing bracket stands here, and it begins no parameter.
  | none =>
    have hk : c.kind = Bracket.formalParameters.closer := by rwa [Cursor.kind_eq_upcoming, hc]
    refine ⟨[], c, ?_, rfl, hc⟩
    rw [formalParams, kind_bind_of_kind hk]
    rfl
  | some hw =>
    obtain ⟨k, v, rfl, hk⟩ := isFormal_begins.separated hw
    obtain ⟨⟨first, more⟩, c', h, hl, hc'⟩ :=
      sepBy_readsAll (by decide) (formal_readsAll n) construct hc hw hn (by rw [hr]; decide)
    refine ⟨first :: more, c', ?_, hl, hc'⟩
    rw [formalParams, kind_bind_of_kind (Cursor.kind_of_kinds hc),
      if_neg (show ¬ k = Bracket.formalParameters.closer from hk), bind_of_ok h]
    rfl

/-- Without a result no colon may follow, for it would be taken for that of one. -/
theorem formalResult_readsAll (n : Nat) :
    ReadsAll n formalResult (Option.map (Qualident.relabel .forget)) IsFormalResult
      fun k => k ≠ symbol .period ∧ k ≠ symbol .colon := by
  rintro construct c w result rest hc hw hn ⟨hp, hr⟩
  cases hw with
  -- Without a result no colon follows.
  | none =>
    have hk : c.kind ≠ symbol .colon := by rwa [Cursor.kind_eq_upcoming, hc]
    exact ⟨none, c, bind_of_ok (accept_of_kind_ne hk), rfl, hc⟩
  | some hw =>
    obtain ⟨type, c', h, rfl, hc'⟩ := qualident_readsAll _ construct
      (Cursor.kinds_advance_of_kinds hc) hw (Nat.le_refl _) hp
    refine ⟨some type, c', ?_, rfl, hc'⟩
    rw [formalResult, bind_of_ok (accept_of_kind (Cursor.kind_of_kinds hc)), if_pos rfl,
      bind_of_ok h]
    rfl

/-- The whole of it ends with a parenthesis or with a name, whence both conditions on what follows. -/
theorem formals_readsAll (n : Nat) :
    ReadsAll n formals (FormalTypes.relabel .forget) IsFormals
      fun k => k ≠ symbol .period ∧ k ≠ symbol .colon := by
  intro construct c w f rest hc hw hn hr
  cases hw with
  | formals hu hv =>
    rw [List.cons_append, List.append_assoc, List.cons_append] at hc
    -- The parameters end at the bracket, and the result ends where the formals do.
    obtain ⟨params, d, h₁, rfl, hd⟩ := formalParams_readsAll _ .formalParameterList
      (Cursor.kinds_advance_of_kinds hc) hu (Nat.le_refl _) rfl
    obtain ⟨result, d', h₂, rfl, hd'⟩ := formalResult_readsAll _ .formalParameterList
      (Cursor.kinds_advance_of_kinds hd) hv (Nat.le_refl _) hr
    refine ⟨⟨params, result, ⟨c.token.span.start, d'.lastEnd⟩⟩, d', ?_, rfl, hd'⟩
    have hk : c.kind = Bracket.formalParameters.opener := Cursor.kind_of_kinds hc
    rw [formals, within_apply, bind_of_ok (expect_of_kind hk), bind_of_ok h₁,
      bind_of_ok (close_of_kind (Cursor.kind_of_kinds hd)), bind_of_ok h₂]
    rfl

/-! ## Tags -/

/-- A tag that was read is one of the three phrases; in particular no qualified name had a colon behind
it. -/
theorem tag_readsOnly :
    ReadsOnly tag (fun t => (t.1.map (Ident.relabel .forget), t.2.relabel .forget)) IsTag := by
  intro construct c t c' h
  obtain ⟨taken, d, h₁, h₂⟩ := bind_eq_ok.1 h
  rcases accept_eq_ok h₁ with ⟨rfl, hk, rfl⟩ | ⟨rfl, -, rfl⟩
  · obtain ⟨type, d', h₃, h₄⟩ := bind_eq_ok.1 h₂
    cases h₄
    obtain ⟨w, hw, ht⟩ := qualident_readsOnly h₃
    exact ⟨symbol .colon :: w, (Cursor.kinds_of_kind hk nofun).trans (congrArg _ hw), .unnamed ht⟩
  · obtain ⟨_, _, h₃, h₄⟩ := bind_eq_ok.1 h₂
    cases h₃
    obtain ⟨first, d₁, h₅, h₆⟩ := bind_eq_ok.1 h₄
    obtain ⟨u, hu, hf⟩ := qualident_readsOnly h₅
    obtain ⟨taken, d₂, h₇, h₈⟩ := bind_eq_ok.1 h₆
    rcases accept_eq_ok h₇ with ⟨rfl, hk, rfl⟩ | ⟨rfl, -, rfl⟩
    · rw [if_pos rfl] at h₈
      by_cases hq : first.isQualified = true
      -- this is where a qualified name is refused
      · rw [if_pos hq] at h₈
        cases h₈
      · rw [if_neg hq] at h₈
        obtain ⟨type, d₃, h₉, h₁₀⟩ := bind_eq_ok.1 h₈
        cases h₁₀
        obtain ⟨w, hw, ht⟩ := qualident_readsOnly h₉
        obtain ⟨i, more, span⟩ := first
        -- without a qualifier, the name is its only identifier
        have hm : more = [] := by simpa [Qualident.isQualified] using hq
        subst hm
        have hi : IsIdent u (i.relabel .forget) := by
          cases hf with
          | parts hs =>
            cases hs with
            | one hi => exact hi
            | more _ hl => cases hl
        refine ⟨u ++ symbol .colon :: w, ?_, .named hi ht⟩
        rw [hu, Cursor.kinds_of_kind hk nofun, hw, List.append_assoc, List.cons_append]
    · cases h₈
      exact ⟨u, hu, .typeOnly hf⟩

/-- Every tag is read in front of the `OF` that ends it. -/
theorem tag_readsAll (n : Nat) :
    ReadsAll n tag (fun t => (t.1.map (Ident.relabel .forget), t.2.relabel .forget)) IsTag
      (· = word .OF) := by
  intro construct c w t rest hc hw hn hr
  have hp : upcoming rest ≠ symbol .period := by rw [hr]; nofun
  -- a colon and a type, a name with a colon and a type, or a type alone
  cases hw with
  | unnamed hw =>
    obtain ⟨type, c', h, rfl, hc'⟩ := qualident_readsAll _ construct
      (Cursor.kinds_advance_of_kinds hc) hw (Nat.le_refl _) hp
    refine ⟨(none, type), c', ?_, rfl, hc'⟩
    rw [tag, bind_of_ok (accept_of_kind (Cursor.kind_of_kinds hc)), if_pos rfl, bind_of_ok h]
    rfl
  | @named _ w _ _ hu hw =>
    cases hu with
    | name text =>
      have hk : c.kind ≠ symbol .colon := by
        rw [Cursor.kind_of_kinds hc]
        nofun
      -- the parser takes the name for a qualified name first
      have hc₁ : c.kinds = [Token.Kind.name text] ++ symbol .colon :: (w ++ rest) := hc
      obtain ⟨first, d, h₁, hf, hd⟩ := qualident_readsAll 1 construct hc₁
        (.parts (.one (.name text))) (Nat.le_refl _)
        (show symbol .colon ≠ symbol .period by nofun)
      obtain ⟨type, c', h₂, rfl, hc'⟩ := qualident_readsAll _ construct
        (Cursor.kinds_advance_of_kinds hd) hw (Nat.le_refl _) hp
      obtain ⟨i, more, span⟩ := first
      obtain ⟨hi, hm, -⟩ := Qualident.mk.inj hf
      rw [List.map_eq_nil_iff] at hm
      subst hm
      refine ⟨(some i, type), c', ?_, by simp only [Option.map_some, hi], hc'⟩
      rw [tag, bind_of_ok (accept_of_kind_ne hk), if_neg Bool.false_ne_true,
        bind_of_ok (get_apply construct c), bind_of_ok h₁,
        bind_of_ok (accept_of_kind (Cursor.kind_of_kinds hd))]
      exact bind_of_ok h₂
  | typeOnly hw =>
    obtain ⟨text, hk⟩ := Cursor.kind_of_isQualident hw hc
    have hk₁ : c.kind ≠ symbol .colon := by
      rw [hk]
      nofun
    obtain ⟨type, d, h, rfl, hd⟩ := qualident_readsAll _ construct hc hw hn hp
    have hk₂ : d.kind ≠ symbol .colon := by
      rw [Cursor.kind_eq_upcoming, hd, hr]
      nofun
    refine ⟨(none, type), d, ?_, rfl, hd⟩
    rw [tag, bind_of_ok (accept_of_kind_ne hk₁), if_neg Bool.false_ne_true,
      bind_of_ok (get_apply construct c), bind_of_ok h, bind_of_ok (accept_of_kind_ne hk₂)]
    rfl

end Modula.Parser

import Modula.Parser.TypeExpr
import Modula.Proofs.Layout.Expr
/-!
# Where types lie

  Most types reach from their first token to the last one that was read.  An array, a set or a pointer
  ends with its part instead, and the arrays that a list of indexes stands for are made behind the type
  of the elements, each from its own index on: they take no tokens, and still lie on those from the index
  to the end (`nestedArrays_lies`).
-/

namespace Modula

open Token.Kind (word symbol)

variable {foot : Token}

namespace Parser

variable (foot)

/-! ## Simple types

  For each parser: the node it makes covers the tokens taken, and its parts lie in order on stretches of
  them. -/

/-- A type begins and ends with brackets around its parts. -/
theorem enumeration_lays {construct : Construct} {c c' : Cursor} {kind : TypeKind}
    (hk : c.kind ≠ .eof) (h : enumeration construct c = .ok kind c') :
    ∃ ts, c.Takes (c.token :: ts) c' ∧ LieInOrder foot ts kind.children := by
  obtain ⟨_, _, hadvance, h₁⟩ := bind_eq_ok.1 h
  cases hadvance
  obtain ⟨names, d, h₂, h₃⟩ := bind_eq_ok.1 h₁
  obtain ⟨_, d', h₄, h₅⟩ := bind_eq_ok.1 h₃
  cases h₅
  obtain ⟨u, hu, hn⟩ := identList_lays foot h₂
  obtain ⟨_, hc, closer, rfl⟩ := close_lays _ _ h₄
  have hnames : LieInOrder foot u (TypeKind.enumeration names).children := .one hn
  exact ⟨_, (Cursor.takes_advance hk).trans (hu.trans hc), hnames.skip_right [closer]⟩

/-- The bounds of a subrange lie behind its bracket, one behind the other. -/
theorem subrange_lays {construct : Construct} {c c' : Cursor} {kind : TypeKind}
    (hk : c.kind ≠ .eof) (h : subrange construct c = .ok kind c') :
    ∃ ts, c.Takes (c.token :: ts) c' ∧ LieInOrder foot ts kind.children := by
  obtain ⟨_, _, hadvance, h₁⟩ := bind_eq_ok.1 h
  cases hadvance
  obtain ⟨low, d₁, h₂, h₃⟩ := bind_eq_ok.1 h₁
  obtain ⟨dots, d₂, h₄, h₅⟩ := bind_eq_ok.1 h₃
  obtain ⟨high, d₃, h₆, h₇⟩ := bind_eq_ok.1 h₅
  obtain ⟨_, d₄, h₈, h₉⟩ := bind_eq_ok.1 h₇
  cases h₉
  obtain ⟨u, hu, hl⟩ := expr_lays foot h₂
  obtain ⟨_, hs, rfl⟩ := expect_lays (by nofun) h₄
  obtain ⟨v, hv, hh⟩ := expr_lays foot h₆
  obtain ⟨_, hc, closer, rfl⟩ := close_lays _ _ h₈
  have hall := (Cursor.takes_advance hk).trans ((hu.trans (hs.trans hv)).trans hc)
  have hbounds : LieInOrder foot (u ++ ([dots] ++ v)) (TypeKind.subrange low high).children :=
    .two hl hh
  exact ⟨_, hall, hbounds.skip_right [closer]⟩

/-- The span goes from the first token to the last one taken, and the parts lie within. -/
theorem simpleType_lays : simpleType.Lays (LiesAs foot .type) := by
  intro construct c t c' h
  obtain ⟨_, _, h₁, h₂⟩ := bind_eq_ok.1 h
  cases h₁
  obtain ⟨_, hq, h₃⟩ := kind_bind_eq_ok h₂
  split at hq <;> subst hq
  -- a name, an enumeration, a subrange
  · obtain ⟨name, d, h₄, h₅⟩ := bind_eq_ok.1 h₃
    cases h₅
    obtain ⟨u, hu, hn⟩ := qualident_lays foot h₄
    exact ⟨u, hu.withId _, hu.lies hn.ne_nil rfl trivial (.one hn)⟩
  · next hk =>
    obtain ⟨kind, d, h₄, h₅⟩ := bind_eq_ok.1 h₃
    cases h₅
    obtain ⟨ts, hts, hl⟩ := enumeration_lays foot (hk ▸ nofun) h₄
    exact ⟨_, hts.withId _, hts.liesFrom rfl trivial hl⟩
  · next hk =>
    obtain ⟨kind, d, h₄, h₅⟩ := bind_eq_ok.1 h₃
    cases h₅
    obtain ⟨ts, hts, hl⟩ := subrange_lays foot (hk ▸ nofun) h₄
    exact ⟨_, hts.withId _, hts.liesFrom rfl trivial hl⟩
  · exact absurd h₃ fail_ne_ok

/-! ## Procedure types -/

/-- A formal type begins with its marks, if it has any. -/
theorem formal_lays : formal.Lays (LiesAs foot .formalType) := by
  intro construct c p c' h
  obtain ⟨_, _, h₁, h₂⟩ := bind_eq_ok.1 h
  cases h₁
  obtain ⟨isVar, d, h₃, h₄⟩ := bind_eq_ok.1 h₂
  obtain ⟨isOpenArray, d₁, h₅, h₆⟩ := bind_eq_ok.1 h₄
  obtain ⟨u, hu, -⟩ := accept_lays (by nofun) h₃
  obtain ⟨v, hv, -⟩ := accept_lays (by nofun) h₅
  -- whether or not the array is there, what follows are some tokens and the name
  obtain ⟨w, d₂, hw, h₇⟩ : ∃ w d₂, d₁.Takes w d₂ ∧ (do
      let type ← qualident
      return (⟨isVar, isOpenArray, type, ⟨c.token.span.start, ← lastEnd⟩⟩ : FormalType) :
      Parser FormalType) construct d₂ = .ok p c' := by
    cases isOpenArray with
    | false => exact ⟨[], d₁, .refl d₁, h₆⟩
    | true =>
      obtain ⟨_, d₂, h₇, h₈⟩ := bind_eq_ok.1 h₆
      obtain ⟨w, hw, -⟩ := expect_lays (by nofun) h₇
      exact ⟨w, d₂, hw, h₈⟩
  obtain ⟨type, d₃, h₈, h₉⟩ := bind_eq_ok.1 h₇
  cases h₉
  obtain ⟨q, hq, ht⟩ := qualident_lays foot h₈
  have hall := (hu.trans (hv.trans hw)).trans hq
  have hne : (u ++ (v ++ w)) ++ q ≠ [] := List.append_ne_nil_of_right_ne_nil _ ht.ne_nil
  exact ⟨_, hall, hall.lies hne rfl trivial ((LieInOrder.one ht).skip_left _)⟩

theorem formalParams_lays :
    formalParams.Lays fun ts l => LieInOrder foot ts (l.map .formalType) := by
  intro construct c l c' h
  obtain ⟨_, hq, h₁⟩ := kind_bind_eq_ok h
  split at hq <;> subst hq
  · cases h₁
    exact ⟨[], .refl _, .nil⟩
  · obtain ⟨⟨first, more⟩, d, h₂, h₃⟩ := bind_eq_ok.1 h₁
    cases h₃
    obtain ⟨ts, hts, hl⟩ := sepBy_lays (by nofun) (formal_lays foot) h₂
    exact ⟨ts, hts, hl.lieInOrder⟩

theorem formalResult_lays :
    formalResult.Lays fun ts o => LieInOrder foot ts (o.toList.map .qualident) := by
  intro construct c o c' h
  obtain ⟨taken, d, h₁, h₂⟩ := bind_eq_ok.1 h
  obtain ⟨u, hu, -⟩ := accept_lays (by nofun) h₁
  cases taken with
  | false =>
    cases h₂
    exact ⟨u, hu, .nil⟩
  | true =>
    obtain ⟨type, d', h₃, h₄⟩ := bind_eq_ok.1 h₂
    cases h₄
    obtain ⟨v, hv, ht⟩ := qualident_lays foot h₃
    have hresult : LieInOrder foot v ((some type).toList.map .qualident) := .one ht
    exact ⟨u ++ v, hu.trans hv, hresult.skip_left u⟩

/-- Parameters and result lie in the stretch from the parenthesis on. -/
theorem formals_lays : formals.Lays (LiesAs foot .formalTypes) := by
  intro construct c f c' h
  obtain ⟨opener, _, h₁, h₂⟩ := bind_eq_ok.1 h
  obtain ⟨params, d, h₃, h₄⟩ := bind_eq_ok.1 h₂
  obtain ⟨_, d₁, h₅, h₆⟩ := bind_eq_ok.1 h₄
  obtain ⟨result, d₂, h₇, h₈⟩ := bind_eq_ok.1 h₆
  cases h₈
  obtain ⟨_, ho, rfl⟩ := expect_lays (by nofun) h₁
  obtain ⟨u, hu, hp⟩ := formalParams_lays foot h₃
  obtain ⟨_, hc, closer, rfl⟩ := close_lays _ _ h₅
  obtain ⟨v, hv, hr⟩ := formalResult_lays foot h₇
  have hall : c.Takes (opener :: (u ++ ([closer] ++ v))) _ := ho.trans (hu.trans (hc.trans hv))
  exact ⟨_, hall, hall.liesFrom rfl trivial (hp.append (hr.skip_left [closer]))⟩

/-- The formal types lie behind the word, up to the end. -/
theorem procedureType_lays : procedureType.Lays (LiesAs foot .type) := by
  intro construct c t c' h
  obtain ⟨head, d, h₁, h₂⟩ := bind_eq_ok.1 h
  obtain ⟨_, ho, rfl⟩ := expect_lays (by nofun) h₁
  obtain ⟨_, hq, h₃⟩ := kind_bind_eq_ok h₂
  split at hq <;> subst hq
  · obtain ⟨f, d', h₄, h₅⟩ := bind_eq_ok.1 h₃
    cases h₅
    obtain ⟨u, hu, hf⟩ := formals_lays foot h₄
    have hall : c.Takes (head :: u) _ := ho.trans hu
    have hformals : LieInOrder foot u (TypeKind.procedure (some f)).children := .one hf
    exact ⟨_, hall.withId _, hall.liesFrom rfl trivial hformals⟩
  · cases h₃
    exact ⟨_, ho.withId _, ho.liesFrom rfl trivial .nil⟩

/-! ## Array, set and pointer types

  Nested arrays are made behind their element type, in the opposite order of their indexes. -/

variable {foot}

/-- A type that ends with another one. -/
theorem typeLies_upTo {kind : TypeKind} {id : Nat} {t : Token} {ts v : List Token} {part : TypeExpr}
    (hp : LiesAs foot .type v part) (hkind : kind.children = [.type part]) :
    LiesAs foot .type ([t] ++ (ts ++ v)) ⟨id, kind, ⟨t.span.start, part.span.stop⟩⟩ := by
  refine .node (List.cons_ne_nil _ _) ((Covers.of_token t).across (hp.covers nofun)) trivial ?_
  show LieInOrder foot _ kind.children
  rw [hkind]
  exact ((LieInOrder.one hp).skip_left ts).skip_left [t]

/-- The arrays take no tokens, and lie on those from the first index on. -/
theorem nestedArrays_lies {construct : Construct} {c c' : Cursor} {t element : TypeExpr}
    {l : List TypeExpr} {u v : List Token} (hl : LieInOrder foot u (l.map .type))
    (he : LiesAs foot .type v element) (h : nestedArrays l element construct c = .ok t c') :
    c.Takes [] c' ∧ ∃ skipped w, u ++ v = skipped ++ w ∧ LiesAs foot .type w t := by
  induction l generalizing u t c' with
  | nil =>
    cases h
    exact ⟨.refl c, u, v, rfl, he⟩
  -- The inner arrays lie behind the first index type, so the array around them reaches from it to the
  -- element type.
  | cons index more ih =>
    obtain ⟨inner, d, h₁, h₂⟩ := bind_eq_ok.1 h
    cases h₂
    cases hl with
    | @cons skipped u v' _ _ hi hmore =>
      obtain ⟨hd, skipped', w, hw, hin⟩ := ih hmore h₁
      refine ⟨hd.withId _, skipped, u ++ (skipped' ++ w), ?_, ?_⟩
      · rw [← hw, List.append_assoc, List.append_assoc]
      · exact .node (List.append_ne_nil_of_left_ne_nil hi.ne_nil _)
          ((hi.covers nofun).across (hin.covers nofun)) trivial (.two hi hin)

theorem setType_lays : setType.Lays (LiesAs foot .type) := by
  intro construct c t c' h
  obtain ⟨head, d, h₁, h₂⟩ := bind_eq_ok.1 h
  obtain ⟨_, d₁, h₃, h₄⟩ := bind_eq_ok.1 h₂
  obtain ⟨base, d₂, h₅, h₆⟩ := bind_eq_ok.1 h₄
  cases h₆
  obtain ⟨_, ho, rfl⟩ := expect_lays (by nofun) h₁
  obtain ⟨_, hs, rfl⟩ := expect_lays (by nofun) h₃
  obtain ⟨v, hv, hb⟩ := simpleType_lays foot h₅
  exact ⟨_, (ho.trans (hs.trans hv)).withId _, typeLies_upTo hb rfl⟩

section

variable {type : Parser TypeExpr} {entry : Parser FieldList}

section

variable (ht : type.Lays (LiesAs foot .type))

include ht

theorem pointerTypeWith_lays : (pointerTypeWith type).Lays (LiesAs foot .type) := by
  intro construct c t c' h
  obtain ⟨head, d, h₁, h₂⟩ := bind_eq_ok.1 h
  obtain ⟨_, d₁, h₃, h₄⟩ := bind_eq_ok.1 h₂
  obtain ⟨target, d₂, h₅, h₆⟩ := bind_eq_ok.1 h₄
  cases h₆
  obtain ⟨_, ho, rfl⟩ := expect_lays (by nofun) h₁
  obtain ⟨_, hs, rfl⟩ := expect_lays (by nofun) h₃
  obtain ⟨v, hv, htarget⟩ := ht h₅
  exact ⟨_, (ho.trans (hs.trans hv)).withId _, typeLies_upTo htarget rfl⟩

/-- Nested arrays begin at their index types, one within the other, and all end with the element type. -/
theorem arrayTypeWith_lays : (arrayTypeWith type).Lays (LiesAs foot .type) := by
  intro construct c t c' h
  obtain ⟨head, d, h₁, h₂⟩ := bind_eq_ok.1 h
  obtain ⟨⟨index, more⟩, d₁, h₃, h₄⟩ := bind_eq_ok.1 h₂
  obtain ⟨behind, d₂, h₅, h₆⟩ := bind_eq_ok.1 h₄
  obtain ⟨element, d₃, h₇, h₈⟩ := bind_eq_ok.1 h₆
  obtain ⟨inner, d₄, h₉, h₁₀⟩ := bind_eq_ok.1 h₈
  cases h₁₀
  obtain ⟨_, ho, rfl⟩ := expect_lays (by nofun) h₁
  obtain ⟨u, hu, hl⟩ := sepBy_lays (by nofun) (simpleType_lays foot) h₃
  obtain ⟨_, hs, rfl⟩ := expect_lays (by nofun) h₅
  obtain ⟨v, hv, he⟩ := ht h₇
  cases hl.lieInOrder with
  | @cons skipped u m _ _ hi hmore =>
    obtain ⟨hd, skipped', w, hw, hin⟩ := nestedArrays_lies (hmore.skip_right [behind]) he h₉
    have hall := (ho.trans (hu.trans (hs.trans hv))).trans hd
    -- All tokens, divided in front of those on which the inner arrays lie.
    have htokens : [head] ++ ((skipped ++ (u ++ m)) ++ ([behind] ++ v)) ++ [] =
        [head] ++ ((skipped ++ u ++ skipped') ++ w) := by
      rw [List.append_nil, List.append_assoc (skipped ++ u), ← hw]
      simp only [List.append_assoc]
    rw [htokens] at hall
    refine ⟨_, hall.withId _, .node (List.cons_ne_nil _ _) ?_ trivial ?_⟩
    · exact (Covers.of_token head).across (hin.covers nofun)
    -- The index type and what is nested in the array are its parts.
    · have hparts : LieInOrder foot (u ++ (skipped' ++ w)) [.type index, .type inner] := .two hi hin
      have hskipped := (hparts.skip_left skipped).skip_left [head]
      rwa [← List.append_assoc u, ← List.append_assoc skipped, ← List.append_assoc skipped] at hskipped

end

/-! ## Records

  An entry may be empty, and then it is not in the list and lies nowhere. -/

/-- The name of a tag field is in front of the type. -/
theorem tag_lays (foot : Token) : tag.Lays fun ts t =>
    LieInOrder foot ts (t.1.toList.map .ident ++ [.qualident t.2]) := by
  intro construct c t c' h
  obtain ⟨taken, d, h₁, h₂⟩ := bind_eq_ok.1 h
  obtain ⟨u, hu, -⟩ := accept_lays (by nofun) h₁
  cases taken with
  | true =>
    obtain ⟨type, d', h₃, h₄⟩ := bind_eq_ok.1 h₂
    cases h₄
    obtain ⟨v, hv, ht⟩ := qualident_lays foot h₃
    exact ⟨u ++ v, hu.trans hv, (LieInOrder.one ht).skip_left u⟩
  | false =>
    obtain ⟨_, _, h₃, h₄⟩ := bind_eq_ok.1 h₂
    cases h₃
    obtain ⟨first, d₁, h₅, h₆⟩ := bind_eq_ok.1 h₄
    obtain ⟨v, hv, hf⟩ := qualident_lays foot h₅
    obtain ⟨taken, d₂, h₇, h₈⟩ := bind_eq_ok.1 h₆
    obtain ⟨colon, hcolon, -⟩ := accept_lays (by nofun) h₇
    have hname := hu.trans (hv.trans hcolon)
    cases taken with
    | false =>
      cases h₈
      exact ⟨_, hname, ((LieInOrder.one hf).skip_right colon).skip_left u⟩
    | true =>
      rw [if_pos rfl] at h₈
      by_cases hq : first.isQualified = true
      · rw [if_pos hq] at h₈
        cases h₈
      · rw [if_neg hq] at h₈
        obtain ⟨type, d₃, h₉, h₁₀⟩ := bind_eq_ok.1 h₈
        cases h₁₀
        obtain ⟨w, hw, ht⟩ := qualident_lays foot h₉
        -- without a qualifier, the name is the only child of the qualified name it was taken for
        obtain ⟨i, more, span⟩ := first
        have hm : more = [] := by simpa [Qualident.isQualified] using hq
        subst hm
        cases hf with
        | node _ _ _ hident =>
          exact ⟨_, hname.trans hw, ((hident.skip_right colon).skip_left u).append (.one ht)⟩

section

variable (he : entry.Lays (LiesAs foot .fieldList))

include he

/-- By induction on the budget: entries with semicolons in front. -/
theorem moreEntries_lays (budget : Nat) :
    (moreEntries entry budget).Lays fun ts l => LieInOrder foot ts (l.map .fieldList) := by
  induction budget with
  | zero =>
    intro construct c l c' h
    cases h
    exact ⟨[], .refl c, .nil⟩
  | succ budget ih =>
    intro construct c l c' h
    obtain ⟨taken, d, h₁, h₂⟩ := bind_eq_ok.1 h
    obtain ⟨u, hu, -⟩ := accept_lays (by nofun) h₁
    cases taken with
    | false =>
      cases h₂
      exact ⟨u, hu, .nil⟩
    | true =>
      rw [if_pos rfl] at h₂
      obtain ⟨_, _, h₃, h₄⟩ := bind_eq_ok.1 h₂
      cases h₃
      -- A semicolon in front of the end belongs to no entry.
      by_cases hend : d.endsEntries = true
      · rw [if_pos hend] at h₄
        cases h₄
        exact ⟨u, hu, .nil⟩
      · rw [if_neg hend] at h₄
        obtain ⟨first, d₁, h₅, h₆⟩ := bind_eq_ok.1 h₄
        obtain ⟨more, d₂, h₇, h₈⟩ := bind_eq_ok.1 h₆
        cases h₈
        obtain ⟨v, hv, hfirst⟩ := he h₅
        obtain ⟨w, hw, hmore⟩ := ih h₇
        exact ⟨_, hu.trans (hv.trans hw), ((LieInOrder.one hfirst).append hmore).skip_left u⟩

theorem entriesWith_lays : (entriesWith entry).Lays fun ts l =>
    ts ≠ [] ∧ LieInOrder foot ts (l.map .fieldList) := by
  intro construct c l c' h
  obtain ⟨first, d, h₁, h₂⟩ := bind_eq_ok.1 h
  obtain ⟨_, _, hb, h₃⟩ := bind_eq_ok.1 h₂
  cases hb
  obtain ⟨more, d', h₄, h₅⟩ := bind_eq_ok.1 h₃
  cases h₅
  obtain ⟨u, hu, hfirst⟩ := he h₁
  obtain ⟨v, hv, hmore⟩ := moreEntries_lays he _ h₄
  exact ⟨u ++ v, hu.trans hv, List.append_ne_nil_of_left_ne_nil hfirst.ne_nil v,
    (LieInOrder.one hfirst).append hmore⟩

/-- Entries lie between `RECORD` and `END`. -/
theorem recordTypeWith_lays : (recordTypeWith entry).Lays (LiesAs foot .type) := by
  intro construct c t c' h
  obtain ⟨opener, d, h₁, h₂⟩ := bind_eq_ok.1 h
  obtain ⟨entries, d₁, h₃, h₄⟩ := bind_eq_ok.1 h₂
  obtain ⟨_, d₂, h₅, h₆⟩ := bind_eq_ok.1 h₄
  cases h₆
  obtain ⟨_, ho, rfl⟩ := expect_lays (by nofun) h₁
  obtain ⟨u, hu, -, hl⟩ := entriesWith_lays he h₃
  obtain ⟨_, hc, closer, rfl⟩ := close_lays _ _ h₅
  have hall : c.Takes (opener :: (u ++ [closer])) d₂ := ho.trans (hu.trans hc)
  exact ⟨_, hall.withId _, hall.liesFrom rfl trivial (hl.skip_right [closer])⟩

/-- Labels, and behind the colon entries. -/
theorem armWith_lays : (armWith entry).Lays (LiesAs foot .variant) := by
  intro construct c arm c' h
  obtain ⟨_, _, h₁, h₂⟩ := bind_eq_ok.1 h
  cases h₁
  obtain ⟨⟨label, more⟩, d, h₃, h₄⟩ := bind_eq_ok.1 h₂
  obtain ⟨colon, d₁, h₅, h₆⟩ := bind_eq_ok.1 h₄
  obtain ⟨entries, d₂, h₇, h₈⟩ := bind_eq_ok.1 h₆
  cases h₈
  obtain ⟨u, hu, hlabels⟩ := sepBy_lays (by nofun) (rangeItem_lays foot) h₃
  obtain ⟨_, hc, rfl⟩ := expect_lays (by nofun) h₅
  obtain ⟨v, hv, hne, hl⟩ := entriesWith_lays he h₇
  have hjoined : Joined (LiesAs foot .caseLabel) u (label :: more) :=
    hlabels.mono fun _ _ hr => hr.caseLabel
  have hall := (hu.trans hc).trans hv
  refine ⟨_, hall, hall.lies (List.append_ne_nil_of_right_ne_nil _ hne) rfl trivial ?_⟩
  exact (hjoined.lieInOrder.skip_right [colon]).append hl

/-- Entries behind `ELSE`, or nothing. -/
theorem otherwiseWith_lays : (otherwiseWith entry).Lays fun ts o =>
    LieInOrder foot ts ((o.getD []).map .fieldList) := by
  intro construct c o c' h
  obtain ⟨taken, d, h₁, h₂⟩ := bind_eq_ok.1 h
  obtain ⟨u, hu, -⟩ := accept_lays (by nofun) h₁
  cases taken with
  | false =>
    cases h₂
    exact ⟨u, hu, .nil⟩
  | true =>
    obtain ⟨entries, d', h₃, h₄⟩ := bind_eq_ok.1 h₂
    cases h₄
    obtain ⟨v, hv, -, hl⟩ := entriesWith_lays he h₃
    exact ⟨u ++ v, hu.trans hv, hl.skip_left u⟩

/-- Tag, type, arms and the entries behind `ELSE` lie in this order. -/
theorem variantPartWith_lays : (variantPartWith entry).Lays (LiesAs foot .fieldList) := by
  intro construct c e c' h
  obtain ⟨opener, d, h₁, h₂⟩ := bind_eq_ok.1 h
  obtain ⟨⟨name, type⟩, d₁, h₃, h₄⟩ := bind_eq_ok.1 h₂
  obtain ⟨behind, d₂, h₅, h₆⟩ := bind_eq_ok.1 h₄
  obtain ⟨⟨arm, more⟩, d₃, h₇, h₈⟩ := bind_eq_ok.1 h₆
  obtain ⟨otherwise, d₄, h₉, h₁₀⟩ := bind_eq_ok.1 h₈
  obtain ⟨_, d₅, h₁₁, h₁₂⟩ := bind_eq_ok.1 h₁₀
  cases h₁₂
  obtain ⟨_, ho, rfl⟩ := expect_lays (by nofun) h₁
  obtain ⟨t, ht, htag⟩ := tag_lays foot h₃
  obtain ⟨_, hb, rfl⟩ := expect_lays (by nofun) h₅
  obtain ⟨u, hu, harms⟩ := sepBy_lays (by nofun) (armWith_lays he) h₇
  obtain ⟨v, hv, hl⟩ := otherwiseWith_lays he h₉
  obtain ⟨_, hc, closer, rfl⟩ := close_lays _ _ h₁₁
  -- The tokens of the parts, with those between them, from `CASE` to `END`.
  have hall : c.Takes (opener :: (t ++ [behind] ++ u ++ v ++ [closer])) c' :=
    ho.trans ((((ht.trans hb).trans hu).trans hv).trans hc)
  refine ⟨_, hall, hall.liesFrom rfl trivial ?_⟩
  exact (((htag.skip_right [behind]).append harms.lieInOrder).append hl).skip_right [closer]

end

/-- Names, and behind the colon their type. -/
theorem fieldsWith_lays (ht : type.Lays (LiesAs foot .type)) :
    (fieldsWith type).Lays (LiesAs foot .fieldList) := by
  intro construct c e c' h
  obtain ⟨names, d, h₁, h₂⟩ := bind_eq_ok.1 h
  obtain ⟨colon, d₁, h₃, h₄⟩ := bind_eq_ok.1 h₂
  obtain ⟨t, d₂, h₅, h₆⟩ := bind_eq_ok.1 h₄
  cases h₆
  obtain ⟨u, hu, hn⟩ := identList_lays foot h₁
  obtain ⟨_, hc, rfl⟩ := expect_lays (by nofun) h₃
  obtain ⟨v, hv, htype⟩ := ht h₅
  exact ⟨_, hu.trans (hc.trans hv), hn.joined htype nofun nofun rfl rfl trivial⟩

/-! ## The knot -/

theorem typeWith_lays (ht : type.Lays (LiesAs foot .type)) (he : entry.Lays (LiesAs foot .fieldList)) :
    (typeWith type entry).Lays (LiesAs foot .type) := by
  intro construct c t c' h
  obtain ⟨_, hq, h₁⟩ := kind_bind_eq_ok h
  split at hq <;> subst hq
  · exact arrayTypeWith_lays ht h₁
  · exact recordTypeWith_lays he h₁
  · exact setType_lays h₁
  · exact pointerTypeWith_lays ht h₁
  · exact procedureType_lays foot h₁
  · exact simpleType_lays foot h₁

theorem entryWith_lays (ht : type.Lays (LiesAs foot .type))
    (he : entry.Lays (LiesAs foot .fieldList)) :
    (entryWith type entry).Lays (LiesAs foot .fieldList) := by
  intro construct c e c' h
  obtain ⟨_, hq, h₁⟩ := kind_bind_eq_ok h
  split at hq <;> subst hq
  · exact variantPartWith_lays he h₁
  · exact fieldsWith_lays ht h₁

end

variable (foot)

/-- Types and entries together, by induction on the budget. -/
theorem typeAt_lays (budget : Nat) :
    (typeAt budget).Lays (LiesAs foot .type) ∧ (entryAt budget).Lays (LiesAs foot .fieldList) := by
  induction budget with
  | zero =>
    constructor
    · intro construct c t c' h
      exact absurd h fail_ne_ok
    · intro construct c e c' h
      exact absurd h fail_ne_ok
  | succ budget ih =>
    obtain ⟨ht, he⟩ := ih
    exact ⟨typeWith_lays ht he, entryWith_lays ht he⟩

/-- A type lies on the tokens that were taken for it. -/
theorem type_lays : type.Lays (LiesAs foot .type) := by
  intro construct c t c' h
  obtain ⟨_, _, hb, h₁⟩ := bind_eq_ok.1 h
  cases hb
  exact (typeAt_lays foot _).1 h₁

end Parser

end Modula

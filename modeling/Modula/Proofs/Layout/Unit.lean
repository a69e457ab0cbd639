import Modula.Proofs.Layout.TypeExpr
import Modula.Proofs.Reading.Unit
/-!
# Where units lie

  The readers of modules go on after an error, so what they lay is laid only if nothing has been noted
  (`Laid`).  A unit then lies on all the tokens of the source, which end with its footer.

  The block of a program begins where the reading of it begins and does not end in front of that place.
  With declarations or a body it lies on their tokens.  Without them nothing has been taken, and the
  place is the beginning of the footer (`block_laid`).
-/

namespace Modula

open Token.Kind (word symbol)

variable {foot : Token}

/-! ## Imports and declarations

  Where a clause ends is not told alike for all: an import has its semicolon in its span, and an item of a
  section has not. -/

namespace Parser

variable (foot)

/-- The module in front of `IMPORT`, and the names behind it. -/
theorem importKind_lays :
    importKind.Lays fun ts k => ts ≠ [] ∧ LieInOrder foot ts k.children := by
  intro construct c k c' h
  obtain ⟨taken, d, h₁, h₂⟩ := bind_eq_ok.1 h
  obtain ⟨u, hu, -⟩ := accept_lays (by nofun) h₁
  cases taken with
  | true =>
    obtain ⟨source, d₁, h₃, h₄⟩ := bind_eq_ok.1 h₂
    obtain ⟨behind, d₂, h₅, h₆⟩ := bind_eq_ok.1 h₄
    obtain ⟨names, d₃, h₇, h₈⟩ := bind_eq_ok.1 h₆
    cases h₈
    obtain ⟨v, hv, hs⟩ := ident_lays foot h₃
    obtain ⟨_, hb, rfl⟩ := expect_lays (by nofun) h₅
    obtain ⟨w, hw, hn⟩ := identList_lays foot h₇
    -- Between the module and the names stands the word `IMPORT`.
    have hparts : LieInOrder foot (v ++ ([behind] ++ w))
        (ImportKind.unqualified source names).children := .two hs hn
    refine ⟨_, hu.trans (hv.trans (hb.trans hw)), ?_, hparts.skip_left u⟩
    exact List.append_ne_nil_of_right_ne_nil u (List.append_ne_nil_of_left_ne_nil hs.ne_nil _)
  | false =>
    obtain ⟨head, d₁, h₃, h₄⟩ := bind_eq_ok.1 h₂
    obtain ⟨modules, d₂, h₅, h₆⟩ := bind_eq_ok.1 h₄
    cases h₆
    obtain ⟨_, hh, rfl⟩ := expect_lays (by nofun) h₃
    obtain ⟨v, hv, hn⟩ := identList_lays foot h₅
    have hmodules : LieInOrder foot v (ImportKind.qualified modules).children := .one hn
    refine ⟨_, hu.trans (hh.trans hv), ?_, (hmodules.skip_left [head]).skip_left u⟩
    exact List.append_ne_nil_of_right_ne_nil u (List.cons_ne_nil _ _)

/-- An import ends with its semicolon. -/
theorem importClause_lays :
    importClause.Lays fun ts i => LieInOrder foot ts [.importClause i] := by
  intro construct c i c' h
  obtain ⟨_, _, h₁, h₂⟩ := bind_eq_ok.1 h
  cases h₁
  obtain ⟨kind, d, h₃, h₄⟩ := bind_eq_ok.1 h₂
  obtain ⟨semicolon, d₁, h₅, h₆⟩ := bind_eq_ok.1 h₄
  cases h₆
  obtain ⟨u, hu, hne, hk⟩ := importKind_lays foot h₃
  obtain ⟨_, hs, rfl⟩ := expect_lays (by nofun) h₅
  have hall := hu.trans hs
  have hlies : Lies foot (u ++ [semicolon]) (.importClause ⟨kind, ⟨c.token.span.start, c'.lastEnd⟩⟩) :=
    hall.lies (List.append_ne_nil_of_left_ne_nil hne _) rfl trivial (hk.skip_right [semicolon])
  exact ⟨_, hall, .one hlies⟩

/-- The semicolon behind a constant is not a part of it. -/
theorem constItem_lays : constItem.Lays fun ts i => LieInOrder foot ts [.constItem i] := by
  intro construct c i c' h
  obtain ⟨name, d, h₁, h₂⟩ := bind_eq_ok.1 h
  obtain ⟨equal, d₁, h₃, h₄⟩ := bind_eq_ok.1 h₂
  obtain ⟨value, d₂, h₅, h₆⟩ := bind_eq_ok.1 h₄
  obtain ⟨semicolon, d₃, h₇, h₈⟩ := bind_eq_ok.1 h₆
  cases h₈
  obtain ⟨u, hu, hi⟩ := ident_lays foot h₁
  obtain ⟨_, he, rfl⟩ := expect_lays (by nofun) h₃
  obtain ⟨v, hv, hvalue⟩ := expr_lays foot h₅
  obtain ⟨_, hs, rfl⟩ := expect_lays (by nofun) h₇
  have hlies : Lies foot (u ++ ([equal] ++ v)) (.constItem ⟨name, value, name.span.join value.span⟩) :=
    hi.joined hvalue nofun nofun rfl rfl trivial
  exact ⟨_, (hu.trans (he.trans hv)).trans hs, (LieInOrder.one hlies).skip_right [semicolon]⟩

/-- The semicolon is not part of the span. -/
theorem typeItem_lays : typeItem.Lays fun ts i => LieInOrder foot ts [.typeItem i] := by
  intro construct c i c' h
  obtain ⟨name, d, h₁, h₂⟩ := bind_eq_ok.1 h
  obtain ⟨equal, d₁, h₃, h₄⟩ := bind_eq_ok.1 h₂
  obtain ⟨t, d₂, h₅, h₆⟩ := bind_eq_ok.1 h₄
  obtain ⟨semicolon, d₃, h₇, h₈⟩ := bind_eq_ok.1 h₆
  cases h₈
  obtain ⟨u, hu, hi⟩ := ident_lays foot h₁
  obtain ⟨_, he, rfl⟩ := expect_lays (by nofun) h₃
  obtain ⟨v, hv, ht⟩ := type_lays foot h₅
  obtain ⟨_, hs, rfl⟩ := expect_lays (by nofun) h₇
  have hlies : Lies foot (u ++ ([equal] ++ v)) (.typeItem ⟨name, t, name.span.join t.span⟩) :=
    hi.joined ht nofun nofun rfl rfl trivial
  exact ⟨_, (hu.trans (he.trans hv)).trans hs, (LieInOrder.one hlies).skip_right [semicolon]⟩

/-! ## Headers and footers -/

/-- The name lies between two tokens that belong to no node. -/
theorem moduleName_lays :
    moduleName.Lays fun ts i => ts ≠ [] ∧ LieInOrder foot ts [.ident i] := by
  intro construct c i c' h
  obtain ⟨head, d, h₁, h₂⟩ := bind_eq_ok.1 h
  obtain ⟨name, d₁, h₃, h₄⟩ := bind_eq_ok.1 h₂
  obtain ⟨semicolon, d₂, h₅, h₆⟩ := bind_eq_ok.1 h₄
  cases h₆
  obtain ⟨_, hh, rfl⟩ := expect_lays (by nofun) h₁
  obtain ⟨u, hu, hi⟩ := ident_lays foot h₃
  obtain ⟨_, hs, rfl⟩ := expect_lays (by nofun) h₅
  exact ⟨_, hh.trans (hu.trans hs), List.cons_ne_nil _ _,
    ((LieInOrder.one hi).skip_right [semicolon]).skip_left [head]⟩

theorem definitionHeader_lays :
    definitionHeader.Lays fun ts i => ts ≠ [] ∧ LieInOrder foot ts [.ident i] := by
  intro construct c i c' h
  obtain ⟨head, d, h₁, h₂⟩ := bind_eq_ok.1 h
  obtain ⟨_, hh, rfl⟩ := expect_lays (by nofun) h₁
  obtain ⟨u, hu, -, hi⟩ := moduleName_lays foot h₂
  exact ⟨_, hh.trans hu, List.cons_ne_nil _ _, hi.skip_left [head]⟩

theorem programHeader_lays :
    programHeader.Lays fun ts r => ts ≠ [] ∧ LieInOrder foot ts [.ident r.2] := by
  intro construct c r c' h
  obtain ⟨isImplementation, d, h₁, h₂⟩ := bind_eq_ok.1 h
  obtain ⟨name, d₁, h₃, h₄⟩ := bind_eq_ok.1 h₂
  cases h₄
  obtain ⟨u, hu, -⟩ := accept_lays (by nofun) h₁
  obtain ⟨v, hv, hne, hi⟩ := moduleName_lays foot h₃
  exact ⟨_, hu.trans hv, List.append_ne_nil_of_right_ne_nil u hne, hi.skip_left u⟩

end Parser

variable {ts : List Token} {i : Ident}

/-- These are the tokens of a footer, and `first` is the `END` with which it begins. -/
def IsFooterFrom (first : Token) (ts : List Token) (i : Ident) : Prop :=
  first.kind = word .END ∧ ∃ name point, ts = [first, name, point] ∧
    name.kind = .name i.name ∧ name.span = i.span ∧ point.kind = symbol .period

/-- The name of the footer lies behind its `END`. -/
theorem IsFooterFrom.lieInOrder (foot : Token) {first : Token} (h : IsFooterFrom first ts i) :
    ∃ behind, ts = first :: behind ∧ LieInOrder foot behind [.ident i] := by
  obtain ⟨-, name, point, rfl, hname, hspan, -⟩ := h
  have hlies : Lies foot [name] (.ident i) := .ofName hname hspan
  exact ⟨[name, point], rfl, (LieInOrder.one hlies).skip_right [point]⟩

/-- The footer begins at the cursor, and the name in it lies behind its `END`. -/
theorem Parser.footer_lays {construct : Construct} {c c' : Cursor} (h : footer construct c = .ok i c') :
    ∃ ts, c.Takes ts c' ∧ IsFooterFrom c.token ts i := by
  obtain ⟨first, d, h₁, h₂⟩ := bind_eq_ok.1 h
  obtain ⟨i, d₁, h₃, h₄⟩ := bind_eq_ok.1 h₂
  obtain ⟨point, d₂, h₅, h₆⟩ := bind_eq_ok.1 h₄
  cases h₆
  obtain ⟨_, hf, rfl, hfirst⟩ := expect_takes (by nofun) h₁
  obtain ⟨_, hu, name, rfl, hname, hspan⟩ := ident_takes h₃
  obtain ⟨_, hp, rfl, hpoint⟩ := expect_takes (by nofun) h₅
  rw [hf.token_eq]
  exact ⟨_, hf.trans (hu.trans hp), hfirst, name, point, rfl, hname, hspan, hpoint⟩

namespace Recovering

variable {α : Type} {options : Options} {s s₁ s₂ s' : Session} {P Q : List Token → Prop}

/-! ## If nothing is noted

  A reader with recovery lays its tree only if it notes nothing, and that is all that is needed, as a
  report with errors has no tree. -/

/-- The log has only grown, and if it is still the same, what was taken has the property. -/
def Laid (P : List Token → Prop) (s s' : Session) : Prop :=
  s.log <+: s'.log ∧ (s'.log = s.log → ∃ ts, s.cursor.Takes ts s'.cursor ∧ P ts)

/-- Where nothing is taken. -/
theorem Laid.nothing (h : P []) : Laid P s s :=
  ⟨List.prefix_refl _, fun _ => ⟨[], .refl s.cursor, h⟩⟩

/-- What is said of the tokens taken may be weakened. -/
theorem Laid.mono (h : Laid P s s') (hPQ : ∀ ts, P ts → Q ts) : Laid Q s s' := by
  refine ⟨h.1, fun heq => ?_⟩
  obtain ⟨ts, hts, hP⟩ := h.2 heq
  exact ⟨ts, hts, hPQ ts hP⟩

/-- Two stretches, and nothing noted in either. -/
theorem Laid.trans (h₁ : Laid P s s₁) (h₂ : Laid Q s₁ s₂) :
    Laid (fun ts => ∃ u v, ts = u ++ v ∧ P u ∧ Q v) s s₂ := by
  refine ⟨h₁.1.trans h₂.1, fun heq => ?_⟩
  have hmid := log_between h₁.1 h₂.1 heq
  obtain ⟨u, hu, hP⟩ := h₁.2 hmid
  obtain ⟨v, hv, hQ⟩ := h₂.2 (heq.trans hmid.symm)
  exact ⟨u ++ v, hu.trans hv, u, v, rfl, hP, hQ⟩

/-- Without a note, all tokens between the two sessions have been taken. -/
theorem Laid.takes (h : Laid P s s') : Laid (fun ts => s.cursor.Takes ts s'.cursor ∧ P ts) s s' := by
  refine ⟨h.1, fun heq => ?_⟩
  obtain ⟨ts, hts, hP⟩ := h.2 heq
  exact ⟨ts, hts, hts, hP⟩

/-- Behind a note nothing is claimed. -/
theorem Laid.of_note {e : SyntaxError} {resumption : Cursor} {u : Unit} (hlog : s₁.log = s.log)
    (h : note e resumption options s₁ = .ok u s₂) (hgrow : s₂.log <+: s'.log) : Laid P s s' := by
  have htook : Took (fun _ => False) s s' := .of_note hlog h hgrow
  refine ⟨htook.1, fun heq => ?_⟩
  obtain ⟨_, _, hfalse⟩ := htook.2 heq
  exact hfalse.elim

/-- A parser lays within a session as it does alone. -/
theorem run_laid {p : Parser α} {P : List Token → α → Prop} {construct : Construct} {a : α}
    (hp : p.Lays P) (h : run construct p options s = .ok a s') : Laid (P · a) s s' := by
  obtain ⟨ha, hlog⟩ := run_eq_ok h
  exact ⟨hlog ▸ List.prefix_refl _, fun _ => hp ha⟩

/-- A word is taken. -/
theorem advance_laid {construct : Construct} {t : Token} {k : Token.Kind} (hs : s.cursor.kind = k)
    (hk : k ≠ .eof) (h : run construct Parser.advance options s = .ok t s') :
    Laid (· = [t]) s s' := by
  obtain ⟨hadvance, hlog⟩ := run_eq_ok h
  refine ⟨hlog ▸ List.prefix_refl _, fun _ => ?_⟩
  obtain ⟨rfl, heq⟩ := EStateM.Result.ok.inj hadvance
  rw [← heq]
  exact ⟨_, Cursor.takes_advance (hs ▸ hk), rfl⟩

/-! ## Items and sections

  The loop over items adds one stretch of tokens for each, and they lie one behind the other. -/

section

variable {item : Parser α} {node : α → Node} {construct : Construct}

/-- By induction on the budget: items one behind the other, if none of them was broken. -/
theorem tryItems_laid {starts : Token.Kind → Prop} [DecidablePred starts]
    {resume : Cursor → Cursor → Cursor} (hi : item.Lays fun ts a => LieInOrder foot ts [node a])
    (budget : Nat) {l : List α}
    (h : tryItems starts construct item resume budget options s = .ok l s') :
    Laid (fun ts => LieInOrder foot ts (l.map node)) s s' := by
  induction budget generalizing s l with
  | zero =>
    cases h
    exact .nothing .nil
  | succ budget ih =>
    obtain ⟨q, hq, h₁⟩ := cursor_bind_eq_ok h
    split at hq <;> subst hq
    · obtain ⟨r, s₁, h₂, h₃⟩ := bind_eq_ok.1 h₁
      obtain ⟨hlog, ⟨a, rfl, ha⟩ | ⟨e, rfl⟩⟩ := attempt_eq_ok h₂
      · obtain ⟨more, s₂, h₄, h₅⟩ := bind_eq_ok.1 h₃
        cases h₅
        -- The item lies on the tokens taken for it.
        have hfirst : Laid (fun ts => LieInOrder foot ts [node a]) s s₁ :=
          ⟨hlog ▸ List.prefix_refl _, fun _ => hi ha⟩
        refine (hfirst.trans (ih h₄)).mono ?_
        rintro _ ⟨u, v, rfl, hu, hv⟩
        exact hu.append hv
      · obtain ⟨q, hq, h₄⟩ := cursor_bind_eq_ok h₃
        dsimp only at hq
        split at hq <;> subst hq
        · obtain ⟨_, _, h₅, _⟩ := bind_eq_ok.1 h₄
          cases h₅
        · -- the item went wrong before the end of the source, so there is a note
          obtain ⟨_, s₂, h₅, h₆⟩ := bind_eq_ok.1 h₄
          exact .of_note hlog h₅ (ih h₆).1
    · cases h₁
      exact .nothing .nil

theorem allImports_laid (foot : Token) {l : List Import} (h : allImports options s = .ok l s') :
    Laid (fun ts => LieInOrder foot ts (l.map .importClause)) s s' := by
  obtain ⟨q, rfl, h₁⟩ := cursor_bind_eq_ok h
  rw [imports_eq_tryItems] at h₁
  exact tryItems_laid (Parser.importClause_lays foot) _ h₁

/-- A section begins with its word and ends with its last item. -/
theorem sectionOf_laid {kind : List α → DeclarationKind} {k : Token.Kind} {d : Declaration}
    (hi : item.Lays fun ts a => LieInOrder foot ts [node a])
    (hkind : ∀ l, (kind l).children = l.map node) (hs : s.cursor.kind = k) (hk : k ≠ .eof)
    (h : sectionOf construct item kind options s = .ok d s') :
    Laid (fun ts => Lies foot ts (.declaration d)) s s' := by
  obtain ⟨t, s₁, h₁, h₂⟩ := bind_eq_ok.1 h
  obtain ⟨q, rfl, h₃⟩ := cursor_bind_eq_ok h₂
  obtain ⟨l, s₂, h₄, h₅⟩ := bind_eq_ok.1 h₃
  obtain ⟨id, s₃, h₆, h₇⟩ := bind_eq_ok.1 h₅
  rw [items_eq_tryItems] at h₄
  cases h₆
  cases h₇
  -- The word, and then the items.
  obtain ⟨hgrow, hlaid⟩ := (advance_laid hs hk h₁).trans (tryItems_laid hi _ h₄)
  refine ⟨hgrow, fun heq => ?_⟩
  obtain ⟨_, hts, _, v, rfl, rfl, hl⟩ := hlaid heq
  refine ⟨_, hts.withId _, hts.liesFrom rfl trivial ?_⟩
  show LieInOrder foot v (kind l).children
  rw [hkind]
  exact hl

end

/-- No token is taken without a declaration. -/
theorem declarations_laid (foot : Token) (inDefinition : Bool) (budget : Nat) {l : List Declaration}
    (h : declarations inDefinition budget options s = .ok l s') :
    Laid (fun ts => LieInOrder foot ts (l.map .declaration) ∧ (l = [] → ts = [])) s s' := by
  induction budget generalizing s l with
  | zero =>
    cases h
    exact .nothing ⟨.nil, fun _ => rfl⟩
  | succ budget ih =>
    obtain ⟨q, hq, h₁⟩ := cursor_bind_eq_ok h
    have more : ∀ {s₁ : Session} {d : Declaration},
        Laid (fun ts => Lies foot ts (.declaration d)) s s₁ →
        (do return d :: (← declarations inDefinition budget) : Recovering (List Declaration))
          options s₁ = .ok l s' →
        Laid (fun ts => LieInOrder foot ts (l.map .declaration) ∧ (l = [] → ts = [])) s s' := by
      intro s₁ d hd h₃
      obtain ⟨l', s₂, h₄, h₅⟩ := bind_eq_ok.1 h₃
      cases h₅
      refine (hd.trans (ih h₄)).mono ?_
      rintro _ ⟨u, v, rfl, hu, hv, -⟩
      exact ⟨(LieInOrder.one hu).append hv, nofun⟩
    split at hq <;> subst hq
    · next hk =>
      obtain ⟨d, s₁, h₂, h₃⟩ := bind_eq_ok.1 h₁
      exact more (sectionOf_laid (Parser.constItem_lays foot) (fun _ => rfl) hk nofun h₂) h₃
    · next hk =>
      obtain ⟨d, s₁, h₂, h₃⟩ := bind_eq_ok.1 h₁
      exact more (sectionOf_laid (Parser.typeItem_lays foot) (fun _ => rfl) hk nofun h₂) h₃
    -- variables and procedures are noted, whatever is read behind them
    · obtain ⟨_, s₁, h₂, h₃⟩ := bind_eq_ok.1 h₁
      exact .of_note rfl h₂ (ih h₃).1
    · obtain ⟨_, s₁, h₂, h₃⟩ := bind_eq_ok.1 h₁
      exact .of_note rfl h₂ (ih h₃).1
    · cases h₁
      exact .nothing ⟨.nil, fun _ => rfl⟩

/-! ## Blocks

  A block that takes no token has a span all the same: it is empty, and lies at the token that follows. -/

/-- A body without statements takes its word, or nothing. -/
theorem body_laid {b : Option Span} (h : body options s = .ok b s') :
    Laid (fun ts => b = none ↔ ts = []) s s' := by
  obtain ⟨q, hq, h₁⟩ := cursor_bind_eq_ok h
  split at hq <;> subst hq
  · next hk =>
    obtain ⟨t, s₁, h₂, h₃⟩ := bind_eq_ok.1 h₁
    obtain ⟨q, hq, h₄⟩ := cursor_bind_eq_ok h₃
    dsimp only at hq
    split at hq <;> subst hq
    · -- there are statements, and they are noted
      obtain ⟨_, s₂, h₅, h₆⟩ := bind_eq_ok.1 h₄
      cases h₆
      exact .of_note (run_eq_ok h₂).2 h₅ (List.prefix_refl _)
    · cases h₄
      refine (advance_laid hk nofun h₂).mono ?_
      rintro _ rfl
      exact ⟨nofun, nofun⟩
  · cases h₁
    exact .nothing ⟨fun _ => rfl, fun _ => rfl⟩

/-- The block of a program lies in front of what follows it, and if nothing was taken for it, it is an
empty piece right there. -/
theorem block_laid (foot : Token) {b : Block} (h : block options s = .ok b s') :
    Laid (fun ts => (ts = [] → s.cursor.token = foot) →
      s.cursor.lastEnd ≤ s.cursor.token.span.start →
        LieInOrder foot (ts ++ [foot]) [.block b]) s s' := by
  obtain ⟨q, rfl, h₁⟩ := cursor_bind_eq_ok h
  obtain ⟨declarations, s₁, h₂, h₃⟩ := bind_eq_ok.1 h₁
  obtain ⟨body, s₂, h₄, h₅⟩ := bind_eq_ok.1 h₃
  cases h₅
  obtain ⟨hgrow, hlaid⟩ := (declarations_laid foot _ _ h₂).trans (body_laid h₄)
  refine ⟨hgrow, fun heq => ?_⟩
  obtain ⟨_, hts, u, v, rfl, ⟨hl, hu⟩, hv⟩ := hlaid heq
  refine ⟨_, hts, fun hfoot hle => ?_⟩
  by_cases hne : u ++ v = []
  · obtain ⟨rfl, rfl⟩ := List.append_eq_nil_iff.1 hne
    -- Nothing was taken: the block lies in front of the footer.
    have hempty : declarations = [] := List.map_eq_nil_iff.1 hl.eq_nil
    have hspan : s'.cursor.lastEnd = s.cursor.lastEnd := hts.2
    refine .one (.emptyBlock ⟨hempty, hv.2 rfl⟩ ?_)
    show Span.mk s.cursor.token.span.start (max s'.cursor.lastEnd s.cursor.token.span.start) = _
    rw [hspan, Nat.max_eq_right hle, hfoot rfl]
  · refine (LieInOrder.one (.node hne ?_ ?_ (hl.skip_right v))).skip_right [foot]
    -- Else it reaches to the end of the last token, which is behind its beginning.
    · intro ho
      have hcovers := hts.covers hne
      have hmax : max s'.cursor.lastEnd s.cursor.token.span.start = s'.cursor.lastEnd :=
        Nat.max_eq_left (hcovers.start_le_stop ho)
      show startOf? (u ++ v) = some s.cursor.token.span.start ∧
        stopOf? (u ++ v) = some (max s'.cursor.lastEnd s.cursor.token.span.start)
      rw [hmax]
      exact hcovers ho
    · rintro ⟨hnil, hnone⟩
      exact hne (List.append_eq_nil_iff.2 ⟨hu hnil, hv.1 hnone⟩)

/-! ## Units

  The token behind an empty block is the first one of the footer, so the footer is kept apart from the
  other tokens. -/

/-- The tokens end with the footer of a module, and the node lies on all of them; a block that is empty
lies in front of the footer. -/
def LiesToFooter (node : Node) (footer : Ident) (ts : List Token) : Prop :=
  ∃ foot front back, ts = front ++ back ∧ IsFooterFrom foot back footer ∧
    (Ordered ts → Lies foot ts node)

/-- The footer begins with the token at which the session stands. -/
theorem footer_laid {i : Ident} (h : footer options s = .ok i s') :
    Laid (IsFooterFrom s.cursor.token · i) s s' := by
  obtain ⟨hi, hlog⟩ := run_eq_ok h
  exact ⟨hlog ▸ List.prefix_refl _, fun _ => Parser.footer_lays hi⟩

/-- Name, imports, sections and the name in the footer. -/
theorem definitionModule_laid {m : DefinitionModule} (h : definitionModule options s = .ok m s') :
    Laid (LiesToFooter (.definitionModule m) m.footer) s s' := by
  obtain ⟨q, rfl, h₁⟩ := cursor_bind_eq_ok h
  obtain ⟨name, s₁, h₂, h₃⟩ := bind_eq_ok.1 h₁
  obtain ⟨imports, s₂, h₄, h₅⟩ := bind_eq_ok.1 h₃
  obtain ⟨declarations, s₃, h₆, h₇⟩ := bind_eq_ok.1 h₅
  obtain ⟨footer, s₄, h₈, h₉⟩ := bind_eq_ok.1 h₇
  cases h₉
  obtain ⟨q, rfl, h₁₀⟩ := cursor_bind_eq_ok (inside_eq_ok.1 h₆)
  -- Each part lies on the tokens taken for it, and nothing was noted in between.
  have header := run_laid (Parser.definitionHeader_lays s₃.cursor.token) h₂
  have imports := allImports_laid s₃.cursor.token (inside_eq_ok.1 h₄)
  have sections := declarations_laid s₃.cursor.token _ _ h₁₀
  have footer := footer_laid (inside_eq_ok.1 h₈)
  obtain ⟨hgrow, hlaid⟩ := header.trans (imports.trans (sections.trans footer))
  refine ⟨hgrow, fun heq => ?_⟩
  obtain ⟨_, hall, u, _, rfl, ⟨hne, hh⟩, v, _, rfl, hi, w, back, rfl, ⟨hd, -⟩, hf⟩ := hlaid heq
  refine ⟨_, hall, s₃.cursor.token, u ++ (v ++ w), back, ?_, hf, fun _ => ?_⟩
  · rw [List.append_assoc, List.append_assoc]
  · obtain ⟨behind, rfl, hfooter⟩ := hf.lieInOrder s₃.cursor.token
    refine hall.lies (List.append_ne_nil_of_left_ne_nil hne _) rfl trivial ?_
    -- The parts, one behind the other; the token of the footer belongs to none.
    have hparts := ((hh.append hi).append hd).append (hfooter.skip_left [s₃.cursor.token])
    rw [List.append_assoc, List.append_assoc] at hparts
    exact hparts

/-- An empty block lies in front of the footer, which is why the footer is kept in view. -/
theorem programModule_laid {m : ProgramModule} (h : programModule options s = .ok m s') :
    Laid (LiesToFooter (.programModule m) m.footer) s s' := by
  obtain ⟨q, rfl, h₁⟩ := cursor_bind_eq_ok h
  obtain ⟨⟨isImplementation, name⟩, s₁, h₂, h₃⟩ := bind_eq_ok.1 h₁
  obtain ⟨imports, s₂, h₄, h₅⟩ := bind_eq_ok.1 h₃
  obtain ⟨block, s₃, h₆, h₇⟩ := bind_eq_ok.1 h₅
  obtain ⟨footer, s₄, h₈, h₉⟩ := bind_eq_ok.1 h₇
  cases h₉
  -- The block may be empty, and then where it lies depends on what is taken behind it.
  have header := run_laid (Parser.programHeader_lays s₃.cursor.token) h₂
  have imports := allImports_laid s₃.cursor.token (inside_eq_ok.1 h₄)
  have block := block_laid s₃.cursor.token (inside_eq_ok.1 h₆)
  have footer := footer_laid (inside_eq_ok.1 h₈)
  obtain ⟨hgrow, hlaid⟩ := (header.trans imports).takes.trans (block.takes.trans footer.takes)
  refine ⟨hgrow, fun heq => ?_⟩
  obtain ⟨_, hall, _, _, rfl, ⟨hfront, u, v, rfl, ⟨hne, hh⟩, hi⟩, w, back, rfl, ⟨hw, hb⟩, hback, hf⟩ :=
    hlaid heq
  have hnefront : u ++ v ≠ [] := List.append_ne_nil_of_left_ne_nil hne v
  refine ⟨_, hall, s₃.cursor.token, u ++ v ++ w, back, ?_, hf, fun ho => ?_⟩
  · rw [List.append_assoc (u ++ v)]
  · obtain ⟨behind, rfl, hfooter⟩ := hf.lieInOrder s₃.cursor.token
    -- Something was taken in front of the block, so the last token ends before it.
    have hle := hfront.lastEnd_le (hw.trans hback) hnefront
      (List.append_ne_nil_of_right_ne_nil w (List.cons_ne_nil _ _)) ho
    have hblock := hb (fun hnil => ?_) hle
    · refine hall.lies (List.append_ne_nil_of_left_ne_nil hnefront _) rfl trivial ?_
      have hparts := (hh.append hi).append (hblock.append hfooter)
      rw [List.append_assoc w] at hparts
      exact hparts
    · -- nothing was taken for the block, so the footer is where the block would be
      subst hnil
      exact (hw.trans hback).token_eq

/-- The unit lies where its module does. -/
theorem LiesToFooter.unit {u : CompilationUnit} (h : LiesToFooter u.moduleNode u.footer ts) :
    LiesToFooter (.unit u) u.footer ts := by
  obtain ⟨foot, front, back, hts, hfooter, hlies⟩ := h
  refine ⟨foot, front, back, hts, hfooter, fun ho => ?_⟩
  have hm : Lies foot ts u.moduleNode := hlies ho
  have hcovers : Covers ts u.moduleNode.span := by
    apply hm.covers
    cases u <;> nofun
  have hspan : u.moduleNode.span = (Node.unit u).span := by cases u <;> rfl
  exact .node hm.ne_nil (hspan ▸ hcovers) trivial (.one hm)

/-- Either kind of module lies on all tokens taken. -/
theorem anyModule_laid {u : CompilationUnit} (h : anyModule options s = .ok u s') :
    Laid (LiesToFooter (.unit u) u.footer) s s' := by
  have program : (do return .program (← programModule) : Recovering CompilationUnit) options s =
      .ok u s' → Laid (LiesToFooter (.unit u) u.footer) s s' := by
    intro h
    obtain ⟨m, s₁, h₂, h₃⟩ := bind_eq_ok.1 h
    cases h₃
    exact (programModule_laid h₂).mono fun _ hm => LiesToFooter.unit hm
  obtain ⟨q, hq, h₁⟩ := cursor_bind_eq_ok h
  split at hq <;> subst hq
  · obtain ⟨m, s₁, h₂, h₃⟩ := bind_eq_ok.1 h₁
    cases h₃
    exact (definitionModule_laid h₂).mono fun _ hm => LiesToFooter.unit hm
  · exact program h₁
  · exact program h₁
  · exact absurd (run_eq_ok h₁).1 Parser.fail_ne_ok

/-- A unit that is read without a note lies on all that there was to read. -/
theorem unit_lies {u : CompilationUnit} (h : unit options s = .ok u s') (hlog : s'.log = s.log) :
    LiesToFooter (.unit u) u.footer s.cursor.rest := by
  obtain ⟨_, s₁, h₁, h₂⟩ := bind_eq_ok.1 h
  obtain ⟨_, s₂, h₃, h₄⟩ := bind_eq_ok.1 h₂
  cases h₄
  obtain ⟨rfl, hend⟩ := endOfSource_eq_ok h₃
  obtain ⟨ts, hts, hu⟩ := (anyModule_laid h₁).2 hlog
  have hrest : s.cursor.rest = ts := by
    rw [hts.1, List.map_eq_nil_iff.1 hend, List.append_nil]
  rw [hrest]
  exact hu

end Recovering

end Modula

import Modula.Recovery.Unit
import Modula.Proofs.Reading.Item
/-!
# What the readers of modules read

  A reader of modules goes on after an error, and the only trace of it is the log.  So both sides of
  reading are about the log as well.

  * `ReadsOnly p f phrase` — the log only grows, and whenever `p` ends with a value and has put nothing
    into it, the tokens that it took are a sentence of the phrase, and stand for the value.
  * `ReadsAll p f phrase follow` — on every sentence, `p` takes exactly the sentence and ends with what
    it stands for, with any options and any log, and leaves the log as it is.

  The first side is a law of two sessions, `Took`.  It passes through sequences (`Took.trans`), and
  behind a note there is nothing left to show (`Took.of_note`).

  Everything that is skipped is put into the log first, so nothing is skipped on a sentence.  And where
  nothing goes wrong the options are not looked at; so value and cursor in `ReadsAll` are the same ones
  for all options.
-/

namespace Modula.Recovering

open Token.Kind (word symbol)

variable {α β : Type}

/-! ## Taking a sequence apart -/

/-- A sequence of readers ends with a value if both parts do. -/
theorem bind_eq_ok {p : Recovering α} {g : α → Recovering β} {options : Options} {s s' : Session}
    {b : β} : (p >>= g) options s = .ok b s' ↔
      ∃ a d, p options s = .ok a d ∧ g a options d = .ok b s' := by
  rw [bind_apply]
  constructor
  · intro h
    cases hp : p options s with
    | ok a d => rw [hp] at h; exact ⟨a, d, rfl, h⟩
    | error e d => rw [hp] at h; cases h
  · rintro ⟨a, d, hp, hg⟩
    rw [hp]
    exact hg

theorem bind_of_ok {p : Recovering α} {g : α → Recovering β} {options : Options} {s d : Session}
    {a : α} (h : p options s = .ok a d) : (p >>= g) options s = g a options d := by
  rw [bind_apply, h]

/-! ## Steps -/

@[simp] theorem cursor_apply (options : Options) (s : Session) :
    cursor options s = .ok s.cursor s := rfl

/-- What is done at a look at the cursor depends on the cursor. -/
theorem cursor_bind_eq_ok {g : Cursor → Recovering β} {options : Options} {s s' : Session} {b : β}
    (h : (cursor >>= g) options s = .ok b s') : ∃ q, q = g s.cursor ∧ q options s = .ok b s' :=
  ⟨_, rfl, h⟩

/-- A parser that is run within a session leaves the log alone. -/
theorem run_of_ok {p : Parser α} {construct : Construct} {c c' : Cursor} {a : α}
    (h : p construct c = .ok a c') (options : Options) (log : List Recovery) :
    run construct p options ⟨c, log⟩ = .ok a ⟨c', log⟩ := by
  rw [run, h]

/-- And a value that it ends with is the value of the parser. -/
theorem run_eq_ok {p : Parser α} {construct : Construct} {options : Options} {s s' : Session} {a : α}
    (h : run construct p options s = .ok a s') :
    p construct s.cursor = .ok a s'.cursor ∧ s'.log = s.log := by
  unfold run at h
  split at h
  · next hp =>
    cases h
    exact ⟨hp, rfl⟩
  · cases h

theorem attempt_of_ok {p : Parser α} {construct : Construct} {c c' : Cursor} {a : α}
    (h : p construct c = .ok a c') (options : Options) (log : List Recovery) :
    attempt construct p options ⟨c, log⟩ = .ok (.ok a) ⟨c', log⟩ := by
  rw [attempt, h]

/-- An attempt notes nothing by itself, and says by its value how it ended. -/
theorem attempt_eq_ok {p : Parser α} {construct : Construct} {options : Options} {s s' : Session}
    {r : Except SyntaxError α} (h : attempt construct p options s = .ok r s') :
    s'.log = s.log ∧
      ((∃ a, r = .ok a ∧ p construct s.cursor = .ok a s'.cursor) ∨ ∃ e, r = .error e) := by
  unfold attempt at h
  split at h
  · next a c hp =>
    cases h
    exact ⟨rfl, Or.inl ⟨a, rfl, hp⟩⟩
  · next e c hp =>
    cases h
    exact ⟨rfl, Or.inr ⟨e, rfl⟩⟩

/-- A note is put behind the log. -/
theorem note_eq_ok {e : SyntaxError} {resumption : Cursor} {options : Options} {s s' : Session}
    {u : Unit} (h : note e resumption options s = .ok u s') :
    s'.log = s.log ++ [⟨e, resumption.remaining⟩] := by
  unfold note at h
  split at h
  · cases h
  · cases h
    rfl

/-! ## Logs

  Readers with recovery end with a value even behind an error.  Whether one was noted is told by the log,
  which only grows, so that a log that is the same in the end was the same all the time. -/

/-- Between two equal logs nothing is noted. -/
theorem log_between {a b c : List Recovery} (hab : a <+: b) (hbc : b <+: c) (h : c = a) : b = a := by
  subst h
  exact (hbc.eq_of_length_le hab.length_le).symm ▸ rfl

/-- The log has only grown from one session to the other, and if it is still the same, what was taken
between them has the property. -/
def Took (p : List Token.Kind → Prop) (s s' : Session) : Prop :=
  s.log <+: s'.log ∧ (s'.log = s.log → ∃ w, s.cursor.kinds = w ++ s'.cursor.kinds ∧ p w)

section

variable {p q : List Token.Kind → Prop} {s s₁ s₂ : Session}

/-- Nothing was taken, and nothing is a sentence of the phrase. -/
theorem Took.nothing (h : p []) : Took p s s := ⟨List.prefix_refl _, fun _ => ⟨[], rfl, h⟩⟩

/-- What was taken may be a sentence of a larger phrase. -/
theorem Took.mono (h : Took p s s₁) (hpq : ∀ w, p w → q w) : Took q s s₁ := by
  obtain ⟨hgrow, hclean⟩ := h
  refine ⟨hgrow, fun heq => ?_⟩
  obtain ⟨w, hw, hp⟩ := hclean heq
  exact ⟨w, hw, hpq w hp⟩

/-- Two stretches of tokens, one behind the other; the log is empty in the end only if it was all along.
-/
theorem Took.trans (h₁ : Took p s s₁) (h₂ : Took q s₁ s₂) :
    Took (fun w => ∃ u v, w = u ++ v ∧ p u ∧ q v) s s₂ := by
  obtain ⟨hgrow₁, hclean₁⟩ := h₁
  obtain ⟨hgrow₂, hclean₂⟩ := h₂
  refine ⟨hgrow₁.trans hgrow₂, fun heq => ?_⟩
  have hmid := log_between hgrow₁ hgrow₂ heq
  obtain ⟨u, hu, hp⟩ := hclean₁ hmid
  obtain ⟨v, hv, hq⟩ := hclean₂ (heq.trans hmid.symm)
  exact ⟨u ++ v, by rw [hu, hv, List.append_assoc], u, v, rfl, hp, hq⟩

/-- Behind a note the log is never what it was, so nothing has to be known about what was taken. -/
theorem Took.of_note {s₃ : Session} {e : SyntaxError} {resumption : Cursor} {options : Options}
    {u : Unit} (hlog : s₁.log = s.log) (h : note e resumption options s₁ = .ok u s₂)
    (hgrow : s₂.log <+: s₃.log) : Took p s s₃ := by
  rw [note_eq_ok h, hlog] at hgrow
  refine ⟨(List.prefix_append _ _).trans hgrow, fun heq => ?_⟩
  have hlen := hgrow.length_le
  rw [heq, List.length_append, List.length_singleton] at hlen
  omega

end

/-! ## The two sides

  Both sides are told about readers as they are about parsers.  The one says something only if nothing is
  noted, and the other one says that nothing is noted. -/

/-- If nothing is noted, what is taken is a sentence of the phrase, and stands for the value. -/
def ReadsOnly (p : Recovering α) (f : α → β) (phrase : Phrase β) : Prop :=
  ∀ ⦃options s a s'⦄, p options s = .ok a s' → Took (fun w => phrase w (f a)) s s'

/-- A sentence is taken as it is, whatever the options and the log are. -/
def ReadsAll (p : Recovering α) (f : α → β) (phrase : Phrase β) (follow : Token.Kind → Prop) : Prop :=
  ∀ ⦃c w b rest⦄, c.kinds = w ++ rest → phrase w b → follow (upcoming rest) →
    ∃ a c', (∀ options log, p options ⟨c, log⟩ = .ok a ⟨c', log⟩) ∧ f a = b ∧ c'.kinds = rest

/-- A parser reads only sentences, within a session too. -/
theorem run_readsOnly {p : Parser α} {f : α → β} {phrase : Phrase β} {construct : Construct}
    (hp : p.ReadsOnly f phrase) : ReadsOnly (run construct p) f phrase := by
  intro options s a s' h
  obtain ⟨ha, hlog⟩ := run_eq_ok h
  exact ⟨hlog ▸ List.prefix_refl _, fun _ => hp ha⟩

/-- And it reads all of them, whatever is in the log. -/
theorem run_readsAll (construct : Construct) {p : Parser α} {f : α → β} {phrase : Phrase β}
    {follow : Token.Kind → Prop} (hp : ∀ n, p.ReadsAll n f phrase follow) :
    ReadsAll (run construct p) f phrase follow := by
  intro c w b rest hc hw hf
  obtain ⟨a, c', h, ha, hc'⟩ := hp w.length construct hc hw (Nat.le_refl _) hf
  exact ⟨a, c', run_of_ok h, ha, hc'⟩

/-- To take one token is to take its kind. -/
theorem advance_took {construct : Construct} {options : Options} {s s' : Session} {t : Token}
    {k : Token.Kind} (hs : s.cursor.kind = k) (hk : k ≠ .eof)
    (h : run construct Parser.advance options s = .ok t s') : Took (· = [k]) s s' := by
  obtain ⟨hadv, hlog⟩ := run_eq_ok h
  refine ⟨hlog ▸ List.prefix_refl _, fun _ => ⟨[k], ?_, rfl⟩⟩
  rw [Cursor.kinds_of_kind hs hk, (EStateM.Result.ok.inj hadv).2, List.singleton_append]

/-! ## Items

  Imports and the items of a section are tried one after the other by the same loop.  If none of them
  fails, the loop reads a row of sentences. -/

section

variable {item : Parser α} {f : α → β} {phrase : Phrase β} {construct : Construct}

/-- The loop of `imports` and of `items`: as long as an item may start at the cursor, one is tried, and
a broken one is noted, with the place where its start and its error let reading go on. -/
def tryItems (starts : Token.Kind → Prop) [DecidablePred starts] (construct : Construct)
    (item : Parser α) (resume : Cursor → Cursor → Cursor) : (budget : Nat) → Recovering (List α)
  | 0 => return []
  | budget + 1 => do
    let start ← cursor
    if starts start.kind then
      match ← attempt construct item with
      | .ok a => return a :: (← tryItems starts construct item resume budget)
      | .error e =>
        let c ← cursor
        if c.atEnd then throw e
        note e (resume start c)
        tryItems starts construct item resume budget
    else return []

/-- Imports are items, with another beginning and another skip than those of sections. -/
theorem imports_eq_tryItems (budget : Nat) :
    imports budget = tryItems (fun k => k = word .IMPORT ∨ k = word .FROM) .importClause
      Parser.importClause (fun start _ => start.afterImport) budget := by
  induction budget with
  | zero => rfl
  | succ budget ih =>
    rw [imports, tryItems]
    refine congrArg _ (funext fun start => ite_congr rfl (fun _ => ?_) fun _ => rfl)
    refine congrArg _ (funext fun r => ?_)
    cases r <;> dsimp only <;> rw [ih]

/-- The items of a section are tried like imports. -/
theorem items_eq_tryItems (construct : Construct) (item : Parser α) (budget : Nat) :
    items construct item budget = tryItems (fun k => k.isName = true) construct item
      Cursor.resume budget := by
  induction budget with
  | zero => rfl
  | succ budget ih =>
    rw [items, tryItems]
    refine congrArg _ (funext fun start => ite_congr rfl (fun _ => ?_) fun _ => rfl)
    refine congrArg _ (funext fun r => ?_)
    cases r <;> dsimp only <;> rw [ih]

variable {starts : Token.Kind → Prop} [DecidablePred starts] {resume : Cursor → Cursor → Cursor}

/-- By induction on the budget.  Behind a note nothing is left to show, so items are sentences. -/
theorem tryItems_readsOnly (hi : item.ReadsOnly f phrase) (budget : Nat) :
    ReadsOnly (tryItems starts construct item resume budget) (List.map f) (Repeated phrase) := by
  induction budget with
  | zero =>
    intro options s l s' h
    cases h
    exact .nothing .none
  | succ budget ih =>
    intro options s l s' h
    obtain ⟨q, hq, h₁⟩ := cursor_bind_eq_ok h
    split at hq <;> subst hq
    · obtain ⟨r, s₁, h₂, h₃⟩ := bind_eq_ok.1 h₁
      obtain ⟨hlog, ⟨a, rfl, ha⟩ | ⟨e, rfl⟩⟩ := attempt_eq_ok h₂
      · obtain ⟨more, s₂, h₄, h₅⟩ := bind_eq_ok.1 h₃
        cases h₅
        -- The item is a sentence, and the log is as before.
        have first : Took (fun w => phrase w (f a)) s s₁ :=
          ⟨hlog ▸ List.prefix_refl _, fun _ => hi ha⟩
        refine (first.trans (ih h₄)).mono ?_
        rintro _ ⟨u, v, rfl, hu, hv⟩
        exact .more hu hv
      · obtain ⟨q, hq, h₄⟩ := cursor_bind_eq_ok h₃
        -- At the end of the source the error would have ended the reading.
        dsimp only at hq
        split at hq <;> subst hq
        · obtain ⟨_, _, h₅, _⟩ := bind_eq_ok.1 h₄
          cases h₅
        · -- the item went wrong before the end of the source, so there is a note
          obtain ⟨_, s₂, h₅, h₆⟩ := bind_eq_ok.1 h₄
          exact .of_note hlog h₅ (ih h₆).1
    · cases h₁
      exact .nothing .none

/-- By induction on the budget, which is as large as the sentence.  Where none of the items is broken
nothing is skipped. -/
theorem tryItems_readsAll (hi : ∀ n, item.ReadsAll n f phrase fun _ => True)
    (hbegin : Begins starts phrase) (budget : Nat) :
    ∀ ⦃c w b rest⦄, c.kinds = w ++ rest → Repeated phrase w b → w.length ≤ budget →
      ¬ starts (upcoming rest) →
      ∃ l c', (∀ options log,
          tryItems starts construct item resume budget options ⟨c, log⟩ = .ok l ⟨c', log⟩) ∧
        l.map f = b ∧ c'.kinds = rest := by
  induction budget with
  | zero =>
    intro c w b rest hc hw hb _
    cases hw with
    | none => exact ⟨[], c, fun _ _ => rfl, rfl, hc⟩
    -- Every item takes a token, so a budget as large as the sentence is not used up.
    | more hu _ =>
      obtain ⟨k, v, rfl, -⟩ := hbegin hu
      exact absurd hb (Nat.not_succ_le_zero _)
  | succ budget ih =>
    intro c w b rest hc hw hb hr
    cases hw with
    | none =>
      -- No item begins at what follows, so the repetition stops.
      have hk : ¬ starts c.kind := by
        rw [Cursor.kind_eq_upcoming, hc]
        exact hr
      refine ⟨[], c, fun options log => ?_, rfl, hc⟩
      rw [tryItems, bind_of_ok (cursor_apply options _), if_neg hk, pure_apply]
    | @more u v _ _ hu hv =>
      obtain ⟨k, u, rfl, hk⟩ := hbegin hu
      rw [List.length_append, List.length_cons] at hb
      rw [List.append_assoc] at hc
      -- The first item is read whatever follows it; the others are left to the induction.
      obtain ⟨a, d, h₁, rfl, hd⟩ := hi _ construct hc hu (Nat.le_refl _) trivial
      obtain ⟨l, c', h₂, rfl, hc'⟩ := ih hd hv (by omega) hr
      have hstart : starts c.kind := by rwa [Cursor.kind_of_kinds hc]
      refine ⟨a :: l, c', fun options log => ?_, rfl, hc'⟩
      rw [tryItems, bind_of_ok (cursor_apply options _), if_pos hstart,
        bind_of_ok (attempt_of_ok h₁ _ _)]
      exact bind_of_ok (h₂ options log)

/-- What was read as imports is a row of imports. -/
theorem allImports_readsOnly :
    ReadsOnly allImports (List.map (Import.relabel .forget)) (Repeated IsImport) := by
  intro options s l s' h
  obtain ⟨q, rfl, h₁⟩ := cursor_bind_eq_ok h
  rw [imports_eq_tryItems] at h₁
  exact tryItems_readsOnly Parser.importClause_readsOnly _ h₁

/-- All imports are read, up to a token that begins none. -/
theorem allImports_readsAll :
    ReadsAll allImports (List.map (Import.relabel .forget)) (Repeated IsImport)
      fun k => k ≠ word .IMPORT ∧ k ≠ word .FROM := by
  rintro c w b rest hc hw hr
  obtain ⟨l, c', h, hl, hc'⟩ := tryItems_readsAll Parser.importClause_readsAll isImport_begins
    c.remaining hc hw (Cursor.length_le_remaining hc) (not_or.2 hr)
  refine ⟨l, c', fun options log => ?_, hl, hc'⟩
  rw [allImports, bind_of_ok (cursor_apply options _), imports_eq_tryItems]
  exact h options log

/-! ## Sections

  Each section is told by its word.  Where a section ends is seen from a token that begins no further
  item. -/

/-- A section is its word and a row of items; its number and its span are forgotten. -/
theorem sectionOf_readsOnly (hi : item.ReadsOnly f phrase) {kind : List α → DeclarationKind}
    {k : Token.Kind} (hk : k ≠ .eof) {options : Options} {s s' : Session} {d : Declaration}
    (hs : s.cursor.kind = k) (h : sectionOf construct item kind options s = .ok d s') :
    ∃ l, d.relabel .forget = ⟨0, (kind l).relabel .forget, .nowhere⟩ ∧
      Took (fun w => ∃ v, w = k :: v ∧ Repeated phrase v (l.map f)) s s' := by
  obtain ⟨t, s₁, h₁, h₂⟩ := bind_eq_ok.1 h
  obtain ⟨q, rfl, h₃⟩ := cursor_bind_eq_ok h₂
  obtain ⟨l, s₂, h₄, h₅⟩ := bind_eq_ok.1 h₃
  obtain ⟨id, s₃, h₆, h₇⟩ := bind_eq_ok.1 h₅
  rw [items_eq_tryItems] at h₄
  cases h₆
  cases h₇
  refine ⟨l, rfl, ((advance_took hs hk h₁).trans (tryItems_readsOnly hi _ h₄)).mono ?_⟩
  rintro _ ⟨_, v, rfl, rfl, hl⟩
  exact ⟨v, rfl, hl⟩

/-- A section is read to its end, which is seen from a token that is not a name. -/
theorem sectionOf_readsAll (construct : Construct) (kind : List α → DeclarationKind)
    (hi : ∀ n, item.ReadsAll n f phrase fun _ => True)
    (hbegin : Begins (fun k => k.isName = true) phrase)
    {k : Token.Kind} {c : Cursor} {w rest : List Token.Kind} {b : List β}
    (hc : c.kinds = k :: (w ++ rest)) (hw : Repeated phrase w b)
    (hr : (upcoming rest).isName = false) :
    ∃ d l c', (∀ options log, sectionOf construct item kind options ⟨c, log⟩ = .ok d ⟨c', log⟩) ∧
      l.map f = b ∧ d.relabel .forget = ⟨0, (kind l).relabel .forget, .nowhere⟩ ∧
      c'.kinds = rest := by
  have hd := Cursor.kinds_advance_of_kinds hc
  obtain ⟨l, c', h, hl, hc'⟩ := tryItems_readsAll hi hbegin c.advance.remaining hd hw
    (Cursor.length_le_remaining hd) (Bool.eq_false_iff.1 hr)
  refine ⟨⟨c'.nextId, kind l, ⟨c.token.span.start, c'.lastEnd⟩⟩, l,
    { c' with nextId := c'.nextId + 1 }, fun options log => ?_, hl, rfl, hc'⟩
  rw [sectionOf, bind_of_ok (run_of_ok (Parser.advance_apply _ c) options log),
    bind_of_ok (cursor_apply options _), items_eq_tryItems, bind_of_ok (h options log)]
  rfl

end

/-- By induction on the budget; variables and procedures would be noted. -/
theorem declarations_readsOnly (inDefinition : Bool) (budget : Nat) :
    ReadsOnly (declarations inDefinition budget) (List.map (Declaration.relabel .forget))
      (Repeated IsSection) := by
  induction budget with
  | zero =>
    intro options s l s' h
    cases h
    exact .nothing .none
  | succ budget ih =>
    intro options s l s' h
    obtain ⟨q, hq, h₁⟩ := cursor_bind_eq_ok h
    split at hq <;> subst hq
    · next hk =>
      obtain ⟨d, s₁, h₂, h₃⟩ := bind_eq_ok.1 h₁
      obtain ⟨more, s₂, h₄, h₅⟩ := bind_eq_ok.1 h₃
      cases h₅
      obtain ⟨items, hd, htook⟩ := sectionOf_readsOnly Parser.constItem_readsOnly (by nofun) hk h₂
      refine (htook.trans (ih h₄)).mono ?_
      rintro _ ⟨_, v, rfl, ⟨u, rfl, hu⟩, hv⟩
      rw [List.map_cons, hd]
      exact .more (.constants hu) hv
    · next hk =>
      obtain ⟨d, s₁, h₂, h₃⟩ := bind_eq_ok.1 h₁
      obtain ⟨more, s₂, h₄, h₅⟩ := bind_eq_ok.1 h₃
      cases h₅
      obtain ⟨items, hd, htook⟩ := sectionOf_readsOnly Parser.typeItem_readsOnly (by nofun) hk h₂
      refine (htook.trans (ih h₄)).mono ?_
      rintro _ ⟨_, v, rfl, ⟨u, rfl, hu⟩, hv⟩
      rw [List.map_cons, hd]
      exact .more (.types hu) hv
    -- variables and procedures are noted, whatever is read behind them
    · obtain ⟨_, s₁, h₂, h₃⟩ := bind_eq_ok.1 h₁
      exact .of_note rfl h₂ (ih h₃).1
    · obtain ⟨_, s₁, h₂, h₃⟩ := bind_eq_ok.1 h₁
      exact .of_note rfl h₂ (ih h₃).1
    · cases h₁
      exact .nothing .none

/-- A token that comes behind the sections of a module. -/
def EndsSections (k : Token.Kind) : Prop := k = word .BEGIN ∨ k = word .END

/-- At a section, the section is read first and the others behind it. -/
theorem declarations_of_isSection (inDefinition : Bool) (budget : Nat) {c : Cursor}
    {w rest : List Token.Kind} {b : Declaration} (hc : c.kinds = w ++ rest) (hw : IsSection w b)
    (hr : (upcoming rest).isName = false) :
    ∃ d c', (∀ options log, declarations inDefinition (budget + 1) options ⟨c, log⟩ =
        (do return d :: (← declarations inDefinition budget)) options ⟨c', log⟩) ∧
      d.relabel .forget = b ∧ c'.kinds = rest := by
  -- One round for the section, with its own word and its own items.
  cases hw with
  | constants hw =>
    obtain ⟨d, items, c', h, rfl, hd, hc'⟩ := sectionOf_readsAll .constDeclaration .constants
      Parser.constItem_readsAll isConstItem_begins hc hw hr
    refine ⟨d, c', fun options log => ?_, hd, hc'⟩
    rw [declarations, bind_of_ok (cursor_apply options _), Cursor.kind_of_kinds hc]
    exact bind_of_ok (h options log)
  | types hw =>
    obtain ⟨d, items, c', h, rfl, hd, hc'⟩ := sectionOf_readsAll .typeDeclaration .types
      Parser.typeItem_readsAll isTypeItem_begins hc hw hr
    refine ⟨d, c', fun options log => ?_, hd, hc'⟩
    rw [declarations, bind_of_ok (cursor_apply options _), Cursor.kind_of_kinds hc]
    exact bind_of_ok (h options log)

/-- By induction on the budget, with one round for each section. -/
theorem declarations_readsAll (inDefinition : Bool) (budget : Nat) :
    ∀ ⦃c w b rest⦄, c.kinds = w ++ rest → Repeated IsSection w b → w.length ≤ budget →
      EndsSections (upcoming rest) →
      ∃ l c', (∀ options log,
          declarations inDefinition budget options ⟨c, log⟩ = .ok l ⟨c', log⟩) ∧
        l.map (Declaration.relabel .forget) = b ∧ c'.kinds = rest := by
  induction budget with
  | zero =>
    intro c w b rest hc hw hb _
    cases hw with
    | none => exact ⟨[], c, fun _ _ => rfl, rfl, hc⟩
    | more hu _ =>
      obtain ⟨k, v, rfl, -⟩ := isSection_begins hu
      exact absurd hb (Nat.not_succ_le_zero _)
  | succ budget ih =>
    intro c w b rest hc hw hb hr
    cases hw with
    | none =>
      refine ⟨[], c, fun options log => ?_, rfl, hc⟩
      have hk : EndsSections c.kind := by rwa [Cursor.kind_eq_upcoming, hc]
      rw [declarations, bind_of_ok (cursor_apply options _)]
      rcases hk with hk | hk <;> rw [hk] <;> rfl
    | @more u v _ _ hu hv =>
      have hlen : 0 < u.length := by
        obtain ⟨k, u, rfl, -⟩ := isSection_begins hu
        exact Nat.succ_pos _
      -- the items of a section end before the next section, which does not begin with a name
      have hnext : (upcoming (v ++ rest)).isName = false := by
        cases hv with
        | none =>
          show (upcoming rest).isName = false
          rcases hr with hr | hr <;> rw [hr] <;> rfl
        | more hs _ =>
          obtain ⟨k, v, rfl, rfl | rfl⟩ := isSection_begins hs <;> rfl
      rw [List.length_append] at hb
      rw [List.append_assoc] at hc
      obtain ⟨d, c₁, h₁, rfl, hc₁⟩ :=
        declarations_of_isSection inDefinition budget hc hu hnext
      obtain ⟨l, c', h₂, rfl, hc'⟩ := ih hc₁ hv (by omega) hr
      exact ⟨d :: l, c', fun options log => (h₁ options log).trans (bind_of_ok (h₂ options log)),
        rfl, hc'⟩

theorem allDeclarations_readsOnly :
    ReadsOnly allDeclarations (List.map (Declaration.relabel .forget)) (Repeated IsSection) := by
  intro options s l s' h
  obtain ⟨q, rfl, h₁⟩ := cursor_bind_eq_ok h
  exact declarations_readsOnly _ _ h₁

theorem allDeclarations_readsAll :
    ReadsAll allDeclarations (List.map (Declaration.relabel .forget)) (Repeated IsSection)
      EndsSections := by
  intro c w b rest hc hw hr
  obtain ⟨l, c', h, hl, hc'⟩ :=
    declarations_readsAll true c.remaining hc hw (Cursor.length_le_remaining hc) hr
  refine ⟨l, c', fun options log => ?_, hl, hc'⟩
  rw [allDeclarations, bind_of_ok (cursor_apply options _)]
  exact h options log

/-! ## Blocks

  A program may have a `BEGIN` with nothing behind it.  Everything else between it and the footer is
  noted. -/

/-- A body that was read without a note has no statements. -/
theorem body_readsOnly : ReadsOnly body (Option.map Relabeling.forget.span) IsBody := by
  intro options s b s' h
  obtain ⟨q, hq, h₁⟩ := cursor_bind_eq_ok h
  split at hq <;> subst hq
  · next hk =>
    obtain ⟨t, s₁, h₂, h₃⟩ := bind_eq_ok.1 h₁
    obtain ⟨q, hq, h₄⟩ := cursor_bind_eq_ok h₃
    dsimp only at hq
    split at hq <;> subst hq
    · -- there are statements, and they are noted
      obtain ⟨_, s₂, h₅, h₆⟩ := bind_eq_ok.1 h₄
      cases h₆
      exact .of_note (run_eq_ok h₂).2 h₅ (List.prefix_refl _)
    -- `BEGIN` with nothing behind it
    · cases h₄
      refine (advance_took hk nofun h₂).mono ?_
      rintro _ rfl
      exact .some
  · cases h₁
    exact .nothing .none

/-- A body without statements is read up to the `END` behind it. -/
theorem body_readsAll :
    ReadsAll body (Option.map Relabeling.forget.span) IsBody (· = word .END) := by
  intro c w b rest hc hw hr
  cases hw with
  | none =>
    have hk : c.kind = word .END := by rwa [Cursor.kind_eq_upcoming, hc]
    refine ⟨none, c, fun options log => ?_, rfl, hc⟩
    rw [body, bind_of_ok (cursor_apply options _), if_neg (by rw [hk]; nofun), pure_apply]
  | some =>
    have hd : c.advance.kinds = rest := Cursor.kinds_advance_of_kinds hc
    have hk : c.advance.kind = word .END := by rwa [Cursor.kind_eq_upcoming, hd]
    refine ⟨some c.token.span, c.advance, fun options log => ?_, rfl, hd⟩
    rw [body, bind_of_ok (cursor_apply options _), if_pos (Cursor.kind_of_kinds hc),
      bind_of_ok (run_of_ok (Parser.advance_apply _ c) options log),
      bind_of_ok (cursor_apply options _)]
    exact congrFun (congrFun (if_neg fun hne => hne hk) options) _

/-- Sections and a body. -/
theorem block_readsOnly : ReadsOnly block (Block.relabel .forget) IsBlock := by
  intro options s b s' h
  obtain ⟨q, rfl, h₁⟩ := cursor_bind_eq_ok h
  obtain ⟨declarations, s₁, h₂, h₃⟩ := bind_eq_ok.1 h₁
  obtain ⟨body, s₂, h₄, h₅⟩ := bind_eq_ok.1 h₃
  cases h₅
  refine ((declarations_readsOnly _ _ h₂).trans (body_readsOnly h₄)).mono ?_
  rintro _ ⟨u, v, rfl, hd, hb⟩
  exact .block hd hb

/-- Both are read, one up to the other. -/
theorem block_readsAll : ReadsAll block (Block.relabel .forget) IsBlock (· = word .END) := by
  intro c w b rest hc hw hr
  cases hw with
  | @block u v _ _ hu hv =>
    rw [List.append_assoc] at hc
    have hb := Cursor.length_le_remaining hc
    have hnext : EndsSections (upcoming (v ++ rest)) := by
      cases hv with
      | none => exact Or.inr hr
      | some => exact Or.inl rfl
    obtain ⟨l, d, h₁, rfl, hd⟩ := declarations_readsAll false c.remaining hc hu hb hnext
    obtain ⟨body, c', h₂, rfl, hc'⟩ := body_readsAll hd hv hr
    refine ⟨⟨l, body, ⟨c.token.span.start, max c'.lastEnd c.token.span.start⟩⟩, c',
      fun options log => ?_, rfl, hc'⟩
    rw [block, bind_of_ok (cursor_apply options _)]
    exact (bind_of_ok (h₁ options log)).trans (bind_of_ok (h₂ options log))

/-! ## Modules

  The parts of a module are read one up to the other: none of them may begin with a token with which the
  one before could go on. -/

/-- Values pass through `inside` as they are. -/
theorem inside_eq_ok {moduleName : Ident} {p : Recovering α} {options : Options} {s s' : Session}
    {a : α} : inside moduleName p options s = .ok a s' ↔ p options s = .ok a s' := by
  unfold inside
  split
  · next hp => rw [hp]
  · next hp => rw [hp]; exact ⟨nofun, nofun⟩

/-- Header, imports, sections and footer of a definition module are a sentence together. -/
theorem definitionModule_readsOnly :
    ReadsOnly definitionModule (fun m => .definition (m.relabel .forget)) IsUnit := by
  intro options s m s' h
  obtain ⟨q, rfl, h₁⟩ := cursor_bind_eq_ok h
  obtain ⟨name, s₁, h₂, h₃⟩ := bind_eq_ok.1 h₁
  obtain ⟨imports, s₂, h₄, h₅⟩ := bind_eq_ok.1 h₃
  obtain ⟨declarations, s₃, h₆, h₇⟩ := bind_eq_ok.1 h₅
  obtain ⟨foot, s₄, h₈, h₉⟩ := bind_eq_ok.1 h₇
  cases h₉
  have header := run_readsOnly Parser.definitionHeader_readsOnly h₂
  have imports := allImports_readsOnly (inside_eq_ok.1 h₄)
  have sections := allDeclarations_readsOnly (inside_eq_ok.1 h₆)
  have footer := run_readsOnly Parser.footer_readsOnly (inside_eq_ok.1 h₈)
  refine (header.trans (imports.trans (sections.trans footer))).mono ?_
  rintro _ ⟨w₁, _, rfl, hh, w₂, _, rfl, hi, w₃, w₄, rfl, hd, hf⟩
  exact .definition hh hi hd hf

/-- The same with a block in place of the sections. -/
theorem programModule_readsOnly :
    ReadsOnly programModule (fun m => .program (m.relabel .forget)) IsUnit := by
  intro options s m s' h
  obtain ⟨q, rfl, h₁⟩ := cursor_bind_eq_ok h
  obtain ⟨⟨isImplementation, name⟩, s₁, h₂, h₃⟩ := bind_eq_ok.1 h₁
  obtain ⟨imports, s₂, h₄, h₅⟩ := bind_eq_ok.1 h₃
  obtain ⟨block, s₃, h₆, h₇⟩ := bind_eq_ok.1 h₅
  obtain ⟨foot, s₄, h₈, h₉⟩ := bind_eq_ok.1 h₇
  cases h₉
  have header := run_readsOnly Parser.programHeader_readsOnly h₂
  have imports := allImports_readsOnly (inside_eq_ok.1 h₄)
  have block := block_readsOnly (inside_eq_ok.1 h₆)
  have footer := run_readsOnly Parser.footer_readsOnly (inside_eq_ok.1 h₈)
  refine (header.trans (imports.trans (block.trans footer))).mono ?_
  rintro _ ⟨w₁, _, rfl, hh, w₂, _, rfl, hi, w₃, w₄, rfl, hb, hf⟩
  exact .program hh hi hb hf

/-- Any other first token ends with an error. -/
theorem anyModule_readsOnly :
    ReadsOnly anyModule (CompilationUnit.relabel .forget) IsUnit := by
  intro options s u s' h
  obtain ⟨q, hq, h₁⟩ := cursor_bind_eq_ok h
  split at hq <;> subst hq
  · obtain ⟨m, s₁, h₂, h₃⟩ := bind_eq_ok.1 h₁
    cases h₃
    exact definitionModule_readsOnly h₂
  · obtain ⟨m, s₁, h₂, h₃⟩ := bind_eq_ok.1 h₁
    cases h₃
    exact programModule_readsOnly h₂
  · obtain ⟨m, s₁, h₂, h₃⟩ := bind_eq_ok.1 h₁
    cases h₃
    exact programModule_readsOnly h₂
  · exact absurd (run_eq_ok h₁).1 Parser.fail_ne_ok

/-- Reading ends with a value at the end of the source only, and moves nothing. -/
theorem endOfSource_eq_ok {options : Options} {s s' : Session} {u : Unit}
    (h : endOfSource options s = .ok u s') : s' = s ∧ s.cursor.kinds = [] := by
  obtain ⟨q, hq, h₁⟩ := cursor_bind_eq_ok h
  split at hq <;> subst hq
  · exact absurd (run_eq_ok h₁).1 Parser.fail_ne_ok
  · next hk =>
    cases h₁
    refine ⟨rfl, ?_⟩
    rw [Bool.not_eq_false, Cursor.atEnd, List.isEmpty_iff] at hk
    rw [Cursor.kinds, hk, List.map_nil]

/-- At the end of the source it does. -/
theorem endOfSource_of_kinds {c : Cursor} (h : c.kinds = []) (options : Options)
    (log : List Recovery) : endOfSource options ⟨c, log⟩ = .ok () ⟨c, log⟩ := by
  rw [Cursor.kinds, List.map_eq_nil_iff] at h
  have hend : ¬ c.atEnd = false := by
    rw [Cursor.atEnd, h]
    exact Bool.noConfusion
  rw [endOfSource, bind_of_ok (cursor_apply options _), if_neg hend, pure_apply]

/-- A reading that notes nothing has read a compilation unit, and all of it. -/
theorem unit_readsOnly {options : Options} {s s' : Session} {u : CompilationUnit}
    (h : unit options s = .ok u s') (hlog : s'.log = s.log) :
    IsUnit s.cursor.kinds (u.relabel .forget) := by
  obtain ⟨_, s₁, h₁, h₂⟩ := bind_eq_ok.1 h
  obtain ⟨_, s₂, h₃, h₄⟩ := bind_eq_ok.1 h₂
  cases h₄
  obtain ⟨rfl, hend⟩ := endOfSource_eq_ok h₃
  obtain ⟨w, hw, hu⟩ := (anyModule_readsOnly h₁).2 hlog
  rw [hw, hend, List.append_nil]
  exact hu

/-- A footer begins with `END`. -/
theorem isFooter_upcoming {w : List Token.Kind} {i : Ident} (hw : IsFooter w i)
    (rest : List Token.Kind) : upcoming (w ++ rest) = word .END := by
  cases hw
  rfl

/-- Behind the imports of a module come its sections, its body or its footer. -/
theorem isSections_upcoming {u v : List Token.Kind} {l : List Declaration} (hu : Repeated IsSection u l)
    (hv : EndsSections (upcoming v)) :
    upcoming (u ++ v) ≠ word .IMPORT ∧ upcoming (u ++ v) ≠ word .FROM := by
  cases hu with
  | none =>
    show upcoming v ≠ _ ∧ upcoming v ≠ _
    rcases hv with hv | hv <;> rw [hv] <;> exact ⟨nofun, nofun⟩
  | more hs _ =>
    obtain ⟨k, w, rfl, rfl | rfl⟩ := isSection_begins hs <;> exact ⟨nofun, nofun⟩

/-- A definition module is read part by part; what begins a part ends the one in front of it. -/
theorem definitionModule_readsAll {c : Cursor} {h i d f rest : List Token.Kind} {name foot : Ident}
    {imports : List Import} {declarations : List Declaration}
    (hc : c.kinds = h ++ (i ++ (d ++ (f ++ rest)))) (hh : IsDefinitionHeader h name)
    (hi : Repeated IsImport i imports) (hd : Repeated IsSection d declarations)
    (hf : IsFooter f foot) :
    ∃ m c', (∀ options log, definitionModule options ⟨c, log⟩ = .ok m ⟨c', log⟩) ∧
      m.relabel .forget = ⟨name, imports, declarations, foot, .nowhere⟩ ∧ c'.kinds = rest := by
  -- What follows a part begins the next one that is not empty, at the latest the footer.
  have hend : EndsSections (upcoming (f ++ rest)) := Or.inr (isFooter_upcoming hf rest)
  obtain ⟨name, c₁, h₁, rfl, hc₁⟩ :=
    run_readsAll .moduleHeader Parser.definitionHeader_readsAll hc hh trivial
  obtain ⟨imports, c₂, h₂, rfl, hc₂⟩ := allImports_readsAll hc₁ hi (isSections_upcoming hd hend)
  obtain ⟨declarations, c₃, h₃, rfl, hc₃⟩ := allDeclarations_readsAll hc₂ hd hend
  obtain ⟨foot, c₄, h₄, rfl, hc₄⟩ :=
    run_readsAll .moduleFooter Parser.footer_readsAll hc₃ hf trivial
  -- Each part has been read for all options and logs, and so has the sequence of them.
  refine ⟨⟨name, imports, declarations, foot, ⟨c.token.span.start, c₄.lastEnd⟩⟩, c₄,
    fun options log => ?_, rfl, hc₄⟩
  rw [definitionModule, bind_of_ok (cursor_apply options _)]
  exact (bind_of_ok (h₁ options log)).trans ((bind_of_ok (inside_eq_ok.2 (h₂ options log))).trans
    ((bind_of_ok (inside_eq_ok.2 (h₃ options log))).trans
      (bind_of_ok (inside_eq_ok.2 (h₄ options log)))))

/-- So is a program module.  The block in it may be empty, and then the footer ends the imports. -/
theorem programModule_readsAll {c : Cursor} {h i b f rest : List Token.Kind} {isImplementation : Bool}
    {name foot : Ident} {imports : List Import} {bl : Block}
    (hc : c.kinds = h ++ (i ++ (b ++ (f ++ rest)))) (hh : IsProgramHeader h (isImplementation, name))
    (hi : Repeated IsImport i imports) (hb : IsBlock b bl) (hf : IsFooter f foot) :
    ∃ m c', (∀ options log, programModule options ⟨c, log⟩ = .ok m ⟨c', log⟩) ∧
      m.relabel .forget = ⟨isImplementation, name, imports, bl, foot, .nowhere⟩ ∧
      c'.kinds = rest := by
  have hend := isFooter_upcoming hf rest
  -- no import is left behind the imports
  have hnext : upcoming (b ++ (f ++ rest)) ≠ word .IMPORT ∧
      upcoming (b ++ (f ++ rest)) ≠ word .FROM := by
    cases hb with
    | block hu hv =>
      rw [List.append_assoc]
      apply isSections_upcoming hu
      cases hv with
      | none => exact Or.inr hend
      | some => exact Or.inl rfl
  obtain ⟨⟨isImplementation, name⟩, c₁, h₁, hh, hc₁⟩ :=
    run_readsAll .moduleHeader Parser.programHeader_readsAll hc hh trivial
  obtain ⟨rfl, rfl⟩ := Prod.mk.inj hh
  obtain ⟨imports, c₂, h₂, rfl, hc₂⟩ := allImports_readsAll hc₁ hi hnext
  obtain ⟨bl, c₃, h₃, rfl, hc₃⟩ := block_readsAll hc₂ hb hend
  obtain ⟨foot, c₄, h₄, rfl, hc₄⟩ :=
    run_readsAll .moduleFooter Parser.footer_readsAll hc₃ hf trivial
  refine ⟨⟨isImplementation, name, imports, bl, foot, ⟨c.token.span.start, c₄.lastEnd⟩⟩, c₄,
    fun options log => ?_, rfl, hc₄⟩
  rw [programModule, bind_of_ok (cursor_apply options _)]
  exact (bind_of_ok (h₁ options log)).trans ((bind_of_ok (inside_eq_ok.2 (h₂ options log))).trans
    ((bind_of_ok (inside_eq_ok.2 (h₃ options log))).trans
      (bind_of_ok (inside_eq_ok.2 (h₄ options log)))))

/-- A compilation unit is read with any options, and nothing is noted. -/
theorem unit_readsAll {c : Cursor} {b : CompilationUnit} (hb : IsUnit c.kinds b) :
    ∃ u c', (∀ options log, unit options ⟨c, log⟩ = .ok u ⟨c', log⟩) ∧ u.relabel .forget = b := by
  -- Behind the module nothing is left, so the unit is read with it.
  have finish : ∀ {u : CompilationUnit} {c' : Cursor},
      (∀ options log, anyModule options ⟨c, log⟩ = .ok u ⟨c', log⟩) → c'.kinds = [] →
      ∀ options log, unit options ⟨c, log⟩ = .ok u ⟨c', log⟩ := by
    intro u c' h hc' options log
    rw [unit, bind_of_ok (h options log), bind_of_ok (endOfSource_of_kinds hc' options log),
      pure_apply]
  generalize hks : c.kinds = ks at hb
  cases hb with
  | @definition h i d f _ _ _ _ hh hi hd hf =>
    have hk : c.kind = word .DEFINITION := by
      cases hh
      exact Cursor.kind_of_kinds hks
    have hc : c.kinds = h ++ (i ++ (d ++ (f ++ []))) := by rw [hks, List.append_nil]
    obtain ⟨m, c', h₁, hm, hc'⟩ := definitionModule_readsAll hc hh hi hd hf
    refine ⟨.definition m, c', finish (fun options log => ?_) hc', congrArg _ hm⟩
    rw [anyModule, bind_of_ok (cursor_apply options _), hk]
    exact bind_of_ok (h₁ options log)
  | @program h i b f _ _ _ _ _ hh hi hb hf =>
    -- A program module may begin with either of two words.
    have hk : c.kind = word .IMPLEMENTATION ∨ c.kind = word .MODULE := by
      cases hh with
      | program hn =>
        cases hn
        exact Or.inr (Cursor.kind_of_kinds hks)
      | implementation _ => exact Or.inl (Cursor.kind_of_kinds hks)
    have hc : c.kinds = h ++ (i ++ (b ++ (f ++ []))) := by rw [hks, List.append_nil]
    obtain ⟨m, c', h₁, hm, hc'⟩ := programModule_readsAll hc hh hi hb hf
    refine ⟨.program m, c', finish (fun options log => ?_) hc', congrArg _ hm⟩
    rw [anyModule, bind_of_ok (cursor_apply options _)]
    rcases hk with hk | hk <;> rw [hk] <;> exact bind_of_ok (h₁ options log)

/-- No sequence of tokens stands for two compilation units. -/
theorem isUnit_unique {w : List Token.Kind} {a b : CompilationUnit} (ha : IsUnit w a)
    (hb : IsUnit w b) : a = b := by
  -- both are what is read where the tokens are
  obtain ⟨c, rfl⟩ := Cursor.exists_kinds w
  obtain ⟨t, c₁, ht, rfl⟩ := unit_readsAll ha
  obtain ⟨u, c₂, hu, rfl⟩ := unit_readsAll hb
  have heq := (ht .default []).symm.trans (hu .default [])
  rw [(EStateM.Result.ok.inj heq).1]

end Modula.Recovering

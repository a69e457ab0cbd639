import Modula.Parser
import Modula.Proofs.Grammar.Name
/-!
# What a parser reads

  A parser is measured against a phrase from two sides.

  * `ReadsOnly p f phrase` — whenever `p` ends with a value, the tokens that it took are a sentence of
    the phrase, and stand for the value.
  * `ReadsAll n p f phrase follow` — on every sentence of at most `n` tokens, `p` takes exactly the
    sentence and ends with what it stands for, as long as a token that may follow comes next.

  Values and bare trees are brought together by the function `f`, which forgets ids and spans.  The
  bound `n` is what a budget is good for; a parser without a budget reads all sentences of any length.

  Both properties pass through the lists of `sepBy` (`sepBy_readsOnly`, `sepBy_readsAll`), and both
  look at a cursor through the kinds of its unread tokens alone.
-/

namespace Modula

/-- The first of these kinds; the end of the source stands behind them. -/
def upcoming (ks : List Token.Kind) : Token.Kind := ks.head?.getD .eof

/-- Behind all tokens comes the end of the source. -/
@[simp] theorem upcoming_nil : upcoming [] = .eof := rfl

@[simp] theorem upcoming_cons (k : Token.Kind) (ks : List Token.Kind) :
    upcoming (k :: ks) = k := rfl

namespace Cursor

/-- What the unread tokens are. -/
def kinds (c : Cursor) : List Token.Kind := c.rest.map Token.kind

/-- Kinds are told token by token. -/
theorem kinds_of_rest {c : Cursor} {us vs : List Token} (h : c.rest = us ++ vs) :
    c.kinds = us.map Token.kind ++ vs.map Token.kind := by
  rw [kinds, h, List.map_append]

theorem kind_of_rest {c : Cursor} {t : Token} {ts : List Token} (h : c.rest = t :: ts) :
    c.kind = t.kind := by
  rw [kind, h]

/-- What stands at a cursor is the first kind of those unread. -/
theorem kind_eq_upcoming (c : Cursor) : c.kind = upcoming c.kinds := by
  unfold kind kinds
  split <;> simp_all

/-- And what comes next is the second one. -/
theorem kindAfter_eq_upcoming (c : Cursor) : c.kindAfter = upcoming c.kinds.tail := by
  unfold kindAfter kinds
  cases h : c.rest with
  | nil => rfl
  | cons t ts => cases ts <;> rfl

/-- To advance at the end of the source changes nothing. -/
@[simp] theorem kinds_advance (c : Cursor) : c.advance.kinds = c.kinds.tail := by
  rw [kinds, rest_advance, kinds, List.map_tail]

/-- As many tokens are left as kinds. -/
theorem remaining_eq_length (c : Cursor) : c.remaining = c.kinds.length := by
  rw [remaining, kinds, List.length_map]

/-- Every sequence of kinds can be made unread. -/
theorem exists_kinds (w : List Token.Kind) : ∃ c : Cursor, c.kinds = w := by
  refine ⟨⟨w.map fun k => ⟨k, .nowhere, 1, 1⟩, ⟨.eof, .nowhere, 1, 1⟩, 0, 0⟩, ?_⟩
  rw [kinds, List.map_map]
  exact List.map_id w

/-- A budget of all unread tokens covers whatever stands at their beginning. -/
theorem length_le_remaining {c : Cursor} {w rest : List Token.Kind} (h : c.kinds = w ++ rest) :
    w.length ≤ c.remaining := by
  rw [remaining_eq_length, h, List.length_append]
  exact Nat.le_add_right _ _

/-- Unless it is the end of the source, what stands at the cursor is an unread token. -/
theorem kinds_of_kind {c : Cursor} {k : Token.Kind} (h : c.kind = k) (hk : k ≠ .eof) :
    c.kinds = k :: c.advance.kinds := by
  rw [kind_eq_upcoming] at h
  rw [kinds_advance]
  cases hc : c.kinds with
  | nil => rw [hc] at h; exact absurd h.symm hk
  | cons k' ks => rw [hc] at h; rw [← h]; rfl

/-- The first kind of a sentence is what stands at the cursor. -/
theorem kind_of_kinds {c : Cursor} {k : Token.Kind} {ks : List Token.Kind} (h : c.kinds = k :: ks) :
    c.kind = k := by
  rw [kind_eq_upcoming, h, upcoming_cons]

/-- At a qualified name stands a name. -/
theorem kind_of_isQualident {c : Cursor} {w rest : List Token.Kind} {q : Qualident}
    (hw : IsQualident w q) (h : c.kinds = w ++ rest) : ∃ text, c.kind = .name text := by
  obtain ⟨k, v, rfl, hk⟩ := isQualident_begins hw
  rw [kind_of_kinds h]
  cases k <;> first | exact ⟨_, rfl⟩ | cases hk

/-- And behind it the others are left. -/
theorem kinds_advance_of_kinds {c : Cursor} {k : Token.Kind} {ks : List Token.Kind}
    (h : c.kinds = k :: ks) : c.advance.kinds = ks := by
  rw [kinds_advance, h, List.tail_cons]

end Cursor

namespace Parser

variable {α β γ : Type}

/-! ## Taking a sequence apart

  All parsers are sequences of steps, so that from a run with a value the runs of the steps follow, and
  the other way round. -/

/-- A sequence ends with a value if both parts do, the second one where the first one has left off. -/
theorem bind_eq_ok {p : Parser α} {g : α → Parser β} {construct : Construct} {c c' : Cursor}
    {b : β} : (p >>= g) construct c = .ok b c' ↔
      ∃ a d, p construct c = .ok a d ∧ g a construct d = .ok b c' := by
  rw [bind_apply]
  constructor
  · intro h
    cases hp : p construct c with
    | ok a d => rw [hp] at h; exact ⟨a, d, rfl, h⟩
    | error e d => rw [hp] at h; cases h
  · rintro ⟨a, d, hp, hg⟩
    rw [hp]
    exact hg

/-- Behind a value, the second part is all that is left. -/
theorem bind_of_ok {p : Parser α} {g : α → Parser β} {construct : Construct} {c d : Cursor} {a : α}
    (h : p construct c = .ok a d) : (p >>= g) construct c = g a construct d := by
  rw [bind_apply, h]

/-- An error of the first part is the error of the sequence. -/
theorem bind_of_error {p : Parser α} {construct : Construct} {c d : Cursor} {e : SyntaxError}
    (h : p construct c = .error e d) (g : α → Parser β) :
    (p >>= g) construct c = .error e d := by
  rw [bind_apply, h]

/-! ## Steps

  What each step does is told twice: as an equation where the token is known, and as what follows from a
  value. -/

@[simp] theorem get_apply (construct : Construct) (c : Cursor) :
    (get : Parser Cursor) construct c = .ok c c := rfl

@[simp] theorem kind_apply (construct : Construct) (c : Cursor) :
    kind construct c = .ok c.kind c := rfl

/-- Where the kind is known the choice is made. -/
theorem kind_bind_of_kind {g : Token.Kind → Parser β} {construct : Construct} {c : Cursor}
    {k : Token.Kind} (h : c.kind = k) : (kind >>= g) construct c = g k construct c := by
  rw [bind_of_ok (kind_apply construct c), h]

/-- What is done at a look at the cursor depends on the kind of the token there. -/
theorem kind_bind_eq_ok {g : Token.Kind → Parser β} {construct : Construct} {c c' : Cursor} {b : β}
    (h : (kind >>= g) construct c = .ok b c') : ∃ q, q = g c.kind ∧ q construct c = .ok b c' := by
  obtain ⟨_, _, hk, hg⟩ := bind_eq_ok.1 h
  cases hk
  exact ⟨_, rfl, hg⟩

@[simp] theorem remaining_apply (construct : Construct) (c : Cursor) :
    remaining construct c = .ok c.remaining c := rfl

@[simp] theorem lastEnd_apply (construct : Construct) (c : Cursor) :
    lastEnd construct c = .ok c.lastEnd c := rfl

@[simp] theorem advance_apply (construct : Construct) (c : Cursor) :
    advance construct c = .ok c.token c.advance := rfl

@[simp] theorem freshId_apply (construct : Construct) (c : Cursor) :
    freshId construct c = .ok c.nextId { c with nextId := c.nextId + 1 } := rfl

@[simp] theorem within_apply (phrase construct : Construct) (p : Parser α) (c : Cursor) :
    within phrase p construct c = p phrase c := rfl

/-- A failure never ends with a value. -/
theorem fail_ne_ok {cause : Token.Kind → SyntaxError.Cause} {construct : Construct} {c c' : Cursor}
    {a : α} : fail cause construct c ≠ .ok a c' := nofun

theorem expect_of_kind {k : Token.Kind} {construct : Construct} {c : Cursor} (h : c.kind = k) :
    expect k construct c = .ok c.token c.advance := if_pos h

/-- A token that was expected, and came. -/
theorem expect_eq_ok {k : Token.Kind} {construct : Construct} {c c' : Cursor} {t : Token}
    (h : expect k construct c = .ok t c') : c.kind = k ∧ c' = c.advance := by
  unfold expect at h
  split at h
  · next hk =>
    cases h
    exact ⟨hk, rfl⟩
  · exact absurd h fail_ne_ok

theorem close_of_kind {bracket : Bracket} {opener : Token} {construct : Construct} {c : Cursor}
    (h : c.kind = bracket.closer) : close bracket opener construct c = .ok () c.advance := if_pos h

/-- A bracket that was to be closed, and was. -/
theorem close_eq_ok {bracket : Bracket} {opener : Token} {construct : Construct} {c c' : Cursor}
    {u : Unit} (h : close bracket opener construct c = .ok u c') :
    c.kind = bracket.closer ∧ c' = c.advance := by
  unfold close at h
  split at h
  · next hk =>
    cases h
    exact ⟨hk, rfl⟩
  · exact absurd h fail_ne_ok

theorem accept_of_kind {k : Token.Kind} {construct : Construct} {c : Cursor} (h : c.kind = k) :
    accept k construct c = .ok true c.advance := if_pos h

/-- A token that is not there is not taken. -/
theorem accept_of_kind_ne {k : Token.Kind} {construct : Construct} {c : Cursor} (h : c.kind ≠ k) :
    accept k construct c = .ok false c := if_neg h

/-- Either the token is there and is taken, or it is not and nothing happens. -/
theorem accept_eq_ok {k : Token.Kind} {construct : Construct} {c c' : Cursor} {taken : Bool}
    (h : accept k construct c = .ok taken c') :
    (taken = true ∧ c.kind = k ∧ c' = c.advance) ∨ (taken = false ∧ c.kind ≠ k ∧ c' = c) := by
  unfold accept at h
  split at h
  · next hk =>
    cases h
    exact Or.inl ⟨rfl, hk, rfl⟩
  · next hk =>
    cases h
    exact Or.inr ⟨rfl, hk, rfl⟩

theorem ident_of_kind {text : String} {construct : Construct} {c : Cursor}
    (h : c.kind = .name text) : ident construct c = .ok ⟨text, c.token.span⟩ c.advance := by
  unfold ident
  rw [h]

/-- What was read as a name stood at the cursor as one. -/
theorem ident_eq_ok {construct : Construct} {c c' : Cursor} {i : Ident}
    (h : ident construct c = .ok i c') : c.kind = .name i.name ∧ c' = c.advance := by
  unfold ident at h
  split at h
  · next text hk =>
    cases h
    exact ⟨hk, rfl⟩
  · exact absurd h fail_ne_ok

/-! ## The two sides

  That a parser reads only sentences needs nothing to be known of what follows.  That it reads all of them
  does, since it goes on as long as it can. -/

/-- What the parser takes is a sentence of the phrase, and stands for its value. -/
def ReadsOnly (p : Parser α) (f : α → β) (phrase : Phrase β) : Prop :=
  ∀ ⦃construct c a c'⦄, p construct c = .ok a c' →
    ∃ w, c.kinds = w ++ c'.kinds ∧ phrase w (f a)

/-- The parser takes every sentence that is not too long, if the right token comes behind it. -/
def ReadsAll (n : Nat) (p : Parser α) (f : α → β) (phrase : Phrase β)
    (follow : Token.Kind → Prop) : Prop :=
  ∀ (construct : Construct) ⦃c w b rest⦄, c.kinds = w ++ rest → phrase w b → w.length ≤ n →
    follow (upcoming rest) → ∃ a c', p construct c = .ok a c' ∧ f a = b ∧ c'.kinds = rest

/-- A parser that starts with as much budget as there are tokens reads sentences of any length. -/
theorem ReadsAll.of_budget {p : Nat → Parser α} {f : α → β} {phrase : Phrase β}
    {follow : Token.Kind → Prop} (h : ∀ n, ReadsAll n (p n) f phrase follow) (n : Nat) :
    ReadsAll n (remaining >>= p) f phrase follow := by
  intro construct c w b rest hc hw _ hf
  rw [bind_of_ok (remaining_apply construct c)]
  exact h c.remaining construct hc hw (Cursor.length_le_remaining hc) hf

/-- If all sentences are read, none of them stands for two values: both are what is read where it
stands. -/
theorem ReadsAll.unique {p : Parser α} {f : α → β} {phrase : Phrase β} {follow : Token.Kind → Prop}
    (h : ∀ n, ReadsAll n p f phrase follow) (hf : follow .eof) {w : List Token.Kind} {a b : β}
    (ha : phrase w a) (hb : phrase w b) : a = b := by
  obtain ⟨c, hc⟩ := Cursor.exists_kinds w
  have hkinds : c.kinds = w ++ [] := by rw [hc, List.append_nil]
  obtain ⟨x, c₁, hx, rfl, -⟩ := h _ .compilationUnit hkinds ha (Nat.le_refl _) hf
  obtain ⟨y, c₂, hy, rfl, -⟩ := h _ .compilationUnit hkinds hb (Nat.le_refl _) hf
  have heq := hx.symm.trans hy
  rw [(EStateM.Result.ok.inj heq).1]

/-- A name takes one token. -/
theorem ident_readsOnly : ReadsOnly ident (Ident.relabel .forget) IsIdent := by
  intro construct c i c' h
  obtain ⟨hk, rfl⟩ := ident_eq_ok h
  exact ⟨[.name i.name], Cursor.kinds_of_kind hk nofun, .name i.name⟩

/-- Whatever comes behind a name, it is read. -/
theorem ident_readsAll (n : Nat) :
    ReadsAll n ident (Ident.relabel .forget) IsIdent fun _ => True := by
  intro construct c w i rest hc hw _ _
  cases hw with
  | name text =>
    exact ⟨_, _, ident_of_kind (Cursor.kind_of_kinds hc), rfl, Cursor.kinds_advance_of_kinds hc⟩

/-! ## Lists -/

/-- By induction on the budget.  A list cut short by it would still be a list. -/
theorem moreAfter_readsOnly {separator : Token.Kind} {item : Parser α} {f : α → β}
    {phrase : Phrase β} (hs : separator ≠ .eof) (hi : ReadsOnly item f phrase) (budget : Nat) :
    ReadsOnly (moreAfter separator item budget) (List.map f) (Further separator phrase) := by
  induction budget with
  | zero =>
    intro construct c l c' h
    cases h
    exact ⟨[], rfl, Or.inl ⟨rfl, rfl⟩⟩
  | succ budget ih =>
    intro construct c l c' h
    obtain ⟨taken, d, h₁, h₂⟩ := bind_eq_ok.1 h
    rcases accept_eq_ok h₁ with ⟨rfl, hk, hd⟩ | ⟨rfl, hk, hd⟩
    · obtain ⟨a, d₁, h₃, h₄⟩ := bind_eq_ok.1 h₂
      obtain ⟨l', d₂, h₅, h₆⟩ := bind_eq_ok.1 h₄
      cases h₆
      obtain ⟨u, hu, ha⟩ := hi h₃
      obtain ⟨v, hv, hl⟩ := ih h₅
      refine ⟨separator :: (u ++ v), ?_, Or.inr ⟨u ++ v, rfl, ?_⟩⟩
      · rw [Cursor.kinds_of_kind hk hs, ← hd, hu, hv, List.cons_append, List.append_assoc]
      · exact separated_cons_iff.2 ⟨u, v, rfl, ha, hl⟩
    · cases h₂
      exact ⟨[], by rw [hd, List.nil_append], Or.inl ⟨rfl, rfl⟩⟩

/-- What was read is a list with separators. -/
theorem sepBy_readsOnly {separator : Token.Kind} {item : Parser α} {f : α → β} {phrase : Phrase β}
    (hs : separator ≠ .eof) (hi : ReadsOnly item f phrase) :
    ReadsOnly (sepBy separator item) (fun l => f l.1 :: l.2.map f) (Separated separator phrase) := by
  intro construct c l c' h
  obtain ⟨a, d, h₁, h₂⟩ := bind_eq_ok.1 h
  obtain ⟨budget, _, hb, h₃⟩ := bind_eq_ok.1 h₂
  cases hb
  obtain ⟨more, d₁, h₄, h₅⟩ := bind_eq_ok.1 h₃
  cases h₅
  obtain ⟨u, hu, ha⟩ := hi h₁
  obtain ⟨v, hv, hl⟩ := moreAfter_readsOnly hs hi _ h₄
  refine ⟨u ++ v, ?_, separated_cons_iff.2 ⟨u, v, rfl, ha, hl⟩⟩
  rw [hu, hv, List.append_assoc]

/-- Behind an item comes the separator, or what may follow the last item. -/
theorem follow_of_further {separator : Token.Kind} {phrase : Phrase β} {follow : Token.Kind → Prop}
    {v rest : List Token.Kind} {l : List β} (hl : Further separator phrase v l)
    (hs : follow separator) (hr : follow (upcoming rest)) : follow (upcoming (v ++ rest)) := by
  rcases hl with ⟨rfl, rfl⟩ | ⟨v, rfl, -⟩
  · exact hr
  · exact hs

/-- By induction on the budget, which is as large as the sentence and so never short.  The item must be
such that a separator may follow. -/
theorem moreAfter_readsAll {n : Nat} {separator : Token.Kind} {item : Parser α} {f : α → β}
    {phrase : Phrase β} {follow : Token.Kind → Prop} (hs : follow separator)
    (hi : ReadsAll n item f phrase follow) (budget : Nat) :
    ∀ (construct : Construct) ⦃c w b rest⦄, c.kinds = w ++ rest → Further separator phrase w b →
      w.length ≤ n → w.length ≤ budget → follow (upcoming rest) → upcoming rest ≠ separator →
      ∃ l c', moreAfter separator item budget construct c = .ok l c' ∧ l.map f = b ∧
        c'.kinds = rest := by
  -- each round takes at least the separator, so the budget goes down slower than the sentence
  induction budget with
  | zero =>
    rintro construct c w b rest hc (⟨rfl, rfl⟩ | ⟨v, rfl, -⟩) - hb - -
    · exact ⟨[], c, rfl, rfl, hc⟩
    · exact absurd hb (Nat.not_succ_le_zero _)
  | succ budget ih =>
    rintro construct c w b rest hc (⟨rfl, rfl⟩ | ⟨v, rfl, hv⟩) hn hb hf hr
    · have hk : c.kind ≠ separator := by rwa [Cursor.kind_eq_upcoming, hc]
      exact ⟨[], c, bind_of_ok (accept_of_kind_ne hk), rfl, hc⟩
    · rw [List.length_cons] at hn hb
      obtain ⟨b, l, rfl⟩ : ∃ b' l, b = b' :: l := by cases hv <;> exact ⟨_, _, rfl⟩
      -- the separator is a token too, so the budget still covers what is behind the item
      obtain ⟨u, v, rfl, hu, hl⟩ := separated_cons_iff.1 hv
      rw [List.length_append] at hn hb
      rw [List.cons_append, List.append_assoc] at hc
      have hf₁ := follow_of_further hl hs hf
      obtain ⟨a, d, h₁, ha, hd⟩ :=
        hi construct (Cursor.kinds_advance_of_kinds hc) hu (by omega) hf₁
      obtain ⟨l', d', h₂, hl', hd'⟩ := ih construct hd hl (by omega) (by omega) hf hr
      refine ⟨a :: l', d', ?_, by rw [List.map_cons, ha, hl'], hd'⟩
      rw [moreAfter, bind_of_ok (accept_of_kind (Cursor.kind_of_kinds hc)), if_pos rfl,
        bind_of_ok h₁, bind_of_ok h₂, pure_apply]

/-- A whole list is read, if no separator comes behind it. -/
theorem sepBy_readsAll {n : Nat} {separator : Token.Kind} {item : Parser α} {f : α → β}
    {phrase : Phrase β} {follow : Token.Kind → Prop} (hs : follow separator)
    (hi : ReadsAll n item f phrase follow) :
    ReadsAll n (sepBy separator item) (fun l => f l.1 :: l.2.map f) (Separated separator phrase)
      fun k => follow k ∧ k ≠ separator := by
  rintro construct c w b rest hc hw hn ⟨hf, hr⟩
  obtain ⟨b, l, rfl⟩ : ∃ b' l, b = b' :: l := by cases hw <;> exact ⟨_, _, rfl⟩
  obtain ⟨u, v, rfl, hu, hl⟩ := separated_cons_iff.1 hw
  rw [List.length_append] at hn
  rw [List.append_assoc] at hc
  obtain ⟨a, d, h₁, ha, hd⟩ := hi construct hc hu (by omega) (follow_of_further hl hs hf)
  have hb := Cursor.length_le_remaining hd
  obtain ⟨l', d', h₂, hl', hd'⟩ := moreAfter_readsAll hs hi _ construct hd hl (by omega) hb hf hr
  refine ⟨(a, l'), d', ?_, by simp only [ha, hl'], hd'⟩
  rw [sepBy, bind_of_ok h₁, bind_of_ok (remaining_apply construct d), bind_of_ok h₂, pure_apply]

end Parser

end Modula

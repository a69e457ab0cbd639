import Mathlib.Data.List.GetD
import Modula.Lexer.Lookahead
import Modula.Proofs.Lexer.Lossless
/-!
# One stream of items

  A source is one stream of items, those that come if nothing but the next item is ever asked for.  A
  lexer with look-ahead reads this stream with a cursor: looking at an item leaves the cursor where it
  is, taking it moves the cursor on, and collecting moves it behind the last item that was collected.
  So no item is lost, repeated or handed out in another order, whatever was asked for before
  (`supplies_follow`).

  The invariant is about the future only (`ReadsFrom`): what is still to come from here are the items of
  the stream from the cursor on.
-/

namespace Modula

/-- So many items of a stream, from a cursor on. -/
def stretch (s : Nat → Item) (cursor count : Nat) : List Item := (List.range' cursor count).map s

namespace Lookahead

/-- The `n`-th item, counted from 0, if nothing but the next item is asked for. -/
def item : Nat → Lookahead → Item
  | 0, a => a.next.1
  | n + 1, a => item n a.next.2

/-! ## Demands on a stream

  The stream is a sequence of items without an end.  A cursor in it is all that a lexer with one item of
  lookahead has to know. -/

/-- What a demand at a cursor in a stream is answered with, and where the cursor is then.  The stream
ends with `eof` again and again. -/
inductive Answers (s : Nat → Item) (eof : Token) (cursor : Nat) : Demand → Supply → Nat → Prop
  | next : Answers s eof cursor .next (.item (s cursor)) (cursor + 1)
  | peek : Answers s eof cursor .peek (.item (s cursor)) cursor
  /-- The end of the source is the last item that is collected. -/
  | toEnd {n : Nat} : (∀ i ∈ stretch s cursor n, Lexer.isEnd i = false) →
    s (cursor + n) = .ok eof → (errorsOf (stretch s cursor n)).length < Lexer.errorLimit →
    Answers s eof cursor .tokenize
      (.all ⟨tokensOf (stretch s cursor (n + 1)), errorsOf (stretch s cursor (n + 1))⟩)
      (cursor + (n + 1))
  /-- The last item that is collected is the error that makes up the limit. -/
  | toLimit {n : Nat} {e : LexError} : (∀ i ∈ stretch s cursor n, Lexer.isEnd i = false) →
    s (cursor + n) = .error e →
    (errorsOf (stretch s cursor (n + 1))).length = Lexer.errorLimit →
    Answers s eof cursor .tokenize
      (.all ⟨tokensOf (stretch s cursor (n + 1)) ++ [eof], errorsOf (stretch s cursor (n + 1))⟩)
      (cursor + (n + 1))

/-- One demand after the other is answered, each where the one before it has left the cursor. -/
inductive Follow (s : Nat → Item) (eof : Token) : Nat → List Demand → List Supply → Prop
  | nil {cursor : Nat} : Follow s eof cursor [] []
  | cons {cursor cursor' : Nat} {demand : Demand} {supply : Supply} {demands : List Demand}
    {supplies : List Supply} : Answers s eof cursor demand supply cursor' →
    Follow s eof cursor' demands supplies →
      Follow s eof cursor (demand :: demands) (supply :: supplies)

/-- What is to come are the items of the stream from the cursor on. -/
structure ReadsFrom (s : Nat → Item) (eof : Token) (cursor : Nat) (a : Lookahead) : Prop where
  item_eq : ∀ n, a.item n = s (cursor + n)
  endToken_eq : a.lexer.endToken = eof

end Lookahead

/-! ## Stretches

  What is collected is a stretch of the stream, with the tokens and the errors in it sorted apart. -/

section

variable {s : Nat → Item} {cursor n : Nat}

theorem stretch_succ : stretch s cursor (n + 1) = s cursor :: stretch s (cursor + 1) n := by
  rw [stretch, List.range'_succ]
  rfl

theorem stretch_concat : stretch s cursor (n + 1) = stretch s cursor n ++ [s (cursor + n)] := by
  rw [stretch, List.range'_concat, List.map_append, Nat.one_mul]
  rfl

theorem tokensOf_append (a b : List Item) : tokensOf (a ++ b) = tokensOf a ++ tokensOf b :=
  List.filterMap_append

theorem errorsOf_append (a b : List Item) : errorsOf (a ++ b) = errorsOf a ++ errorsOf b :=
  List.filterMap_append

theorem isEof_of_mem_tokensOf {items : List Item} (h : ∀ i ∈ items, Lexer.isEnd i = false) :
    ∀ t ∈ tokensOf items, t.kind.isEof = false := by
  intro t ht
  obtain ⟨item, hitem, ht⟩ := List.mem_filterMap.1 ht
  cases item with
  | ok t' =>
    cases ht
    exact h _ hitem
  | error e => cases ht

end

namespace Lookahead

variable {s : Nat → Item} {eof : Token} {cursor : Nat} {a : Lookahead}

/-! ## Single items

  Whether an item has been looked at does not matter to what is still to come. -/

theorem endToken_next (l : Lexer) : l.next.2.endToken = l.endToken := by
  rcases l.next_spec with ⟨-, hnext⟩ | ⟨gap, text, rest, item, hrest, -, -, hnext⟩
  · rw [hnext, Lexer.endToken_eq, Lexer.endToken_eq, Lexer.atEnd_eq]
    rfl
  · rw [hnext]
    exact Lexer.endToken_behind hrest

theorem seen_next (a : Lookahead) : a.next.2.seen = none := by
  unfold next
  split <;> rfl

theorem endToken_lexer_next (a : Lookahead) : a.next.2.lexer.endToken = a.lexer.endToken := by
  unfold next
  split
  · rfl
  · exact endToken_next a.lexer

/-- What has been looked at is what is taken next, and nothing else has changed. -/
theorem next_peek (a : Lookahead) : a.peek.2.next = a.next := by
  have hseen := a.seen_next
  unfold peek
  generalize a.next = result at hseen ⊢
  obtain ⟨item, ⟨lexer, seen⟩⟩ := result
  obtain rfl : seen = none := hseen
  rfl

theorem item_peek (n : Nat) (a : Lookahead) : a.peek.2.item n = a.item n := by
  cases n with
  | zero => exact congrArg Prod.fst a.next_peek
  | succ n => exact congrArg (fun r => item n r.2) a.next_peek

namespace ReadsFrom

theorem next_eq (h : ReadsFrom s eof cursor a) : a.next.1 = s cursor := h.item_eq 0

theorem next (h : ReadsFrom s eof cursor a) : ReadsFrom s eof (cursor + 1) a.next.2 where
  item_eq n := by rw [Nat.add_assoc, Nat.add_comm 1 n]; exact h.item_eq (n + 1)
  endToken_eq := a.endToken_lexer_next.trans h.endToken_eq

theorem of_next {item : Item} {b : Lookahead} (h : ReadsFrom s eof cursor a)
    (hnext : a.next = (item, b)) : s cursor = item ∧ ReadsFrom s eof (cursor + 1) b := by
  have hitem := h.next_eq
  have hb := h.next
  rw [hnext] at hitem hb
  exact ⟨hitem.symm, hb⟩

theorem peek (h : ReadsFrom s eof cursor a) : ReadsFrom s eof cursor a.peek.2 where
  item_eq n := (item_peek n a).trans (h.item_eq n)
  endToken_eq := a.endToken_lexer_next.trans h.endToken_eq

end ReadsFrom

/-! ## Whole sources

  Collecting ends with the end of the stream or with the error that is one too many.  Both take the item. -/

/-- What is collected from `n` items and the one behind them, which ends the collecting: it is the end of
the source, or the error that comes when no more than `errorsLeft` have come. -/
structure Collects (s : Nat → Item) (eof : Token) (errorsLeft cursor n : Nat) (found : Tokenized) :
    Prop where
  goes_on : ∀ i ∈ stretch s cursor n, Lexer.isEnd i = false
  errors_eq : found.errors = errorsOf (stretch s cursor (n + 1))
  ends : (s (cursor + n) = .ok eof ∧ (errorsOf (stretch s cursor n)).length ≤ errorsLeft ∧
      found.tokens = tokensOf (stretch s cursor (n + 1))) ∨
    ∃ e, s (cursor + n) = .error e ∧ (errorsOf (stretch s cursor n)).length = errorsLeft ∧
      found.tokens = tokensOf (stretch s cursor (n + 1)) ++ [eof]

namespace Collects

variable {errorsLeft n : Nat} {found : Tokenized}

/-- One more token in front. -/
theorem ok {t : Token} (hs : s cursor = .ok t) (ht : t.kind.isEof = false)
    (h : Collects s eof errorsLeft (cursor + 1) n found) :
    Collects s eof errorsLeft cursor (n + 1) { found with tokens := t :: found.tokens } where
  goes_on := by
    rw [stretch_succ, hs]
    exact List.forall_mem_cons.2 ⟨ht, h.goes_on⟩
  errors_eq := by
    rw [stretch_succ, hs]
    exact h.errors_eq
  ends := by
    have hlast : cursor + (n + 1) = cursor + 1 + n := by omega
    rw [stretch_succ (n := n), stretch_succ (n := n + 1), hs, tokensOf_ok, hlast]
    rcases h.ends with ⟨hend, hfew, htokens⟩ | ⟨e, herror, hmany, htokens⟩
    · exact Or.inl ⟨hend, hfew, congrArg (t :: ·) htokens⟩
    · exact Or.inr ⟨e, herror, hmany, congrArg (t :: ·) htokens⟩

/-- One more error in front. -/
theorem error {e : LexError} (hs : s cursor = .error e)
    (h : Collects s eof errorsLeft (cursor + 1) n found) :
    Collects s eof (errorsLeft + 1) cursor (n + 1) { found with errors := e :: found.errors } where
  goes_on := by
    rw [stretch_succ, hs]
    exact List.forall_mem_cons.2 ⟨rfl, h.goes_on⟩
  errors_eq := by
    rw [stretch_succ, hs, errorsOf_error]
    exact congrArg (e :: ·) h.errors_eq
  ends := by
    have hlast : cursor + (n + 1) = cursor + 1 + n := by omega
    rw [stretch_succ (n := n), stretch_succ (n := n + 1), hs, errorsOf_error, List.length_cons, hlast]
    rcases h.ends with ⟨hend, hfew, htokens⟩ | ⟨e', herror, hmany, htokens⟩
    · exact Or.inl ⟨hend, Nat.succ_le_succ hfew, htokens⟩
    · exact Or.inr ⟨e', herror, congrArg Nat.succ hmany, htokens⟩

/-- Collecting with the whole limit answers a demand. -/
theorem answers (h : Collects s eof (Lexer.errorLimit - 1) cursor n found) :
    Answers s eof cursor .tokenize (.all found) (cursor + (n + 1)) := by
  obtain ⟨tokens, errors⟩ := found
  obtain ⟨hgoes, rfl, hends⟩ := h
  rcases hends with ⟨hend, hfew, rfl⟩ | ⟨e, herror, hmany, rfl⟩
  · exact .toEnd hgoes hend (Nat.lt_succ_of_le hfew)
  · refine .toLimit hgoes herror ?_
    rw [stretch_concat, errorsOf_append, List.length_append, hmany, herror]
    rfl

end Collects

/-- Collecting from a cursor on takes a stretch of the stream. -/
theorem tokenizeFrom_collects (hend : ∀ i, Lexer.isEnd (s i) = true → s i = .ok eof)
    {errorsLeft : Nat} (h : ReadsFrom s eof cursor a) :
    ∃ n, Collects s eof errorsLeft cursor n (a.tokenizeFrom errorsLeft).1 ∧
      ReadsFrom s eof (cursor + (n + 1)) (a.tokenizeFrom errorsLeft).2 := by
  -- By induction on the run; each turn has taken one item of the stream.
  fun_induction tokenizeFrom errorsLeft a generalizing cursor with
  | case1 errorsLeft a token b hnext hlast =>
    obtain ⟨hs, hb⟩ := h.of_next hnext
    -- The only token that stops a run is the one at the end of the stream.
    have heof : s cursor = .ok eof := hend cursor (hs ▸ hlast)
    obtain rfl : token = eof := Except.ok.inj (hs.symm.trans heof)
    refine ⟨0, ⟨fun i hi => absurd hi List.not_mem_nil, ?_, Or.inl ⟨heof, Nat.zero_le _, ?_⟩⟩, hb⟩
    · rw [stretch_succ, heof]
      rfl
    · rw [stretch_succ, heof]
      rfl
  | case2 errorsLeft a token b hnext hgoesOn found c hrest ih =>
    obtain ⟨hs, hb⟩ := h.of_next hnext
    obtain ⟨n, hfound, hc⟩ := ih hb
    rw [hrest] at hfound hc
    refine ⟨n + 1, hfound.ok hs (Bool.not_eq_true _ ▸ hgoesOn), ?_⟩
    rwa [Nat.add_assoc, Nat.add_comm 1 (n + 1)] at hc
  -- Here the run stops at an error, since no further one may be collected.
  | case3 a e b hnext =>
    obtain ⟨hs, hb⟩ := h.of_next hnext
    refine ⟨0, ⟨fun i hi => absurd hi List.not_mem_nil, ?_, Or.inr ⟨e, hs, rfl, ?_⟩⟩, hb⟩
    · rw [stretch_succ, hs]
      rfl
    · rw [stretch_succ, hs, hb.endToken_eq]
      rfl
  | case4 a e b hnext errorsLeft found c hrest ih =>
    obtain ⟨hs, hb⟩ := h.of_next hnext
    obtain ⟨n, hfound, hc⟩ := ih hb
    rw [hrest] at hfound hc
    refine ⟨n + 1, hfound.error hs, ?_⟩
    rwa [Nat.add_assoc, Nat.add_comm 1 (n + 1)] at hc

/-! ## Demands -/

/-- Every demand is answered from the stream, and then the cursor is where it has to be. -/
theorem ReadsFrom.supply (hend : ∀ i, Lexer.isEnd (s i) = true → s i = .ok eof)
    (h : ReadsFrom s eof cursor a) (demand : Demand) :
    ∃ cursor', Answers s eof cursor demand (a.supply demand).1 cursor' ∧
      ReadsFrom s eof cursor' (a.supply demand).2 := by
  cases demand with
  | next =>
    refine ⟨cursor + 1, ?_, h.next⟩
    rw [Lookahead.supply, h.next_eq]
    exact .next
  -- What was peeked at stays where it is, and it is handed out again.
  | peek =>
    refine ⟨cursor, ?_, h.peek⟩
    have hitem : a.peek.1 = s cursor := h.next_eq
    rw [Lookahead.supply, hitem]
    exact .peek
  | tokenize =>
    obtain ⟨n, hfound, hb⟩ := tokenizeFrom_collects hend h
    exact ⟨cursor + (n + 1), hfound.answers, hb⟩

theorem ReadsFrom.supplies (hend : ∀ i, Lexer.isEnd (s i) = true → s i = .ok eof)
    (h : ReadsFrom s eof cursor a) (demands : List Demand) :
    Follow s eof cursor demands (a.supplies demands) := by
  induction demands generalizing cursor a with
  | nil => exact .nil
  | cons demand more ih =>
    obtain ⟨cursor', hanswer, hb⟩ := h.supply hend demand
    exact .cons hanswer (ih hb)

/-- The only end of the source in a list of tokens is its last token. -/
theorem Answers.tokens_eq {demand : Demand} {found : Tokenized} {cursor' : Nat}
    (h : Answers s eof cursor demand (.all found) cursor') :
    ∃ tokens, found.tokens = tokens ++ [eof] ∧ ∀ t ∈ tokens, t.kind.isEof = false := by
  cases h with
  | @toEnd n hgoes hlast hfew =>
    refine ⟨_, ?_, isEof_of_mem_tokensOf hgoes⟩
    rw [stretch_concat, tokensOf_append, hlast]
    rfl
  | @toLimit n e hgoes hlast hmany =>
    refine ⟨_, rfl, isEof_of_mem_tokensOf ?_⟩
    rw [stretch_concat, hlast]
    exact List.forall_mem_append.2 ⟨hgoes, List.forall_mem_singleton.2 rfl⟩

theorem Follow.tokens_eq {demands : List Demand} {supplies : List Supply}
    (h : Follow s eof cursor demands supplies) {found : Tokenized} (hfound : .all found ∈ supplies) :
    ∃ tokens, found.tokens = tokens ++ [eof] ∧ ∀ t ∈ tokens, t.kind.isEof = false := by
  induction h with
  | nil => cases hfound
  | cons hanswer _ ih =>
    rcases List.mem_cons.1 hfound with rfl | hmem
    · exact hanswer.tokens_eq
    · exact ih hmem

/-- As long as nothing is looked at, the items are those of the lexer. -/
theorem item_eq_pull (n : Nat) (l : Lexer) : item n ⟨l, none⟩ = l.pull n := by
  induction n generalizing l with
  | zero => rfl
  | succ n ih => exact ih l.next.2

end Lookahead

/-- Whatever is demanded of a source in whatever order, one after the other, is answered from the one
stream of its items, which comes to the end of the source and stays there.  Every list of tokens that is
handed out ends with the end of the source, and has it nowhere else. -/
theorem supplies_follow (source : Text) (demands : List Lookahead.Demand) :
    let s := fun n => (Lookahead.ofText source).item n
    let supplies := (Lookahead.ofText source).supplies demands
    ∃ eof : Token, eof.kind = .eof ∧ eof.span = ⟨source.byteLength, source.byteLength⟩ ∧
      (∃ count, (∀ n < count, Lexer.isEnd (s n) = false) ∧ ∀ n, count ≤ n → s n = .ok eof) ∧
      Lookahead.Follow s eof 0 demands supplies ∧
      ∀ found, .all found ∈ supplies →
        ∃ tokens, found.tokens = tokens ++ [eof] ∧ ∀ t ∈ tokens, t.kind.isEof = false := by
  intro s supplies
  obtain ⟨items, htiled, hpulls⟩ := Lexer.exists_items (Lexer.ofText source)
  have hlossless := Lexer.Tiled.lossless htiled
  -- The stream is the list of items of the text, with its end behind it forever.
  have hs : ∀ n, s n = items.getD n (.ok (Lexer.ofText source).endToken) := fun n =>
    (Lookahead.item_eq_pull n _).trans (hpulls n)
  have hbefore : ∀ n < items.length, Lexer.isEnd (s n) = false := by
    intro n hn
    rw [hs, List.getD_eq_getElem _ _ hn]
    exact hlossless.not_end _ (List.getElem_mem hn)
  have hbehind : ∀ n, items.length ≤ n → s n = .ok (Lexer.ofText source).endToken := by
    intro n hn
    rw [hs, List.getD_eq_default _ _ hn]
  -- So the first item that says it is the end stands behind all the others.
  have hend : ∀ n, Lexer.isEnd (s n) = true → s n = .ok (Lexer.ofText source).endToken := by
    intro n hn
    refine hbehind n (Nat.le_of_not_lt fun hlt => ?_)
    rw [hbefore n hlt] at hn
    cases hn
  have hstart : Lookahead.ReadsFrom s (Lexer.ofText source).endToken 0 (Lookahead.ofText source) :=
    ⟨fun n => by rw [Nat.zero_add], rfl⟩
  have hfollow := hstart.supplies hend demands
  refine ⟨_, ?_, ?_, ⟨items.length, hbefore, hbehind⟩, hfollow, fun found => hfollow.tokens_eq⟩
  · rfl
  · rw [Lexer.endToken_eq]
    exact hlossless.eof_span

end Modula

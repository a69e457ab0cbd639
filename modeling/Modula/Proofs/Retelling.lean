import Mathlib.Order.MinMax
import Modula.Parser
import Modula.Proofs.Relabel
/-!
# The same tokens told in another way

  What is read depends on tokens only as far as it has to.  Ids count from some number on, spans are
  carried along, and of the operators with two spellings it does not matter which one is written.  A
  `Retelling` changes all of these at once and leaves the rest as it is; what a reader makes of retold
  tokens should then be what it makes of the tokens, retold.

  * `r.kind k` — the same kind, or the other spelling of an operator.  Whatever does not tell the two
    spellings apart does not see the difference (`Retelling.apply_kind`).
  * `Cursor.Retold r begun c c'` — the second cursor stands at the same place of the retold tokens.
    Where the last token ended is compared only after the first token was read; before that, a cursor may
    remember what was read by somebody else.
-/

namespace Modula

open Token.Kind (word symbol)

/-- Other ids, other places and other spellings of operators. -/
structure Retelling extends Relabeling where
  /-- What becomes of the offset at which a token begins or ends. -/
  point : Nat → Nat
  kind : Token.Kind → Token.Kind
  token : Token → Token
  id_succ : ∀ n, id (n + 1) = id n + 1
  span_eq : ∀ s, span s = ⟨point s.start, point s.stop⟩
  mono : Monotone point
  kind_eq : ∀ k, kind k = k ∨ (k = symbol .notEqual ∧ kind k = symbol .hash) ∨
    (k = symbol .ampersand ∧ kind k = word .AND)
  token_kind : ∀ t, (token t).kind = kind t.kind
  token_span : ∀ t, (token t).span = span t.span

attribute [simp] Retelling.token_span

namespace Retelling

variable (r : Retelling)

/-- Whatever takes both spellings of an operator for the same takes retold kinds for the same. -/
theorem apply_kind {β : Type _} (f : Token.Kind → β) (hne : f (symbol .notEqual) = f (symbol .hash))
    (hand : f (symbol .ampersand) = f (word .AND)) :
    ∀ k, f (r.kind k) = f k := by
  intro k
  rcases r.kind_eq k with h | ⟨rfl, h⟩ | ⟨rfl, h⟩
  · exact congrArg f h
  · rw [h, hne]
  · rw [h, hand]

/-- A kind that is no operator with two spellings. -/
def IsPlain (k : Token.Kind) : Prop :=
  k ≠ symbol .notEqual ∧ k ≠ symbol .hash ∧ k ≠ symbol .ampersand ∧ k ≠ word .AND

instance : DecidablePred IsPlain := fun _ => inferInstanceAs (Decidable (_ ∧ _ ∧ _ ∧ _))

/-- Nothing is retold as a plain kind but the kind itself. -/
theorem kind_eq_iff {wanted : Token.Kind} (h : IsPlain wanted) (k : Token.Kind) :
    r.kind k = wanted ↔ k = wanted := by
  obtain ⟨hne, hhash, hampersand, hand⟩ := h
  refine Iff.of_eq (r.apply_kind (· = wanted) (propext ?_) (propext ?_) k)
  · exact ⟨fun h => absurd h.symm hne, fun h => absurd h.symm hhash⟩
  · exact ⟨fun h => absurd h.symm hampersand, fun h => absurd h.symm hand⟩

/-- Plain kinds stay as they are. -/
theorem kind_of_isPlain {k : Token.Kind} (h : IsPlain k) : r.kind k = k := (r.kind_eq_iff h k).2 rfl

/-- The end of the source is plain. -/
theorem kind_eof : r.kind .eof = .eof := r.kind_of_isPlain (by decide)

@[simp] theorem span_start (s : Span) : (r.span s).start = r.point s.start := by rw [r.span_eq]

@[simp] theorem span_stop (s : Span) : (r.span s).stop = r.point s.stop := by rw [r.span_eq]

@[simp] theorem span_mk (start stop : Nat) : r.span ⟨start, stop⟩ = ⟨r.point start, r.point stop⟩ :=
  r.span_eq _

/-- A token begins where its beginning is retold. -/
theorem token_start (t : Token) : (r.token t).span.start = r.point t.span.start := by
  rw [r.token_span, r.span_start]

theorem token_stop (t : Token) : (r.token t).span.stop = r.point t.span.stop := by
  rw [r.token_span, r.span_stop]

/-- Places keep their order, and so the join of two spans is retold as the join. -/
@[simp] theorem span_join (a b : Span) : r.span (a.join b) = (r.span a).join (r.span b) := by
  rw [r.span_eq, r.span_eq, r.span_eq, Span.join, Span.join, Span.mk.injEq]
  exact ⟨r.mono.map_min, r.mono.map_max⟩

end Retelling

/-! ## Errors -/

/-- The cause as it is told about retold tokens. -/
def SyntaxError.Cause.retell (r : Retelling) : SyntaxError.Cause → SyntaxError.Cause
  | .expected what found => .expected what (r.kind found)
  | .qualifiedTag => .qualifiedTag
  | .expectedExpression found => .expectedExpression (r.kind found)
  | .expectedType found => .expectedType (r.kind found)
  | .unterminated bracket opener found => .unterminated bracket (r.token opener) (r.kind found)
  | .chainedRelation => .chainedRelation
  | .missingFooter moduleName => .missingFooter moduleName
  | .notSupported feature => .notSupported feature

/-- The error about the retold token. -/
def SyntaxError.retell (r : Retelling) (e : SyntaxError) : SyntaxError :=
  ⟨e.cause.retell r, r.token e.token, e.remaining, e.construct⟩

/-! ## Cursors -/

/-- The second cursor stands at the same place of the retold tokens. -/
structure Cursor.Retold (r : Retelling) (begun : Bool) (c c' : Cursor) : Prop where
  rest : c'.rest = c.rest.map r.token
  stop : c'.stop = r.token c.stop
  nextId : c'.nextId = r.id c.nextId
  lastEnd : begun = true → c'.lastEnd = r.point c.lastEnd

namespace Cursor.Retold

variable {r : Retelling} {begun : Bool} {c c' : Cursor}

/-- What is compared only after the first token may be left out. -/
theorem weaken (h : Retold r true c c') (begun : Bool) : Retold r begun c c' :=
  ⟨h.rest, h.stop, h.nextId, fun _ => h.lastEnd rfl⟩

/-- As many tokens are left. -/
theorem remaining_eq (h : Retold r begun c c') : c'.remaining = c.remaining := by
  rw [remaining, remaining, h.rest, List.length_map]

/-- Both have come to the end, or neither. -/
theorem atEnd_eq (h : Retold r begun c c') : c'.atEnd = c.atEnd := by
  rw [atEnd, atEnd, h.rest, List.isEmpty_map]

/-- The token at hand is the one retold, the end of the source included. -/
theorem token_eq (h : Retold r begun c c') : c'.token = r.token c.token := by
  rw [token, token, h.rest, h.stop]
  cases c.rest <;> rfl

theorem kind_eq (h : Retold r begun c c') : c'.kind = r.kind c.kind := by
  unfold kind
  rw [h.rest]
  cases c.rest with
  | nil => exact r.kind_eof.symm
  | cons t ts => exact r.token_kind t

/-- And so is the kind of the next one. -/
theorem kindAfter_eq (h : Retold r begun c c') : c'.kindAfter = r.kind c.kindAfter := by
  unfold kindAfter
  rw [h.rest]
  cases c.rest with
  | nil => exact r.kind_eof.symm
  | cons t ts =>
    cases ts with
    | nil => exact r.kind_eof.symm
    | cons t' ts => exact r.token_kind t'

/-- Once a token was read, the end of it is remembered. -/
theorem advance_of_rest {t : Token} {ts : List Token} (h : Retold r begun c c')
    (hc : c.rest = t :: ts) : Retold r true c.advance c'.advance := by
  unfold Cursor.advance
  rw [h.rest, hc]
  exact ⟨rfl, h.stop, h.nextId, fun _ => r.token_stop t⟩

/-- Behind a token, where it ended is known on both sides. -/
theorem advance_begun (h : Retold r begun c c') (hne : c.kind ≠ .eof) :
    Retold r true c.advance c'.advance := by
  cases hc : c.rest with
  | nil =>
    rw [kind, hc] at hne
    exact absurd rfl hne
  | cons t ts => exact h.advance_of_rest hc

/-- At the end of the source nothing changes, so what was known before is still known. -/
theorem advance (h : Retold r begun c c') : Retold r begun c.advance c'.advance := by
  cases hc : c.rest with
  | cons t ts => exact (h.advance_of_rest hc).weaken begun
  | nil =>
    unfold Cursor.advance
    rw [h.rest, hc]
    exact h

/-- A skip over as many tokens. -/
theorem skip (h : Retold r begun c c') (count : Nat) :
    Retold r begun (c.skip count) (c'.skip count) := by
  induction count generalizing c c' with
  | zero => exact h
  | succ count ih => exact ih h.advance

theorem withId {n n' : Nat} (h : Retold r begun c c') (hn : n' = r.id n) :
    Retold r begun { c with nextId := n } { c' with nextId := n' } :=
  ⟨h.rest, h.stop, hn, h.lastEnd⟩

end Cursor.Retold

end Modula

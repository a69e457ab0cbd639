import Mathlib.Computability.Language
import Mathlib.Order.CompletePartialOrder
import Modula.Proofs.Reading
/-!
# How far a parser comes

  Whether a parser ends with a value or with an error, the tokens that it has taken are not arbitrary.
  `Tracks p L` says this for a language `L` of token kinds.

  * If `p` ends with a value, it has taken a word of `L`.
  * If `p` ends with an error, the tokens in front of the error begin a word of `L`.  So no error comes
    late: at the tokens before it there is nothing wrong yet.

  In both cases the cursor has moved over unread tokens only, and the end of the source is still the
  same one (`Cursor.Reaches`).

  The error need not stand where the cursor is left.  That a qualified name cannot be a tag turns out
  behind the colon after it, and the error is about the name.  This is the only place where a parser
  overruns its error, and what lies between the two is told as well (`Overruns`).

  Parsers are put together by sequence, and languages by their product (`Tracks.bind`); so the language
  of a parser is read off its definition, and what remains to be shown is that it is contained in the
  one that the grammar has (`Tracks.mono`).
-/

namespace Modula

open Token.Kind (word symbol)
open Computability

/-- The sentences of a phrase. -/
def Phrase.words {α : Type} (phrase : Phrase α) : Language Token.Kind := {w | ∃ a, phrase w a}

/-- The word of one token. -/
def oneToken (k : Token.Kind) : Language Token.Kind := {[k]}

theorem mem_oneToken (k : Token.Kind) : [k] ∈ oneToken k := rfl

/-- These tokens begin a word of the language. -/
def Begun (L : Language Token.Kind) (u : List Token.Kind) : Prop := ∃ v, u ++ v ∈ L

section

variable {L M : Language Token.Kind} {u v w : List Token.Kind}

/-- Nothing at all begins every word, so that a language needs only one. -/
theorem Begun.nil (h : w ∈ L) : Begun L [] := ⟨w, h⟩

/-- What begins a word of a language begins one of any larger language. -/
theorem Begun.mono (h : Begun L u) (hLM : L ≤ M) : Begun M u :=
  let ⟨v, hv⟩ := h
  ⟨v, hLM hv⟩

/-- What begins a word of the first language begins one of the product, if there is a word to go on
with. -/
theorem Begun.mul_left (h : Begun L u) (hw : w ∈ M) : Begun (L * M) u := by
  obtain ⟨v, hv⟩ := h
  refine ⟨v ++ w, ?_⟩
  rw [← List.append_assoc]
  exact Language.append_mem_mul hv hw

end

/-! ## Movements of a cursor

  What a parser has taken is told by the tokens between two cursors.  An error is told by where it stands,
  since a parser may have looked beyond it before it gave up. -/

namespace Cursor

/-- From `c` over these tokens to `d`. -/
def Reaches (c : Cursor) (w : List Token.Kind) (d : Cursor) : Prop :=
  d.stop = c.stop ∧ ∃ ts, c.rest = ts ++ d.rest ∧ ts.map Token.kind = w

section

variable {c d e : Cursor} {u v w : List Token.Kind}

/-- The numbering and the end of the last token may change without any token being taken. -/
theorem Reaches.of_rest (hrest : d.rest = c.rest) (hstop : d.stop = c.stop) : c.Reaches [] d :=
  ⟨hstop, [], hrest.symm, rfl⟩

/-- To stay where one is. -/
theorem Reaches.refl (c : Cursor) : c.Reaches [] c := .of_rest rfl rfl

/-- Tokens taken one after the other. -/
theorem Reaches.trans (h₁ : c.Reaches u d) (h₂ : d.Reaches v e) : c.Reaches (u ++ v) e := by
  obtain ⟨hs₁, ts₁, hr₁, rfl⟩ := h₁
  obtain ⟨hs₂, ts₂, hr₂, rfl⟩ := h₂
  exact ⟨hs₂.trans hs₁, ts₁ ++ ts₂, by rw [hr₁, hr₂, List.append_assoc], List.map_append⟩

/-- In kinds: what lies ahead at first is what was taken and what lies ahead then. -/
theorem Reaches.kinds_eq (h : c.Reaches w d) : c.kinds = w ++ d.kinds := by
  obtain ⟨-, ts, hr, rfl⟩ := h
  rw [kinds, hr, List.map_append]
  rfl

/-- One step over a token that is not the end of input. -/
theorem reaches_advance {k : Token.Kind} (h : c.kind = k) (hk : k ≠ .eof) :
    c.Reaches [k] c.advance := by
  unfold kind at h
  unfold advance
  cases hr : c.rest with
  | nil => rw [hr] at h; exact absurd h.symm hk
  | cons t ts => rw [hr] at h; exact ⟨rfl, [t], hr, congrArg (fun k => [k]) h⟩

end

end Cursor

/-- The error is about the token at the cursor. -/
def SyntaxError.StandsAt (e : SyntaxError) (c : Cursor) : Prop :=
  e.token = c.token ∧ e.remaining = c.remaining

/-- The error is not about a feature that is passed over. -/
def SyntaxError.IsOfGrammar (e : SyntaxError) : Prop := ∀ feature, e.cause ≠ .notSupported feature

/-- Behind the first tokens there was an error, and the others were read nevertheless: none, or a qualified
name and a colon behind the `CASE` of a variant part. -/
def Overruns (u x : List Token.Kind) : Prop :=
  x = [] ∨ [word .CASE] <:+ u ∧ ∃ w q, x = w ++ [symbol .colon] ∧ IsQualident w q ∧
    q.isQualified = true

/-- More tokens in front of the error do not matter, for `CASE` is next to it. -/
theorem Overruns.append_left {u x : List Token.Kind} (v : List Token.Kind) (h : Overruns u x) :
    Overruns (v ++ u) x :=
  h.imp_right fun ⟨hcase, hx⟩ => ⟨hcase.trans (List.suffix_append v u), hx⟩

/-- From `c` on, there was an error behind tokens that begin a word, and the cursor was left at `c'`. -/
def Cursor.Fails (L : Language Token.Kind) (c : Cursor) (e : SyntaxError) (c' : Cursor) : Prop :=
  ∃ u d x, c.Reaches u d ∧ Begun L u ∧ e.StandsAt d ∧ d.Reaches x c' ∧ Overruns u x ∧ e.IsOfGrammar

section

variable {L M : Language Token.Kind} {c c' d : Cursor} {e : SyntaxError} {w : List Token.Kind}

/-- An error in order for a language is in order for every larger one. -/
theorem Cursor.Fails.mono (h : c.Fails L e c') (hLM : L ≤ M) : c.Fails M e c' := by
  obtain ⟨u, d, x, hu, hb, he, hx⟩ := h
  exact ⟨u, d, x, hu, hb.mono hLM, he, hx⟩

/-- An error in the first part of a sequence, behind which there are words to go on with. -/
theorem Cursor.Fails.mul_left (h : c.Fails L e c') (hw : w ∈ M) : c.Fails (L * M) e c' := by
  obtain ⟨u, d, x, hu, hb, he, hx⟩ := h
  exact ⟨u, d, x, hu, hb.mul_left hw, he, hx⟩

/-- An error at the first token of all. -/
theorem Cursor.Fails.here (hw : w ∈ L) (he : e.StandsAt c) (hcause : e.IsOfGrammar) :
    c.Fails L e c :=
  ⟨[], c, [], .refl c, .nil hw, he, .refl c, Or.inl rfl, hcause⟩

end

/-! ## Parsers and languages

  A parser tracks a language if it is not late with an error: whatever is in front of the error can be
  completed to a word.  That it takes words if it succeeds is told along with this. -/

namespace Parser

variable {α β : Type} {L M N : Language Token.Kind}

/-- What `Tracks` says about one run. -/
def TracksFrom (p : Parser α) (L : Language Token.Kind) (construct : Construct) (c : Cursor) : Prop :=
  match p construct c with
  | .ok _ c' => ∃ w ∈ L, c.Reaches w c'
  | .error e c' => c.Fails L e c'

/-- Values come behind a word of the language, errors behind the beginning of one. -/
def Tracks (p : Parser α) (L : Language Token.Kind) : Prop :=
  ∀ construct c, p.TracksFrom L construct c

section

variable {p : Parser α} {g : α → Parser β} {construct : Construct} {c c' : Cursor}

/-- For a run with a value: the word it has taken. -/
theorem TracksFrom.of_ok {a : α} {w : List Token.Kind} (h : p construct c = .ok a c') (hw : w ∈ L)
    (hc : c.Reaches w c') : p.TracksFrom L construct c := by
  rw [TracksFrom, h]
  exact ⟨w, hw, hc⟩

/-- For a run with an error: what it has taken up to it. -/
theorem TracksFrom.of_error {e : SyntaxError} (h : p construct c = .error e c')
    (he : c.Fails L e c') : p.TracksFrom L construct c := by
  rw [TracksFrom, h]
  exact he

/-- A value comes behind a word of the language. -/
theorem TracksFrom.reaches {a : α} (hp : p.TracksFrom L construct c)
    (h : p construct c = .ok a c') : ∃ w ∈ L, c.Reaches w c' := by
  rwa [TracksFrom, h] at hp

/-- An error comes behind the beginning of a word. -/
theorem TracksFrom.fails {e : SyntaxError} (hp : p.TracksFrom L construct c)
    (h : p construct c = .error e c') : c.Fails L e c' := by
  rwa [TracksFrom, h] at hp

/-- A run that tracks a language tracks every larger one. -/
theorem TracksFrom.mono (hp : p.TracksFrom L construct c) (hLM : L ≤ M) :
    p.TracksFrom M construct c := by
  cases h : p construct c with
  | ok a c' =>
    obtain ⟨w, hw, hc⟩ := hp.reaches h
    exact .of_ok h (hLM hw) hc
  | error e c' => exact .of_error h ((hp.fails h).mono hLM)

/-- The language read off a parser is compared with that of the grammar by this. -/
theorem Tracks.mono (hp : p.Tracks L) (hLM : L ≤ M) : p.Tracks M :=
  fun construct c => (hp construct c).mono hLM

/-! ### Sequences

  To complete the first part of a sequence is not enough.  There must be a word for the second part too,
  so the languages in this module are not empty. -/

/-- Behind tokens that go in front of every word of the second language, another parser may go on. -/
theorem TracksFrom.of_reaches {q : Parser α} {d : Cursor} {u : List Token.Kind}
    (heq : q construct c = p construct d) (hc : c.Reaches u d) (hp : p.TracksFrom M construct d)
    (hL : ∀ v ∈ M, u ++ v ∈ L) : q.TracksFrom L construct c := by
  cases h : p construct d with
  | ok a c' =>
    obtain ⟨v, hv, hd⟩ := hp.reaches h
    exact .of_ok (heq.trans h) (hL v hv) (hc.trans hd)
  | error e c' =>
    obtain ⟨v, d', x, hv, ⟨more, hmore⟩, he, hx, hover, hcause⟩ := hp.fails h
    refine .of_error (heq.trans h)
      ⟨u ++ v, d', x, hc.trans hv, ⟨more, ?_⟩, he, hx, hover.append_left u, hcause⟩
    rw [List.append_assoc]
    exact hL _ hmore

/-- If the second parser has words to go on with, the sequence tracks the product. -/
theorem TracksFrom.bind (hp : p.TracksFrom L construct c) (hg : ∀ a, (g a).Tracks M)
    {w : List Token.Kind} (hw : w ∈ M) : (p >>= g).TracksFrom (L * M) construct c := by
  cases h : p construct c with
  | ok a d =>
    obtain ⟨u, hu, hc⟩ := hp.reaches h
    exact .of_reaches (bind_of_ok h) hc (hg a construct d) fun v hv => Language.append_mem_mul hu hv
  | error e c' =>
    exact .of_error (bind_of_error h g) ((hp.fails h).mul_left hw)

/-- The language of a sequence is the product; there must be a word to go on with, since an error of the
first parser leaves only the beginning of one. -/
theorem Tracks.bind (hp : p.Tracks L) (hg : ∀ a, (g a).Tracks M) {w : List Token.Kind}
    (hw : w ∈ M) : (p >>= g).Tracks (L * M) :=
  fun construct c => (hp construct c).bind hg hw

/-- Behind a parser that takes no token, everything is still to be read. -/
theorem Tracks.bind_of_one (hp : p.Tracks 1) (hg : ∀ a, (g a).Tracks L) {w : List Token.Kind}
    (hw : w ∈ L) : (p >>= g).Tracks L := by
  have h := hp.bind hg hw
  rwa [one_mul] at h

/-- What is done behind a parser without taking a token does not matter. -/
theorem TracksFrom.bind_one (hp : p.TracksFrom L construct c) (hg : ∀ a, (g a).Tracks 1) :
    (p >>= g).TracksFrom L construct c := by
  have h := hp.bind hg Language.nil_mem_one
  rwa [mul_one] at h

/-- Nodes are made and numbers drawn behind a phrase without taking tokens. -/
theorem Tracks.bind_one (hp : p.Tracks L) (hg : ∀ a, (g a).Tracks 1) : (p >>= g).Tracks L :=
  fun construct c => (hp construct c).bind_one hg

end

/-! ### Steps -/

/-- To return a value takes nothing. -/
theorem pure_tracks (a : α) : (pure a : Parser α).Tracks 1 :=
  fun construct c => .of_ok (pure_apply a construct c) rfl (.refl c)

/-- To draw a number takes nothing. -/
theorem freshId_tracks : freshId.Tracks 1 :=
  fun construct c => .of_ok (freshId_apply construct c) rfl (.of_rest rfl rfl)

/-- To look back takes nothing. -/
theorem lastEnd_tracks : lastEnd.Tracks 1 :=
  fun construct c => .of_ok (lastEnd_apply construct c) rfl (.refl c)

/-- A construct is only a name for errors. -/
theorem within_tracks {p : Parser α} (phrase : Construct) (hp : p.Tracks L) :
    (within phrase p).Tracks L :=
  fun _ c => hp phrase c

section

variable {construct : Construct} {c : Cursor} {w : List Token.Kind}

/-- An error at the cursor is in order wherever there is a word to be read. -/
theorem fail_tracksFrom {cause : Token.Kind → SyntaxError.Cause} (hw : w ∈ L)
    (hcause : ∀ k feature, cause k ≠ .notSupported feature) :
    (fail cause : Parser α).TracksFrom L construct c :=
  .of_error rfl (.here hw ⟨rfl, rfl⟩ (hcause c.kind))

/-- The same at every cursor. -/
theorem fail_tracks {cause : Token.Kind → SyntaxError.Cause} (hw : w ∈ L)
    (hcause : ∀ k feature, cause k ≠ .notSupported feature) : (fail cause : Parser α).Tracks L :=
  fun _ _ => fail_tracksFrom hw hcause

/-- A step over a token of a known kind. -/
theorem advance_tracksFrom {k : Token.Kind} (hc : c.kind = k) (hk : k ≠ .eof) :
    advance.TracksFrom (oneToken k) construct c :=
  .of_ok (advance_apply construct c) rfl (Cursor.reaches_advance hc hk)

end

/-- One token, or an error in its place. -/
theorem expect_tracks {k : Token.Kind} (hk : k ≠ .eof) : (expect k).Tracks (oneToken k) := by
  intro construct c
  by_cases hc : c.kind = k
  · exact .of_ok (expect_of_kind hc) rfl (Cursor.reaches_advance hc hk)
  · exact .of_error (if_neg hc) (.here rfl ⟨rfl, rfl⟩ nofun)

/-- Closing brackets are tokens like others; the opener is only remembered for the error. -/
theorem close_tracks (bracket : Bracket) (opener : Token) :
    (close bracket opener).Tracks (oneToken bracket.closer) := by
  intro construct c
  by_cases hc : c.kind = bracket.closer
  · refine .of_ok (close_of_kind hc) rfl (Cursor.reaches_advance hc ?_)
    cases bracket <;> nofun
  · exact .of_error (if_neg hc) (.here rfl ⟨rfl, rfl⟩ nofun)

/-- A name, or an error in its place. -/
theorem ident_tracks : ident.Tracks IsIdent.words := by
  intro construct c
  by_cases hc : ∃ text, c.kind = .name text
  · obtain ⟨text, hc⟩ := hc
    exact .of_ok (ident_of_kind hc) ⟨_, .name text⟩ (Cursor.reaches_advance hc nofun)
  -- A match on the kind hides that all tokens but names lead to the same error.
  · have hfail : ident construct c = fail (.expected .name) construct c := by
      unfold ident
      split
      · next text h => exact absurd ⟨text, h⟩ hc
      · rfl
    exact .of_error hfail (.here ⟨_, .name ""⟩ ⟨rfl, rfl⟩ nofun)

/-! ### Choices

  A branch is tracked for the token it is taken at.  That is why one run is told of apart from all runs. -/

section

variable {g : Token.Kind → Parser β} {construct : Construct} {c : Cursor}

/-- A look at the kind of the token: each branch is tracked where its kind was found. -/
theorem kind_bind_tracksFrom (h : ∀ k, c.kind = k → (g k).TracksFrom L construct c) :
    (kind >>= g).TracksFrom L construct c := h c.kind rfl

/-- A budget is the number of tokens left. -/
theorem remaining_bind_tracksFrom {g : Nat → Parser β}
    (h : (g c.remaining).TracksFrom L construct c) : (remaining >>= g).TracksFrom L construct c := h

/-- A look at the whole cursor. -/
theorem get_bind_tracksFrom {g : Cursor → Parser β} (h : (g c).TracksFrom L construct c) :
    (get >>= g).TracksFrom L construct c := h

end

/-- An optional token decides what comes behind it. -/
theorem accept_bind_tracks {k : Token.Kind} {g : Bool → Parser β} (hk : k ≠ .eof)
    (ht : (g true).Tracks M) (hf : (g false).Tracks N) :
    (accept k >>= g).Tracks (oneToken k * M + N) := by
  intro construct c
  by_cases hc : c.kind = k
  · refine .of_reaches (bind_of_ok (accept_of_kind hc)) (Cursor.reaches_advance hc hk)
      (ht construct _) fun v hv => ?_
    exact Or.inl (Language.append_mem_mul (mem_oneToken k) hv)
  · exact .of_reaches (bind_of_ok (accept_of_kind_ne hc)) (.refl c) (hf construct c)
      fun v hv => Or.inr hv

/-! ### Lists -/

section

variable {separator : Token.Kind} {item : Parser α} {phrase : Phrase β}

/-- By induction on the budget.  That it may end early does not matter here, for fewer items are a word
of the language as well. -/
theorem moreAfter_tracks (hs : separator ≠ .eof) (hi : item.Tracks phrase.words) (budget : Nat) :
    (moreAfter separator item budget).Tracks (Phrase.words (Further separator phrase)) := by
  have hnone : ([] : List Token.Kind) ∈ Phrase.words (Further separator phrase) :=
    ⟨[], Or.inl ⟨rfl, rfl⟩⟩
  induction budget with
  | zero => exact (pure_tracks _).mono (by rintro _ rfl; exact hnone)
  | succ budget ih =>
    rw [moreAfter]
    refine .mono (accept_bind_tracks hs
      (hi.bind (fun a => ih.bind_one fun more => pure_tracks _) hnone) (pure_tracks _)) ?_
    rintro w (hw | rfl)
    · obtain ⟨_, rfl, _, ⟨u, ⟨a, hu⟩, v, ⟨l, hv⟩, rfl⟩, rfl⟩ := hw
      exact ⟨a :: l, Or.inr ⟨u ++ v, rfl, separated_cons_iff.2 ⟨u, v, rfl, hu, hv⟩⟩⟩
    · exact hnone

/-- A list has at least its first item. -/
theorem sepBy_tracks (hs : separator ≠ .eof) (hi : item.Tracks phrase.words) :
    (sepBy separator item).Tracks (Phrase.words (Separated separator phrase)) := by
  have hmore : ∀ first : α, (do
      let more ← moreAfter separator item (← remaining)
      return (first, more) : Parser _).Tracks (Phrase.words (Further separator phrase)) :=
    fun first construct c => remaining_bind_tracksFrom
      ((moreAfter_tracks hs hi _).bind_one (fun more => pure_tracks _) construct c)
  refine (hi.bind hmore ⟨[], Or.inl ⟨rfl, rfl⟩⟩).mono ?_
  rintro _ ⟨u, ⟨a, hu⟩, v, ⟨l, hv⟩, rfl⟩
  exact ⟨a :: l, separated_cons_iff.2 ⟨u, v, rfl, hu, hv⟩⟩

end

end Parser

end Modula

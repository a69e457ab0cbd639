import Modula.Proofs.Recovery.Skip
/-!
# The innermost open bracket

  An error about a bracket that is not closed names the bracket by its opening token.  Which one it is
  that the error has to name is told by the tokens alone: going back from the error, over everything that
  is opened and closed again, the first opening token that is met.

      x = RECORD  a: [ 1 .. ( 2 ;
                     ^      ^   ^
                   open   open  error: the parenthesis is to blame

  `Matched w` says that every bracket in `w` is closed, and by its own closer; `e.BlamedFrom c` that the
  opening token which `e` names stands behind the cursor `c`, with matched tokens between it and the error.

  A parser that *blames* takes matched tokens if it ends with a value, and ends with errors that are
  blamed in this way (`Parser.Blames`).  Between the two tokens of a bracket it is different: what is read
  there may also end with the error of this very bracket, and as a value it takes the closer along
  (`Parser.BlamesInside`).  The two are tied together where a bracket is opened
  (`BlamesInside.behind_opener`) and where it is closed (`close_bind_blamesInside`).
-/

namespace Modula

open Token.Kind (word symbol)

/-! ## Matching brackets

  Which brackets match is told by the kinds of the tokens alone, and nothing is said about what stands
  between them.  So the tokens that a parser has taken can be matched before anything is known of the
  phrase they make. -/

/-- The second token closes what the first one opens. -/
inductive Closes : Token.Kind → Token.Kind → Prop
  | record : Closes (word .RECORD) (word .END)
  | variantPart : Closes (word .CASE) (word .END)
  | parentheses : Closes (symbol .openParen) (symbol .closeParen)
  | brackets : Closes (symbol .openBracket) (symbol .closeBracket)
  | braces : Closes (symbol .openBrace) (symbol .closeBrace)

/-- The seven phrases in brackets use five pairs of tokens. -/
theorem Bracket.closes (bracket : Bracket) : Closes bracket.opener bracket.closer := by
  cases bracket <;> constructor

/-- Every bracket is closed, and by its own closer. -/
inductive Matched : List Token.Kind → Prop
  | nil : Matched []
  | token {k : Token.Kind} {w : List Token.Kind} :
    k.isOpener = false → k.isCloser = false → Matched w → Matched (k :: w)
  | pair {o c : Token.Kind} {u v : List Token.Kind} :
    Closes o c → Matched u → Matched v → Matched (o :: (u ++ c :: v))

namespace Matched

variable {u v w : List Token.Kind} {k : Token.Kind}

/-- Matched tokens in a row are matched. -/
theorem append (hu : Matched u) (hv : Matched v) : Matched (u ++ v) := by
  induction hu with
  | nil => exact hv
  | token ho hc _ ih => exact .token ho hc ih
  -- the second part goes behind what follows the closer
  | @pair o c u w hpair hu _ _ ih =>
    rw [List.cons_append, List.append_assoc, List.cons_append]
    exact .pair hpair hu ih

/-- One token that is no bracket. -/
theorem one (ho : k.isOpener = false) (hc : k.isCloser = false) : Matched [k] := .token ho hc .nil

end Matched

/-! ## Blamed errors

  An error about a bracket that is not closed names the token that has opened it.  Both notions below say
  where this token stands: somewhere behind the cursor, with matched tokens in between and with none in
  front that is still open, or right in front of it. -/

namespace SyntaxError

/-- If the error is about a bracket that is not closed, this bracket was opened behind the cursor, and
all that was opened after it is closed again in front of the error. -/
def BlamedFrom (e : SyntaxError) (c : Cursor) : Prop :=
  ∀ bracket opener found, e.cause = .unterminated bracket opener found →
    ∃ before inner d, c.rest = before ++ opener :: (inner ++ d.rest) ∧ d.stop = c.stop ∧
      opener.kind = bracket.opener ∧ Matched (inner.map Token.kind) ∧ e.StandsAt d ∧
      found = d.kind

/-- Inside of a bracket: the error may also be about this bracket. -/
def BlamedInside (e : SyntaxError) (bracket : Bracket) (opener : Token) (c : Cursor) : Prop :=
  e.BlamedFrom c ∨ ∃ found u d, e.cause = .unterminated bracket opener found ∧ Matched u ∧
    c.Reaches u d ∧ e.StandsAt d ∧ found = d.kind

variable {e : SyntaxError} {bracket : Bracket} {opener : Token} {c d : Cursor}
  {u : List Token.Kind}

/-- Errors of all other kinds blame nobody. -/
theorem BlamedFrom.of_cause (h : e.cause.isUnterminated = false) : e.BlamedFrom c := by
  intro bracket opener found hcause
  rw [hcause] at h
  cases h

/-- What was opened behind a later cursor was opened behind an earlier one. -/
theorem BlamedFrom.of_le (hcd : c ≤ d) (h : e.BlamedFrom d) : e.BlamedFrom c := by
  intro bracket opener found hcause
  obtain ⟨before, inner, d', hrest, hstop, hkind, hinner⟩ := h bracket opener found hcause
  obtain ⟨_, hs, ts, hr, -⟩ := hcd
  exact ⟨ts ++ before, inner, d', by rw [hr, hrest, List.append_assoc], hstop.trans hs, hkind, hinner⟩

/-- Matched tokens between the opening token and the place where reading goes on inside change
nothing. -/
theorem BlamedInside.of_reaches (hu : Matched u) (hcd : c.Reaches u d)
    (h : e.BlamedInside bracket opener d) : e.BlamedInside bracket opener c := by
  rcases h with h | ⟨found, v, d', hcause, hv, hd, hstands, hfound⟩
  · exact Or.inl (h.of_le hcd.le)
  · exact Or.inr ⟨found, u ++ v, d', hcause, hu.append hv, hcd.trans hd, hstands, hfound⟩

/-- In front of the opening token, an error inside of the bracket is blamed on it or on a bracket inside
of it. -/
theorem BlamedInside.behind_opener (hc : c.kind = bracket.opener)
    (h : e.BlamedInside bracket c.token c.advance) : e.BlamedFrom c := by
  rcases h with h | ⟨found, u, d, hcause, hu, ⟨hstop, inner, hrest, rfl⟩, hstands, hfound⟩
  · exact h.of_le c.le_advance
  -- It is about this bracket, so its opening token is the one at the cursor.
  · intro b o f hbof
    rw [hcause] at hbof
    cases hbof
    have hne : bracket.opener ≠ .eof := by cases bracket <;> nofun
    unfold Cursor.kind at hc
    cases hr : c.rest with
    | nil =>
      rw [hr] at hc
      exact absurd hc.symm hne
    | cons t ts =>
      rw [hr] at hc
      have htoken : c.token = t := by rw [Cursor.token, hr, List.head?_cons, Option.getD_some]
      rw [Cursor.rest_advance, hr, List.tail_cons] at hrest
      rw [Cursor.stop_advance] at hstop
      exact ⟨[], inner, d, by rw [htoken, List.nil_append, hrest], hstop, htoken ▸ hc, hu, hstands,
        hfound⟩

end SyntaxError

/-! ## Parsers that blame

  A parser is said to blame if its values come behind matched tokens and its errors blame the innermost
  open bracket.  For the inside of a bracket this is weakened on both sides: the value comes behind the
  closer, and the bracket itself may be named. -/

namespace Parser

variable {α β : Type}

/-- What `Blames` says about one run. -/
def BlamesFrom (p : Parser α) (construct : Construct) (c : Cursor) : Prop :=
  match p construct c with
  | .ok _ c' => ∃ w, Matched w ∧ c.Reaches w c'
  | .error e c' => c ≤ c' ∧ e.BlamedFrom c

/-- Values come behind matched tokens, and errors are blamed on the innermost open bracket. -/
def Blames (p : Parser α) : Prop := ∀ construct c, p.BlamesFrom construct c

/-- Behind an opening token: values come behind the closer, and errors may also be about this bracket. -/
def BlamesInside (p : Parser α) (bracket : Bracket) (opener : Token) : Prop :=
  ∀ construct c, match p construct c with
    | .ok _ c' => ∃ u v, Matched u ∧ Matched v ∧ c.Reaches (u ++ bracket.closer :: v) c'
    | .error e c' => c ≤ c' ∧ e.BlamedInside bracket opener c

section

variable {p q : Parser α} {g : α → Parser β} {construct : Construct} {c c' d : Cursor}
  {w : List Token.Kind} {bracket : Bracket} {opener : Token}

/-- For a run with a value: the matched tokens it has taken. -/
theorem BlamesFrom.of_ok {a : α} (h : p construct c = .ok a c') (hw : Matched w)
    (hc : c.Reaches w c') : p.BlamesFrom construct c := by
  rw [BlamesFrom, h]
  exact ⟨w, hw, hc⟩

/-- For a run with an error: where it is to blame. -/
theorem BlamesFrom.of_error {e : SyntaxError} (h : p construct c = .error e c') (hc : c ≤ c')
    (he : e.BlamedFrom c) : p.BlamesFrom construct c := by
  rw [BlamesFrom, h]
  exact ⟨hc, he⟩

/-- A value comes behind matched tokens. -/
theorem BlamesFrom.reaches {a : α} (hp : p.BlamesFrom construct c) (h : p construct c = .ok a c') :
    ∃ w, Matched w ∧ c.Reaches w c' := by
  rwa [BlamesFrom, h] at hp

/-- An error is blamed on a bracket opened behind the cursor. -/
theorem BlamesFrom.blamed {e : SyntaxError} (hp : p.BlamesFrom construct c)
    (h : p construct c = .error e c') : c ≤ c' ∧ e.BlamedFrom c := by
  rwa [BlamesFrom, h] at hp

/-! ### Sequences

  Matched tokens in front change nothing, so a sequence blames what its parts blame.  A phrase in brackets
  is put together out of its opener and of its inside. -/

/-- Behind matched tokens, another parser may go on. -/
theorem BlamesFrom.of_reaches (heq : q construct c = p construct d) (hw : Matched w)
    (hc : c.Reaches w d) (hp : p.BlamesFrom construct d) : q.BlamesFrom construct c := by
  cases h : p construct d with
  | ok a c' =>
    obtain ⟨v, hv, hd⟩ := hp.reaches h
    exact .of_ok (heq.trans h) (hw.append hv) (hc.trans hd)
  | error e c' =>
    obtain ⟨hd, he⟩ := hp.blamed h
    exact .of_error (heq.trans h) (hc.le.trans hd) (he.of_le hc.le)

/-- Matched tokens, and then whatever the second parser blames. -/
theorem BlamesFrom.bind (hp : p.BlamesFrom construct c) (hg : ∀ a, (g a).Blames) :
    (p >>= g).BlamesFrom construct c := by
  cases h : p construct c with
  | ok a d =>
    obtain ⟨w, hw, hc⟩ := hp.reaches h
    exact .of_reaches (bind_of_ok h) hw hc (hg a construct d)
  | error e c' =>
    obtain ⟨hc, he⟩ := hp.blamed h
    exact .of_error (bind_of_error h g) hc he

theorem Blames.bind (hp : p.Blames) (hg : ∀ a, (g a).Blames) : (p >>= g).Blames :=
  fun construct c => (hp construct c).bind hg

/-- What is read in front of the rest of a bracket belongs to its inside. -/
theorem BlamesInside.bind_left (hp : p.Blames) (hg : ∀ a, (g a).BlamesInside bracket opener) :
    (p >>= g).BlamesInside bracket opener := by
  intro construct c
  have hrun := hp construct c
  cases h : p construct c with
  | error e c' =>
    obtain ⟨hc, he⟩ := hrun.blamed h
    rw [bind_of_error h g]
    exact ⟨hc, Or.inl he⟩
  | ok a d =>
    obtain ⟨w, hw, hc⟩ := hrun.reaches h
    have hinside := hg a construct d
    rw [bind_of_ok h]
    cases hg : g a construct d with
    | ok b c' =>
      rw [hg] at hinside
      obtain ⟨u, v, hu, hv, hd⟩ := hinside
      refine ⟨w ++ u, v, hw.append hu, hv, ?_⟩
      rw [List.append_assoc]
      exact hc.trans hd
    | error e c' =>
      rw [hg] at hinside
      exact ⟨hc.le.trans hinside.1, hinside.2.of_reaches hw hc⟩

/-- A bracket is closed, or is the innermost one that is open. -/
theorem close_bind_blamesInside {g : Unit → Parser β} (hg : (g ()).Blames) :
    (close bracket opener >>= g).BlamesInside bracket opener := by
  intro construct c
  by_cases hc : c.kind = bracket.closer
  · have hne : bracket.closer ≠ .eof := by cases bracket <;> nofun
    have hadvance := Cursor.reaches_advance hc hne
    rw [bind_of_ok (close_of_kind hc)]
    have hrun := hg construct c.advance
    cases h : g () construct c.advance with
    | ok b c' =>
      obtain ⟨v, hv, hd⟩ := hrun.reaches h
      exact ⟨[], v, .nil, hv, hadvance.trans hd⟩
    | error e c' =>
      obtain ⟨hd, he⟩ := hrun.blamed h
      exact ⟨hadvance.le.trans hd, Or.inl (he.of_le hadvance.le)⟩
  · have hfail : close bracket opener construct c = fail (.unterminated bracket opener) construct c :=
      if_neg hc
    rw [bind_of_error hfail g]
    exact ⟨le_rfl, Or.inr ⟨c.kind, [], c, rfl, .nil, .refl c, ⟨rfl, rfl⟩, rfl⟩⟩

/-- From its opening token on, a bracket is read as it is read inside, behind this token. -/
theorem BlamesFrom.of_inside {body : Parser α} (hc : c.kind = bracket.opener)
    (heq : p construct c = body construct c.advance) (hbody : body.BlamesInside bracket c.token) :
    p.BlamesFrom construct c := by
  have hne : bracket.opener ≠ .eof := by cases bracket <;> nofun
  have hadvance := Cursor.reaches_advance hc hne
  have hinside := hbody construct c.advance
  cases h : body construct c.advance with
  | ok a c' =>
    rw [h] at hinside
    obtain ⟨u, v, hu, hv, hd⟩ := hinside
    exact .of_ok (heq.trans h) (.pair bracket.closes hu hv) (hadvance.trans hd)
  | error e c' =>
    rw [h] at hinside
    exact .of_error (heq.trans h) (hadvance.le.trans hinside.1) (hinside.2.behind_opener hc)

/-- The token taken is the opener that the errors inside may name. -/
theorem advance_bind_blamesFrom {g : Token → Parser β} (bracket : Bracket)
    (hc : c.kind = bracket.opener) (hg : ∀ opener, (g opener).BlamesInside bracket opener) :
    (advance >>= g).BlamesFrom construct c :=
  .of_inside hc (bind_of_ok (advance_apply construct c)) (hg c.token)

/-- The same where the opener is asked for; if it is not there the error is not about a bracket. -/
theorem expect_bind_blames {g : Token → Parser β} (bracket : Bracket)
    (hg : ∀ opener, (g opener).BlamesInside bracket opener) :
    (expect bracket.opener >>= g).Blames := by
  intro construct c
  by_cases hc : c.kind = bracket.opener
  · exact .of_inside hc (bind_of_ok (expect_of_kind hc)) (hg c.token)
  · exact .of_error (bind_of_error (if_neg hc) g) le_rfl (.of_cause rfl)

end

/-! ### Steps

  Steps that take no bracket take matched tokens, and their errors are about other things. -/

/-- No token is the shortest of all matched rows. -/
theorem pure_blames (a : α) : (pure a : Parser α).Blames :=
  fun construct c => .of_ok (pure_apply a construct c) .nil (.refl c)

theorem freshId_blames : freshId.Blames :=
  fun construct c => .of_ok (freshId_apply construct c) .nil (.of_rest rfl rfl)

theorem lastEnd_blames : lastEnd.Blames :=
  fun construct c => .of_ok (lastEnd_apply construct c) .nil (.refl c)

theorem within_blamesFrom {p : Parser α} {phrase construct : Construct} {c : Cursor}
    (hp : p.BlamesFrom phrase c) : (within phrase p).BlamesFrom construct c := hp

/-- Which construct the errors are reported in is no matter of brackets. -/
theorem within_blames {p : Parser α} (phrase : Construct) (hp : p.Blames) :
    (within phrase p).Blames := fun _ c => hp phrase c

theorem within_blamesInside {p : Parser α} {bracket : Bracket} {opener : Token} (phrase : Construct)
    (hp : p.BlamesInside bracket opener) : (within phrase p).BlamesInside bracket opener :=
  fun _ c => hp phrase c

/-- An error of another kind, wherever it stands. -/
theorem failAt_blames {place : Cursor} {cause : SyntaxError.Cause}
    (hcause : cause.isUnterminated = false) : (failAt place cause : Parser α).Blames :=
  fun _ _ => .of_error rfl le_rfl (.of_cause hcause)

/-- Most errors say what was expected, and blame no bracket. -/
theorem fail_blames {cause : Token.Kind → SyntaxError.Cause}
    (hcause : ∀ k, (cause k).isUnterminated = false) : (fail cause : Parser α).Blames :=
  fun _ c => .of_error rfl le_rfl (.of_cause (hcause c.kind))

section

variable {k : Token.Kind} {construct : Construct} {c : Cursor}

/-- A token is matched by itself if it is neither an opening nor a closing one. -/
theorem advance_blamesFrom (hc : c.kind = k) (hk : k ≠ .eof) (hopen : k.isOpener = false)
    (hclose : k.isCloser = false) : advance.BlamesFrom construct c :=
  .of_ok (advance_apply construct c) (.one hopen hclose) (Cursor.reaches_advance hc hk)

/-- A token that is no bracket. -/
theorem expect_blames (hk : k ≠ .eof) (hopen : k.isOpener = false) (hclose : k.isCloser = false) :
    (expect k).Blames := by
  intro construct c
  by_cases hc : c.kind = k
  · exact .of_ok (expect_of_kind hc) (.one hopen hclose) (Cursor.reaches_advance hc hk)
  · exact .of_error (if_neg hc) le_rfl (.of_cause rfl)

/-- Taken or not, such a token leaves everything matched. -/
theorem accept_blames (hk : k ≠ .eof) (hopen : k.isOpener = false) (hclose : k.isCloser = false) :
    (accept k).Blames := by
  intro construct c
  by_cases hc : c.kind = k
  · exact .of_ok (accept_of_kind hc) (.one hopen hclose) (Cursor.reaches_advance hc hk)
  · exact .of_ok (accept_of_kind_ne hc) .nil (.refl c)

/-- Names are no brackets. -/
theorem ident_blames : ident.Blames := by
  intro construct c
  by_cases hc : ∃ text, c.kind = .name text
  · obtain ⟨text, hc⟩ := hc
    exact .of_ok (ident_of_kind hc) (.one rfl rfl) (Cursor.reaches_advance hc nofun)
  · have hfail : ident construct c = fail (.expected .name) construct c := by
      unfold ident
      split
      · next text h => exact absurd ⟨text, h⟩ hc
      · rfl
    exact .of_error hfail le_rfl (.of_cause rfl)

/-! ### Looking -/

/-- A look at the kind: each branch blames where its kind was found. -/
theorem kind_bind_blamesFrom {g : Token.Kind → Parser β}
    (h : ∀ k, c.kind = k → (g k).BlamesFrom construct c) : (kind >>= g).BlamesFrom construct c :=
  h c.kind rfl

theorem get_bind_blamesFrom {g : Cursor → Parser β} (h : (g c).BlamesFrom construct c) :
    (get >>= g).BlamesFrom construct c := h

theorem remaining_bind_blames {g : Nat → Parser β} (h : ∀ n, (g n).Blames) :
    (remaining >>= g).Blames := fun construct c => h c.remaining construct c

end

/-! ### Moving on

  Where no bracket can be open it is enough to know that parsers move forward. -/

/-- The cursor moves on, and errors are blamed.  Nothing is said about the tokens that are taken. -/
def Onward (p : Parser α) : Prop :=
  ∀ construct c, match p construct c with
    | .ok _ c' => c ≤ c'
    | .error e c' => c ≤ c' ∧ e.BlamedFrom c

/-- Whatever a parser blames, it moves forward. -/
theorem Blames.onward {p : Parser α} (hp : p.Blames) : p.Onward := by
  intro construct c
  have hrun := hp construct c
  cases h : p construct c with
  | ok a c' =>
    obtain ⟨w, -, hc⟩ := hrun.reaches h
    exact hc.le
  | error e c' => exact hrun.blamed h

/-- A sequence moves forward, and an error of it comes from one of its parts. -/
theorem Onward.bind {p : Parser α} {g : α → Parser β} (hp : p.Onward) (hg : ∀ a, (g a).Onward) :
    (p >>= g).Onward := by
  intro construct c
  have hrun := hp construct c
  cases h : p construct c with
  | ok a d =>
    rw [h] at hrun
    have hnext := hg a construct d
    rw [bind_of_ok h]
    cases hd : g a construct d with
    | ok b c' =>
      rw [hd] at hnext
      exact hrun.trans hnext
    | error e c' =>
      rw [hd] at hnext
      exact ⟨hrun.trans hnext.1, hnext.2.of_le hrun⟩
  | error e c' =>
    rw [h] at hrun
    rw [bind_of_error h g]
    exact hrun

theorem advance_onward : advance.Onward := fun _ c => c.le_advance

theorem expect_onward (k : Token.Kind) : (expect k).Onward := by
  intro construct c
  by_cases hc : c.kind = k
  · rw [expect_of_kind hc]
    exact c.le_advance
  · have hfail : expect k construct c = fail (.expected (.kind k)) construct c := if_neg hc
    rw [hfail]
    exact ⟨le_rfl, .of_cause rfl⟩

/-! ### Lists

  The lists of the parser have separators that are no brackets. -/

section

variable {separator : Token.Kind} {item : Parser α} (hne : separator ≠ .eof)
  (hopen : separator.isOpener = false) (hclose : separator.isCloser = false) (hi : item.Blames)

include hne hopen hclose hi

/-- By induction on the budget: separators and items leave everything matched. -/
theorem moreAfter_blames (budget : Nat) : (moreAfter separator item budget).Blames := by
  induction budget with
  | zero => exact pure_blames _
  | succ budget ih =>
    rw [moreAfter]
    refine (accept_blames hne hopen hclose).bind fun taken => ?_
    split
    · exact hi.bind fun a => ih.bind fun more => pure_blames _
    · exact pure_blames _

/-- A list of items that blame. -/
theorem sepBy_blames : (sepBy separator item).Blames :=
  hi.bind fun _ => remaining_bind_blames fun n =>
    (moreAfter_blames hne hopen hclose hi n).bind fun _ => pure_blames _

end

end Parser

end Modula

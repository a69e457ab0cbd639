import Modula.Machine
/-!
# Programs that do what parsers do

  A parser and a program are written alike if they take the same steps in the same order, and if the
  program enters and leaves a phrase wherever the parser is run inside of one (`Parser.EnactedBy`).  Such a
  program changes nothing on a machine but the cursor, and this as the parser does which is run inside of
  the innermost phrase of the machine (`EnactedBy.run`): what has been entered is left, whether reading
  ends with a value or with an error.

  Readers that go on after errors are enacted in the same way (`Recovering.EnactedBy`).  They are not told
  a phrase, so this is about machines on which no phrase has been entered.  What they add to is the log,
  and on the machine that is the errors that have been put aside.
-/

namespace Modula

namespace Program

variable {α β : Type}

/-- A sequence on a machine stops at the first error, with the machine as the error has left it. -/
theorem bind_apply (p : Program α) (f : α → Program β) (options : Options) (m : Machine) :
    (p >>= f) options m = match p options m with
      | .ok a m' => f a options m'
      | .error e m' => .error e m' := by
  show EStateM.bind (p options) (fun a => f a options) m = _
  unfold EStateM.bind
  cases p options m with
  | ok a m' => rfl
  | error e m' => rfl

end Program

/-- How a parser ended, on the machine that it was run on. -/
def Machine.after {α : Type} (m : Machine) :
    EStateM.Result SyntaxError Cursor α → EStateM.Result SyntaxError Machine α
  | .ok a c => .ok a { m with cursor := c }
  | .error e c => .error e { m with cursor := c }

/-- How a reader ended, on a machine that nothing has been entered on. -/
def Session.onMachine {α : Type} :
    EStateM.Result SyntaxError Session α → EStateM.Result SyntaxError Machine α
  | .ok a s => .ok a ⟨s.cursor, s.log, []⟩
  | .error e s => .error e ⟨s.cursor, s.log, []⟩

/-! ## Parsers

  A parser is told the innermost phrase and returns a cursor, and a program keeps both on the machine.  A
  program that is written like a parser is put together of the same steps, with a phrase entered and left
  where the parser is told another one. -/

namespace Parser

/-- The program is written like the parser. -/
inductive EnactedBy : {α : Type} → Program α → Parser α → Prop
  | step {α : Type} {p : Parser α} (f : Cursor → α × Cursor)
    (h : ∀ construct c, p construct c = .ok (f c).1 (f c).2) : EnactedBy (Program.step f) p
  | failAt {α : Type} (place : Cursor) (cause : SyntaxError.Cause) :
    EnactedBy (Program.failAt place cause : Program α) (failAt place cause)
  | bind {α β : Type} {m : Program α} {p : Parser α} {g : α → Program β} {f : α → Parser β} :
    EnactedBy m p → (∀ a, EnactedBy (g a) (f a)) → EnactedBy (m >>= g) (p >>= f)
  | within {α : Type} {m : Program α} {p : Parser α} (construct : Construct) :
    EnactedBy m p → EnactedBy (Program.within construct m) (within construct p)

variable {α β : Type}

/-- A program that is written like a parser does what the parser does in the innermost phrase.  It leaves
what it enters, and it puts no error aside. -/
theorem EnactedBy.run {m : Program α} {p : Parser α} (h : EnactedBy m p) (options : Options)
    (s : Machine) : m options s = s.after (p s.innermost s.cursor) := by
  induction h generalizing s with
  | step f h =>
    rw [h]
    rfl
  | failAt place cause => rfl
  | @bind _ _ m p g f _ _ ih ihf =>
    rw [Program.bind_apply, bind_apply, ih]
    cases p s.innermost s.cursor with
    | ok a c => exact ihf a { s with cursor := c }
    | error e c => rfl
  | @within _ m p construct _ ih =>
    -- inside, the phrase is the innermost one
    have hinside := ih (s.enter construct)
    rw [Machine.innermost_enter, Machine.cursor_enter] at hinside
    rw [Program.within, hinside]
    show _ = s.after (p construct s.cursor)
    cases p construct s.cursor with
    | ok a c => rfl
    | error e c => rfl

/-- There is a program that is written like the parser. -/
def Enacted (p : Parser α) : Prop := ∃ m, EnactedBy m p

namespace Enacted

/-- A parser that always ends with a value, the same one in every phrase, is one step. -/
theorem step {p : Parser α} (f : Cursor → α × Cursor)
    (h : ∀ construct c, p construct c = .ok (f c).1 (f c).2) : Enacted p := ⟨_, .step f h⟩

/-- To return a value is a step that moves nothing. -/
theorem pure (a : α) : Enacted (Pure.pure a : Parser α) := step (fun c => (a, c)) fun _ _ => rfl

/-- A failure ends a program as well, with the place that the parser tells. -/
theorem failAt (place : Cursor) (cause : SyntaxError.Cause) :
    Enacted (Parser.failAt place cause : Parser α) := ⟨_, .failAt place cause⟩

/-- The second program depends on what the first one has read, as the second parser does. -/
theorem bind {p : Parser α} {f : α → Parser β} (hp : Enacted p) (hf : ∀ a, Enacted (f a)) :
    Enacted (p >>= f) := by
  -- For every value there is a program; one of them is taken.
  obtain ⟨m, hm⟩ := hp
  exact ⟨m >>= fun a => (hf a).choose, .bind hm fun a => (hf a).choose_spec⟩

/-- The one place where a program does more than its parser: it enters the phrase and leaves it. -/
theorem within (construct : Construct) {p : Parser α} (h : Enacted p) :
    Enacted (within construct p) := by
  obtain ⟨m, hm⟩ := h
  exact ⟨_, .within construct hm⟩

/-- What is chosen is chosen before either program is run. -/
theorem ite {P : Prop} [Decidable P] {p q : Parser α} (hp : Enacted p) (hq : Enacted q) :
    Enacted (if P then p else q) := by
  split
  · exact hp
  · exact hq

end Enacted

/-! ### Steps

  A step of a parser looks at the cursor or moves it, and a failure asks for the phrase. -/

theorem get_enacted : Enacted (get : Parser Cursor) := .step (fun c => (c, c)) fun _ _ => rfl

theorem kind_enacted : Enacted kind := .step (fun c => (c.kind, c)) fun _ _ => rfl

theorem remaining_enacted : Enacted remaining := .step (fun c => (c.remaining, c)) fun _ _ => rfl

theorem lastEnd_enacted : Enacted lastEnd := .step (fun c => (c.lastEnd, c)) fun _ _ => rfl

theorem advance_enacted : Enacted advance := .step (fun c => (c.token, c.advance)) fun _ _ => rfl

theorem freshId_enacted : Enacted freshId :=
  .step (fun c => (c.nextId, { c with nextId := c.nextId + 1 })) fun _ _ => rfl

/-- To take a token or not is one step, since it does not fail. -/
theorem accept_enacted (wanted : Token.Kind) : Enacted (accept wanted) := by
  refine .step (fun c => if c.kind = wanted then (true, c.advance) else (false, c)) fun construct c => ?_
  unfold accept
  split <;> rfl

/-- A failure looks at the cursor first. -/
theorem fail_enacted (cause : Token.Kind → SyntaxError.Cause) : Enacted (fail cause : Parser α) :=
  get_enacted.bind fun c => .failAt c (cause c.kind)

/-- The token that has to come is taken, or else the parser fails. -/
theorem expect_eq (wanted : Token.Kind) : expect wanted =
    kind >>= fun k => if k = wanted then advance else fail (.expected (.kind wanted)) := by
  funext construct c
  show expect wanted construct c = (if c.kind = wanted then advance else fail _) construct c
  unfold expect
  split <;> rfl

/-- What can fail is put together from a look, a step and a failure. -/
theorem expect_enacted (wanted : Token.Kind) : Enacted (expect wanted) := by
  rw [expect_eq]
  exact kind_enacted.bind fun _ => .ite advance_enacted (fail_enacted _)

/-- The token that closes a bracket is taken, or else the bracket is blamed. -/
theorem close_eq (bracket : Bracket) (opener : Token) : close bracket opener =
    kind >>= fun k =>
      if k = bracket.closer then advance >>= fun _ => pure () else fail (.unterminated bracket opener) := by
  funext construct c
  show close bracket opener construct c =
    (if c.kind = bracket.closer then advance >>= fun _ => pure () else fail _) construct c
  unfold close
  split <;> rfl

/-- The opener is remembered by the parser, so the machine need not keep it. -/
theorem close_enacted (bracket : Bracket) (opener : Token) : Enacted (close bracket opener) := by
  rw [close_eq]
  exact kind_enacted.bind fun _ => .ite (advance_enacted.bind fun _ => .pure _) (fail_enacted _)

/-- What the cursor has to stand at for a name to be read, and what is read. -/
def identAt (c : Cursor) : Parser Ident :=
  match c.kind with
  | .name text => advance >>= fun _ => pure ⟨text, c.token.span⟩
  | _ => fail (.expected .name)

/-- A name is taken at a look at the cursor. -/
theorem ident_eq : ident = get >>= identAt := by
  funext construct c
  show ident construct c = identAt c construct c
  unfold ident identAt
  cases c.kind <;> rfl

/-- Names are put together like the tokens that have to come. -/
theorem ident_enacted : Enacted ident := by
  rw [ident_eq]
  refine get_enacted.bind fun c => ?_
  unfold identAt
  split
  · exact advance_enacted.bind fun _ => .pure _
  · exact fail_enacted _

/-! ### Lists

  A list has a program if its items have one. -/

/-- By induction on the budget, with the program of an item used again each time. -/
theorem moreAfter_enacted {separator : Token.Kind} {item : Parser α} (hi : Enacted item) (budget : Nat) :
    Enacted (moreAfter separator item budget) := by
  induction budget with
  | zero => exact .pure _
  | succ budget ih =>
    refine (accept_enacted separator).bind fun taken => .ite ?_ (.pure _)
    exact hi.bind fun a => ih.bind fun more => .pure _

/-- The budget is a look at the cursor. -/
theorem sepBy_enacted {separator : Token.Kind} {item : Parser α} (hi : Enacted item) :
    Enacted (sepBy separator item) :=
  hi.bind fun _ => remaining_enacted.bind fun budget => (moreAfter_enacted hi budget).bind fun _ => .pure _

end Parser

/-! ## Readers that go on after errors

  A reader keeps a log, and a machine the errors that have been put aside.  Between phrases nothing is
  entered, and then the two are told apart by nothing else. -/

namespace Recovering

/-- The program is written like the reader. -/
inductive EnactedBy : {α : Type} → Program α → Recovering α → Prop
  | pure {α : Type} (a : α) : EnactedBy (pure a) (pure a)
  | cursor : EnactedBy Program.cursor cursor
  | fail {α : Type} (e : SyntaxError) : EnactedBy (Program.fail e : Program α) (throw e)
  | bind {α β : Type} {m : Program α} {p : Recovering α} {g : α → Program β} {f : α → Recovering β} :
    EnactedBy m p → (∀ a, EnactedBy (g a) (f a)) → EnactedBy (m >>= g) (p >>= f)
  | runIn {α : Type} {m : Program α} {p : Parser α} (construct : Construct) :
    Parser.EnactedBy m p → EnactedBy (Program.within construct m) (run construct p)
  /-- Outside of all phrases nothing is entered. -/
  | runOutside {α : Type} {m : Program α} {p : Parser α} :
    Parser.EnactedBy m p → EnactedBy m (Recovering.run .compilationUnit p)
  | attempt {α : Type} {m : Program α} {p : Parser α} (construct : Construct) :
    Parser.EnactedBy m p → EnactedBy (Program.attempt (Program.within construct m)) (attempt construct p)
  | note (e : SyntaxError) (resumption : Cursor) :
    EnactedBy (Program.note e resumption) (note e resumption)
  /-- The error is made in the phrase that has been entered last, which is none. -/
  | noteAt (place : Cursor) (cause : SyntaxError.Cause) (resumption : Cursor) :
    EnactedBy (do Program.note (← Program.errorAt place cause) resumption)
      (Recovering.note (outerError place cause) resumption)
  | inside {α : Type} {m : Program α} {p : Recovering α} (moduleName : Ident) :
    EnactedBy m p → EnactedBy (Program.inside moduleName m) (inside moduleName p)

variable {α β : Type}

/-- Where nothing has been entered, a note on the machine is one in the log. -/
theorem note_enacted_run (e : SyntaxError) (resumption : Cursor) (options : Options) (s : Session) :
    Program.note e resumption options ⟨s.cursor, s.log, []⟩ =
      Session.onMachine (note e resumption options s) := by
  rw [Program.note, Program.bind_apply, Program.putAside, note]
  dsimp only
  by_cases hstop : options.recover = false ∨ options.maxErrors ≤ s.log.length + 1
  · rw [if_pos hstop, if_pos hstop]
    rfl
  · rw [if_neg hstop, if_neg hstop]
    rfl

/-- A program that is written like a reader does what the reader does, where nothing has been entered.
Nothing has been entered afterwards either. -/
theorem EnactedBy.run {m : Program α} {p : Recovering α} (h : EnactedBy m p) (options : Options)
    (s : Session) : m options ⟨s.cursor, s.log, []⟩ = Session.onMachine (p options s) := by
  induction h generalizing s with
  | pure a => rfl
  | cursor => rfl
  | fail e => rfl
  | @bind _ _ m p g f _ _ ih ihf =>
    rw [Program.bind_apply, bind_apply, ih]
    cases p options s with
    | ok a s' => exact ihf a s'
    | error e s' => rfl
  | @runIn _ m p construct hm =>
    rw [(hm.within construct).run, Recovering.run]
    show Machine.after _ (p construct s.cursor) = _
    cases p construct s.cursor <;> rfl
  | @runOutside _ m p hm =>
    rw [hm.run, Recovering.run]
    show Machine.after _ (p .compilationUnit s.cursor) = _
    cases p .compilationUnit s.cursor <;> rfl
  | @attempt _ m p construct hm =>
    rw [Program.attempt, (hm.within construct).run, Recovering.attempt]
    show (match Machine.after _ (p construct s.cursor) with | .ok a m' => _ | .error e m' => _) = _
    cases p construct s.cursor <;> rfl
  | note e resumption => exact note_enacted_run e resumption options s
  | noteAt place cause resumption => exact note_enacted_run _ resumption options s
  | @inside _ m p moduleName _ ih =>
    rw [Program.inside, Recovering.inside, ih]
    cases p options s <;> rfl

/-- There is a program that is written like the reader. -/
def Enacted (p : Recovering α) : Prop := ∃ m, EnactedBy m p

namespace Enacted

theorem pure (a : α) : Enacted (Pure.pure a : Recovering α) := ⟨_, .pure a⟩

/-- A look at the cursor, from outside of all phrases. -/
theorem cursor : Enacted cursor := ⟨_, .cursor⟩

/-- An error that is raised again is raised as it is: the machine does not put its own phrase into it. -/
theorem fail (e : SyntaxError) : Enacted (throw e : Recovering α) := ⟨_, .fail e⟩

/-- Readers in sequence, like parsers. -/
theorem bind {p : Recovering α} {f : α → Recovering β} (hp : Enacted p) (hf : ∀ a, Enacted (f a)) :
    Enacted (p >>= f) := by
  obtain ⟨m, hm⟩ := hp
  exact ⟨m >>= fun a => (hf a).choose, .bind hm fun a => (hf a).choose_spec⟩

/-- A parser in a phrase: the phrase is entered for it and left behind it. -/
theorem run (construct : Construct) {p : Parser α} (h : p.Enacted) : Enacted (run construct p) := by
  obtain ⟨m, hm⟩ := h
  exact ⟨_, .runIn construct hm⟩

/-- A parser outside of all phrases, whose errors are about the compilation unit. -/
theorem runOutside {p : Parser α} (h : p.Enacted) : Enacted (Recovering.run .compilationUnit p) := by
  obtain ⟨m, hm⟩ := h
  exact ⟨_, .runOutside hm⟩

/-- A parser in a phrase, with its error as a value.  Here too the phrase is left after an error. -/
theorem attempt (construct : Construct) {p : Parser α} (h : p.Enacted) :
    Enacted (attempt construct p) := by
  obtain ⟨m, hm⟩ := h
  exact ⟨_, .attempt construct hm⟩

/-- An error that is handed in goes to those put aside, if reading may go on. -/
theorem note (e : SyntaxError) (resumption : Cursor) : Enacted (note e resumption) :=
  ⟨_, .note e resumption⟩

/-- An error that the machine itself makes, at a time when nothing is entered. -/
theorem noteAt (place : Cursor) (cause : SyntaxError.Cause) (resumption : Cursor) :
    Enacted (Recovering.note (outerError place cause) resumption) := ⟨_, .noteAt place cause resumption⟩

/-- The error is looked at once more in the end, when the machine holds what the session does. -/
theorem inside (moduleName : Ident) {p : Recovering α} (h : Enacted p) :
    Enacted (inside moduleName p) := by
  obtain ⟨m, hm⟩ := h
  exact ⟨_, .inside moduleName hm⟩

theorem ite {P : Prop} [Decidable P] {p q : Recovering α} (hp : Enacted p) (hq : Enacted q) :
    Enacted (if P then p else q) := by
  split
  · exact hp
  · exact hq

end Enacted

end Recovering

end Modula

import Modula.Proofs.Abreast.Chain
import Modula.Proofs.Machine.Phrases
/-!
# Nothing is left over on a machine

  A machine is asked for one thing after the other, and it keeps what it holds: the errors that have been
  put aside and the phrases that have been entered are there for whatever comes next.  The programs that it
  runs for that are not looked into.  They only have to be written like the parser of expressions, the
  parser of types and the reader of compilation units (`Programs`).

  If the machine is idle when it is asked, so that it holds nothing but a cursor, then the answer is that
  of the cursor, and the machine is idle again afterwards (`answer_idle`).  A phrase has been left even if
  an error has ended it, and the errors have been taken for the report even if there is no tree.  So a
  sequence of answers on a machine is the sequence of answers at a cursor, each of which is that of a fresh
  cursor (`calls_idle`, `calls_fresh`).
-/

namespace Modula

/-- Programs for what may be asked for, each written like its parser. -/
structure Programs where
  expr : Program Expr
  type : Program TypeExpr
  unit : Program CompilationUnit
  expr_enacts : Parser.EnactedBy expr Parser.expr
  type_enacts : Parser.EnactedBy type Parser.type
  unit_enacts : Recovering.EnactedBy unit Recovering.unit

/-- There are such programs. -/
theorem nonempty_programs : Nonempty Programs := by
  obtain ⟨expr, hexpr⟩ := Parser.expr_enacted
  obtain ⟨type, htype⟩ := Parser.type_enacted
  obtain ⟨unit, hunit⟩ := Recovering.unit_enacted
  exact ⟨⟨expr, type, unit, hexpr, htype, hunit⟩⟩

namespace Machine

variable {tokens : List Token} {options : Options} {requests : List Request}

/-! ## One call -/

/-- What a machine answers, and the machine afterwards.  A report takes all errors that have been put
aside, and the one that has ended the reading. -/
def answer (programs : Programs) (options : Options) (m : Machine) : Request → Answer × Machine
  | .expr =>
    match programs.expr options m with
    | .ok e m' => (.expr (.ok e), m')
    | .error e m' => (.expr (.error e), m')
  | .type =>
    match programs.type options m with
    | .ok t m' => (.type (.ok t), m')
    | .error e m' => (.type (.error e), m')
  | .unit =>
    match programs.unit options m with
    | .ok u m' => (.unit (.ofLog u m'.errors), { m' with errors := [] })
    | .error e m' =>
      (.unit (.ofErrors ((m'.errors.map Recovery.error ++ [e]).map .grammatical)),
        { m' with errors := [] })

/-- An idle machine answers what its cursor answers, and is idle again. -/
theorem answer_idle (programs : Programs) (c : Cursor) (request : Request) :
    (idle c).answer programs options request =
      ((c.answer options request).1, idle (c.answer options request).2) := by
  cases request with
  | expr =>
    rw [answer, programs.expr_enacts.run, Cursor.answer, Cursor.readExpr]
    show (match (idle c).after (Parser.expr .compilationUnit c) with
      | .ok e m' => _
      | .error e m' => _) = _
    cases Parser.expr .compilationUnit c <;> rfl
  | type =>
    rw [answer, programs.type_enacts.run, Cursor.answer, Cursor.readType]
    show (match (idle c).after (Parser.type .compilationUnit c) with
      | .ok t m' => _
      | .error e m' => _) = _
    cases Parser.type .compilationUnit c <;> rfl
  | unit =>
    -- the reader begins with an empty log, as no errors have been put aside
    have hrun : programs.unit options (idle c) =
        Session.onMachine (Recovering.unit options ⟨c, []⟩) :=
      programs.unit_enacts.run options ⟨c, []⟩
    rw [answer, hrun, Cursor.answer, Cursor.readUnit]
    cases Recovering.unit options ⟨c, []⟩ <;> rfl

/-! ## Many calls -/

/-- What a machine over the tokens answers, one after the other, and the machine in the end. -/
def calls (programs : Programs) (tokens : List Token) (options : Options) (m : Machine) :
    List Request → List Call × Machine
  | [] => ([], m)
  | request :: more =>
    let (answer, m') := m.answer programs options request
    let (later, last) := calls programs tokens options m' more
    (⟨answer, m.cursor.place tokens, m'.cursor.place tokens⟩ :: later, last)

/-- A machine that is idle in the beginning is idle in the end, and answers what its cursor answers. -/
theorem calls_idle (programs : Programs) (c : Cursor) : ∃ d,
    (idle c).calls programs tokens options requests = (c.calls tokens options requests, idle d) := by
  induction requests generalizing c with
  | nil => exact ⟨c, rfl⟩
  | cons request more ih =>
    obtain ⟨d, hmore⟩ := ih (c.answer options request).2
    refine ⟨d, ?_⟩
    rw [calls, answer_idle]
    dsimp only
    rw [hmore]
    rfl

/-- Nothing but ids is left over from one call to the next: a machine that is made over some tokens
answers what fresh cursors answer, each over the tokens from the place on where the call before has
stopped.  After every sequence of calls no phrase is entered and no error is put aside. -/
theorem calls_fresh (programs : Programs) (tokens : List Token) (options : Options)
    (requests : List Request) : ∃ d,
      (idle (Cursor.ofTokens tokens)).calls programs tokens options requests =
        (freshCalls tokens options 0 0 requests, idle d) := by
  obtain ⟨d, hcalls⟩ := calls_idle programs (Cursor.ofTokens tokens)
  exact ⟨d, Cursor.calls_ofTokens ▸ hcalls⟩

end Machine

end Modula

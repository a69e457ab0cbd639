import Modula.Proofs.Abreast.Chain
import Modula.Proofs.Blame.Phrases
/-!
# Errors blame the innermost open bracket

  The parsers blame the innermost open bracket, and recovery does not change the blame.  Reading may go
  on in the middle of a broken bracket, at a declaration that stands inside of it; the errors that come
  then are about brackets that were opened later still, since every parser remembers only what it opened
  itself.

  The invariant of a reading from `c` on is that the cursor is behind `c`, and that all errors that were
  noted are blamed on what stands behind `c` (`Session.BlamedFrom`).  Each reader keeps it, and ends with
  errors of this kind (`Recovering.Blames`).  In the end places behind a cursor are turned into places in
  the list of all tokens (`calls_blame`).
-/

namespace Modula

/-! ## Sessions

  Skips take brackets that nobody closes.  So a session cannot say that everything in front of it is
  matched, but only that it has moved on; and an error names a bracket opened behind the place where its
  parser began. -/

/-- Reading has come here from `c`, and the errors that were noted are blamed on what stands behind
`c`. -/
structure Session.BlamedFrom (c : Cursor) (s : Session) : Prop where
  le : c ≤ s.cursor
  log : ∀ r ∈ s.log, r.error.BlamedFrom c

/-- Reading goes on behind a broken declaration, or where its error arose. -/
theorem Cursor.le_resume {c start d : Cursor} (hstart : c ≤ start) (hd : c ≤ d) :
    c ≤ start.resume d := by
  unfold resume
  split
  · exact hstart.trans (start.le_advance.trans start.advance_le_afterDeclaration)
  · exact hd

namespace Recovering

variable {α β : Type} {c : Cursor}

/-- Whatever a reader notes or ends with is blamed on what stands behind `c`, if this holds of what was
noted before. -/
def Blames (c : Cursor) (p : Recovering α) : Prop :=
  ∀ options s, Session.BlamedFrom c s → match p options s with
    | .ok _ s' => s'.BlamedFrom c
    | .error e s' => s'.BlamedFrom c ∧ e.BlamedFrom c

/-- To return a value blames nobody. -/
theorem pure_blames (a : α) : (pure a : Recovering α).Blames c := fun _ _ hs => hs

/-- Readers that blame, in sequence. -/
theorem Blames.bind {p : Recovering α} {g : α → Recovering β} (hp : p.Blames c)
    (hg : ∀ a, (g a).Blames c) : (p >>= g).Blames c := by
  intro options s hs
  have hrun := hp options s hs
  rw [bind_apply]
  cases h : p options s with
  | ok a s' =>
    rw [h] at hrun
    exact hg a options s' hrun
  | error e s' =>
    rw [h] at hrun
    exact hrun

/-- The cursor that is looked at is behind the place where reading began. -/
theorem cursor_bind_blames {g : Cursor → Recovering β} (hg : ∀ d, c ≤ d → (g d).Blames c) :
    (cursor >>= g).Blames c := fun options s hs => hg s.cursor hs.le options s hs

/-- A parser that moves forward and blames; both are in `Onward`. -/
theorem run_blames {construct : Construct} {p : Parser α} (hp : p.Onward) :
    (run construct p).Blames c := by
  intro options s hs
  have hrun := hp construct s.cursor
  unfold run
  cases h : p construct s.cursor with
  | ok a c' =>
    rw [h] at hrun
    exact ⟨hs.le.trans hrun, hs.log⟩
  | error e c' =>
    rw [h] at hrun
    exact ⟨⟨hs.le.trans hrun.1, hs.log⟩, hrun.2.of_le hs.le⟩

/-- The error that a parser hands out is blamed like one that it ends with. -/
theorem attempt_bind_blames {construct : Construct} {p : Parser α}
    {g : Except SyntaxError α → Recovering β} (hp : p.Onward) (hok : ∀ a, (g (.ok a)).Blames c)
    (herror : ∀ e, e.BlamedFrom c → (g (.error e)).Blames c) :
    (attempt construct p >>= g).Blames c := by
  intro options s hs
  have hrun := hp construct s.cursor
  rw [bind_apply, attempt]
  cases h : p construct s.cursor with
  | ok a c' =>
    rw [h] at hrun
    exact hok a options _ ⟨hs.le.trans hrun, hs.log⟩
  | error e c' =>
    rw [h] at hrun
    exact herror e (hrun.2.of_le hs.le) options _ ⟨hs.le.trans hrun.1, hs.log⟩

/-- An error that has been blamed may be raised again. -/
theorem throw_blames {e : SyntaxError} (he : e.BlamedFrom c) :
    (throw e : Recovering α).Blames c := fun _ _ hs => ⟨hs, he⟩

/-- An error that has been blamed may be noted, if reading goes on behind the beginning. -/
theorem note_blames {e : SyntaxError} {resumption : Cursor} (he : e.BlamedFrom c)
    (hres : c ≤ resumption) : (note e resumption).Blames c := by
  intro options s hs
  unfold note
  split
  · next hnote =>
    split at hnote
    · cases hnote
    · cases hnote
      -- The note is one more error to be blamed, and reading goes on behind `c`.
      refine ⟨hres.trans (Cursor.le_withId _ _), fun r hr => ?_⟩
      rcases List.mem_append.1 hr with hr | hr
      · exact hs.log r hr
      · rw [List.mem_singleton.1 hr]
        exact he
  · next hnote =>
    split at hnote
    · cases hnote
      exact ⟨hs, he⟩
    · cases hnote

/-- At the end of the source an error may turn into one that blames nobody. -/
theorem inside_blames {name : Ident} {p : Recovering α} (hp : p.Blames c) :
    (inside name p).Blames c := by
  intro options s hs
  have hrun := hp options s hs
  unfold inside
  cases h : p options s with
  | ok a s' =>
    rw [h] at hrun
    exact hrun
  | error e s' =>
    rw [h] at hrun
    refine ⟨hrun.1, ?_⟩
    unfold asMissingFooter
    split
    · exact hrun.2
    · exact .of_cause rfl

/-! ## Imports and declarations

  Items are read by parsers, each of which begins to look for brackets anew. -/

/-- By induction on the budget: the skip behind a broken import goes forward. -/
theorem imports_blames (budget : Nat) : (imports budget).Blames c := by
  induction budget with
  | zero => exact pure_blames _
  | succ budget ih =>
    rw [imports]
    refine cursor_bind_blames fun start hstart => ?_
    split
    · refine attempt_bind_blames Parser.importClause_blames.onward
        (fun i => ih.bind fun _ => pure_blames _) fun e he => cursor_bind_blames fun d _ => ?_
      have hnote : (note e start.afterImport).Blames c := note_blames he
        (hstart.trans (start.le_advance.trans start.advance_le_afterImport))
      split
      · exact (throw_blames he).bind fun _ => hnote.bind fun _ => ih
      · exact hnote.bind fun _ => ih
    · exact pure_blames _

/-- By induction on the budget.  The error of an item is blamed on a bracket of the item. -/
theorem items_blames {construct : Construct} {item : Parser α} (hi : item.Onward) (budget : Nat) :
    (items construct item budget).Blames c := by
  induction budget with
  | zero => exact pure_blames _
  | succ budget ih =>
    rw [items]
    refine cursor_bind_blames fun start hstart => ?_
    split
    · refine attempt_bind_blames hi (fun a => ih.bind fun _ => pure_blames _)
        fun e he => cursor_bind_blames fun d hd => ?_
      have hnote : (note e (start.resume d)).Blames c :=
        note_blames he (Cursor.le_resume hstart hd)
      split
      · exact (throw_blames he).bind fun _ => hnote.bind fun _ => ih
      · exact hnote.bind fun _ => ih
    · exact pure_blames _

/-- The word of a section is no bracket. -/
theorem sectionOf_blames {construct : Construct} {item : Parser α}
    {kind : List α → DeclarationKind} (hi : item.Onward) :
    (sectionOf construct item kind).Blames c :=
  (run_blames Parser.advance_onward).bind fun _ => cursor_bind_blames fun _ _ =>
    (items_blames hi _).bind fun _ => (run_blames Parser.freshId_blames.onward).bind fun _ =>
      cursor_bind_blames fun _ _ => pure_blames _

/-- What is passed over is noted with errors of another kind. -/
theorem declarations_blames (inDefinition : Bool) (budget : Nat) :
    (declarations inDefinition budget).Blames c := by
  induction budget with
  | zero => exact pure_blames _
  | succ budget ih =>
    rw [declarations]
    refine cursor_bind_blames fun start hstart => ?_
    split
    · exact (sectionOf_blames Parser.constItem_blames.onward).bind fun _ => ih.bind fun _ =>
        pure_blames _
    · exact (sectionOf_blames Parser.typeItem_blames.onward).bind fun _ => ih.bind fun _ =>
        pure_blames _
    · exact (note_blames (.of_cause rfl) (hstart.trans (start.le_advance.trans
        start.advance_le_afterVariables))).bind fun _ => ih
    · exact (note_blames (.of_cause rfl) (hstart.trans (start.le_advance.trans
        (start.advance_le_afterProcedure inDefinition)))).bind fun _ => ih
    · exact pure_blames _

/-! ## Modules -/

/-- Statements are passed over in the same way. -/
theorem body_blames : body.Blames c := by
  refine cursor_bind_blames fun _ _ => ?_
  split
  · refine (run_blames Parser.advance_onward).bind fun _ => cursor_bind_blames fun d hd => ?_
    split
    · exact (note_blames (.of_cause rfl) (hd.trans d.le_atFooter)).bind fun _ => pure_blames _
    · exact pure_blames _
  · exact pure_blames _

/-- Sections and a body. -/
theorem block_blames : block.Blames c :=
  cursor_bind_blames fun _ _ => (declarations_blames false _).bind fun _ => body_blames.bind fun _ =>
    cursor_bind_blames fun _ _ => pure_blames _

theorem allImports_blames : allImports.Blames c := cursor_bind_blames fun _ _ => imports_blames _

theorem footer_blames : footer.Blames c := run_blames Parser.footer_onward

/-- What is rewritten at the end of the source is not about brackets, before or behind. -/
theorem definitionModule_blames : definitionModule.Blames c :=
  cursor_bind_blames fun _ _ => (run_blames Parser.definitionHeader_blames.onward).bind fun _ =>
    (inside_blames allImports_blames).bind fun _ =>
      (inside_blames (cursor_bind_blames fun _ _ => declarations_blames true _)).bind fun _ =>
        (inside_blames footer_blames).bind fun _ => cursor_bind_blames fun _ _ => pure_blames _

/-- The same for the other modules. -/
theorem programModule_blames : programModule.Blames c :=
  cursor_bind_blames fun _ _ => (run_blames Parser.programHeader_blames.onward).bind fun _ =>
    (inside_blames allImports_blames).bind fun _ => (inside_blames block_blames).bind fun _ =>
      (inside_blames footer_blames).bind fun _ => cursor_bind_blames fun _ _ => pure_blames _

/-- Every error of a unit blames the innermost open bracket, if it is about one. -/
theorem unit_blames : unit.Blames c := by
  have hstart : anyModule.Blames c := by
    refine cursor_bind_blames fun _ _ => ?_
    split
    · exact definitionModule_blames.bind fun _ => pure_blames _
    · exact programModule_blames.bind fun _ => pure_blames _
    · exact programModule_blames.bind fun _ => pure_blames _
    · exact run_blames (Parser.fail_blames fun _ => rfl).onward
  have hend : endOfSource.Blames c := by
    refine cursor_bind_blames fun _ _ => ?_
    split
    · exact run_blames (Parser.fail_blames fun _ => rfl).onward
    · exact pure_blames _
  exact hstart.bind fun _ => hend.bind fun _ => pure_blames _

end Recovering

/-! ## Answers

  From a cursor the claim goes over to the list of tokens, by what lies between the cursor and the token
  blamed. -/

/-- The syntax error in a diagnostic. -/
def Diagnostic.syntaxError? : Diagnostic → Option SyntaxError
  | .lexical _ => none
  | .grammatical e => some e

/-- The syntax errors in an answer. -/
def Answer.syntaxErrors : Answer → List SyntaxError
  | .expr (.error e) | .type (.error e) => [e]
  | .expr (.ok _) | .type (.ok _) => []
  | .unit report => report.errors.filterMap Diagnostic.syntaxError?

namespace Cursor

variable {tokens : List Token} {options : Options} {requests : List Request}

/-- All errors of a report, those noted and the last one. -/
theorem syntaxErrors_blamed (c : Cursor) : ∀ e ∈ c.syntaxErrors options, e.BlamedFrom c := by
  have hrun := Recovering.unit_blames options ⟨c, []⟩ ⟨le_refl c, fun r hr => absurd hr List.not_mem_nil⟩
  unfold syntaxErrors
  cases h : Recovering.unit options ⟨c, []⟩ with
  | ok u s =>
    rw [h] at hrun
    exact List.forall_mem_map.2 hrun.log
  | error e s =>
    rw [h] at hrun
    exact List.forall_mem_append.2
      ⟨List.forall_mem_map.2 hrun.1.log, List.forall_mem_singleton.2 hrun.2⟩

/-- Whatever a cursor is asked for, the errors in the answer are blamed. -/
theorem answer_blamed (c : Cursor) (request : Request) :
    ∀ e ∈ (c.answer options request).1.syntaxErrors, e.BlamedFrom c := by
  cases request with
  | expr =>
    have hrun := Parser.expr_blames .compilationUnit c
    rw [answer, readExpr]
    cases h : Parser.expr .compilationUnit c with
    | ok e c' => exact fun e he => absurd he List.not_mem_nil
    | error e c' => exact List.forall_mem_singleton.2 (hrun.blamed h).2
  | type =>
    have hrun := Parser.type_blames .compilationUnit c
    rw [answer, readType]
    cases h : Parser.type .compilationUnit c with
    | ok t c' => exact fun e he => absurd he List.not_mem_nil
    | error e c' => exact List.forall_mem_singleton.2 (hrun.blamed h).2
  | unit =>
    intro e he
    rw [answer, Answer.syntaxErrors, readUnit_errors, List.filterMap_map, List.mem_filterMap] at he
    -- The errors of a report are those that were noted and the last one.
    obtain ⟨e', he', heq⟩ := he
    obtain rfl : e' = e := Option.some.inj heq
    exact c.syntaxErrors_blamed e' he'

/-- Each call is made of a cursor over the tokens, and blames what stands behind it. -/
theorem calls_blamed {c : Cursor} (h : ofTokens tokens ≤ c) :
    ∀ call ∈ c.calls tokens options requests, ∃ d, ofTokens tokens ≤ d ∧
      call.start = d.place tokens ∧ ∀ e ∈ call.answer.syntaxErrors, e.BlamedFrom d := by
  induction requests generalizing c with
  | nil => exact fun call hcall => absurd hcall List.not_mem_nil
  | cons request more ih =>
    exact List.forall_mem_cons.2 ⟨⟨c, h, rfl, c.answer_blamed request⟩,
      ih (h.trans (c.answer_le options request))⟩

/-- The token at a cursor over the tokens is of the kind that the cursor tells. -/
theorem kind_token_of_le {c : Cursor} (h : ofTokens tokens ≤ c) : c.token.kind = c.kind := by
  by_cases hc : c.kind = .eof
  · have hnil : c.rest = [] := by
      cases hr : c.rest with
      | nil => rfl
      | cons t ts =>
        have hopen := isEof_of_mem_rest h t (hr ▸ List.mem_cons_self)
        rw [← kind_of_rest hr, hc] at hopen
        cases hopen
    rw [token, hnil, hc]
    show c.stop.kind = .eof
    rw [(le_iff_suffix.1 h).1]
    exact kind_stopOf tokens
  · exact kind_token hc

/-- The token at a cursor is the first one of those that are left, with the end of the source behind
them. -/
theorem exists_token_cons (c : Cursor) : ∃ more, c.rest ++ [c.stop] = c.token :: more := by
  rw [token]
  cases c.rest with
  | nil => exact ⟨[], rfl⟩
  | cons t ts => exact ⟨ts ++ [c.stop], rfl⟩

end Cursor

/-- An error about a bracket that is not closed is about the innermost one that is open: the tokens
between its opening token and the offending token are matched.  What the error says about the bracket is
right, too: what it is called, which token would close it, which token was found instead, and where it
begins.  It does not matter what was asked for before, or which errors there were before. -/
theorem calls_blame (tokens : List Token) (options : Options) (requests : List Request) (call : Call)
    (hcall : call ∈ (Cursor.ofTokens tokens).calls tokens options requests) (e : SyntaxError)
    (he : e ∈ call.answer.syntaxErrors) (bracket : Bracket) (opener : Token) (found : Token.Kind)
    (hcause : e.cause = .unterminated bracket opener found) :
    (∃ before inner after,
      Cursor.withStop tokens = before ++ opener :: (inner ++ e.token :: after) ∧
      call.start ≤ before.length ∧
      before.length + 1 + inner.length + e.remaining = (Cursor.ofTokens tokens).remaining ∧
      Matched (inner.map Token.kind)) ∧
    (bracket.construct.name, opener.kind, bracket.closer) ∈
      [("record type", .word .RECORD, .word .END), ("variant part", .word .CASE, .word .END),
        ("subrange type", .symbol .openBracket, .symbol .closeBracket),
        ("set constructor", .symbol .openBrace, .symbol .closeBrace),
        ("enumeration", .symbol .openParen, .symbol .closeParen),
        ("parenthesized expression", .symbol .openParen, .symbol .closeParen),
        ("formal parameter list", .symbol .openParen, .symbol .closeParen)] ∧
    found = e.token.kind ∧
    e.cause.description = "expected " ++ bracket.closer.displayName ++ " to close " ++
      bracket.construct.name ++ ", found " ++ e.token.kind.displayName ∧
    e.cause.hint? = some ("the " ++ bracket.construct.name ++ " starts at line " ++
      toString opener.line ++ ", column " ++ toString opener.column) := by
  obtain ⟨d, hd, hstart, hblamed⟩ := Cursor.calls_blamed le_rfl call hcall
  obtain ⟨before, inner, d', hrest, hstop, hkind, hinner, hstands, hfound⟩ :=
    hblamed e he bracket opener found hcause
  -- The cursor of the error is behind that of the call.
  have hbehind : d ≤ d' :=
    Cursor.le_iff_suffix.2 ⟨hstop, before ++ opener :: inner, by rw [hrest]; simp⟩
  have hkinds : found = e.token.kind := by
    rw [hfound, hstands.1, Cursor.kind_token_of_le (hd.trans hbehind)]
  refine ⟨?_, ?_, hkinds, ?_, ?_⟩
  -- What stands behind a cursor is put into the list of all tokens.
  · obtain ⟨-, front, hfront⟩ := Cursor.le_iff_suffix.1 hd
    obtain ⟨behind, htokens⟩ := Cursor.ofTokens_prefix tokens
    obtain ⟨more, hmore⟩ := d'.exists_token_cons
    have hstop' : (Cursor.ofTokens tokens).stop = d'.stop :=
      (Cursor.le_iff_suffix.1 (hd.trans hbehind)).1.symm
    have hcount := Cursor.place_add_remaining hd
    have hlength := congrArg List.length hfront
    have hlength' := congrArg List.length hrest
    simp only [List.length_append, List.length_cons] at hlength hlength'
    refine ⟨front ++ before, inner, more ++ behind, ?_, ?_, ?_, hinner⟩
    -- The token of the error is the next one to be read, or the end of the source.
    · have htail : e.token :: (more ++ behind) = d'.rest ++ [d'.stop] ++ behind := by
        rw [hstands.1, hmore, List.cons_append]
      rw [← htokens, ← hfront, hrest, hstop', htail]
      simp
    · rw [hstart, List.length_append]
      simp only [Cursor.remaining] at hcount
      omega
    · rw [hstands.2, List.length_append]
      simp only [Cursor.remaining]
      omega
  · rw [hkind]
    cases bracket <;> decide
  · rw [hcause, ← hkinds]
    rfl
  · rw [hcause]
    rfl

/-- `[ ( 1 ) .. { 2 , { } ;` on one line, each token one column wide. -/
def openSet : List Token :=
  [.symbol .openBracket, .symbol .openParen, .integer ⟨.decimal, "1"⟩, .symbol .closeParen,
    .symbol .ellipsis, .symbol .openBrace, .integer ⟨.decimal, "2"⟩, .symbol .comma,
    .symbol .openBrace, .symbol .closeBrace, .symbol .semicolon].mapIdx
      fun n k => ⟨k, ⟨n, n + 1⟩, 1, n + 1⟩

/-- Both the subrange and the outer set are open, and the set is to blame. -/
theorem calls_blame_openSet :
    let opener : Token := ⟨.symbol .openBrace, ⟨5, 6⟩, 1, 6⟩
    let semicolon : Token := ⟨.symbol .semicolon, ⟨10, 11⟩, 1, 11⟩
    let e : SyntaxError :=
      ⟨.unterminated .setConstructor opener (.symbol .semicolon), semicolon, 1, .setConstructor⟩
    ⟨.type (.error e), 0, 10⟩ ∈ (Cursor.ofTokens openSet).calls openSet .default [.type] ∧
      (∃ before inner after,
        Cursor.withStop openSet = before ++ opener :: (inner ++ semicolon :: after) ∧
        before.length + 1 + inner.length + 1 = 11 ∧ Matched (inner.map Token.kind)) ∧
      e.cause.description = "expected " ++ (Token.Kind.symbol .closeBrace).displayName ++
        " to close set constructor, found " ++ (Token.Kind.symbol .semicolon).displayName ∧
      e.cause.hint? = some "the set constructor starts at line 1, column 6" := by
  intro opener semicolon e
  have hcall : ⟨.type (.error e), 0, 10⟩ ∈
      (Cursor.ofTokens openSet).calls openSet .default [.type] := by
    have hcalls : (Cursor.ofTokens openSet).calls openSet .default [.type] =
        [⟨.type (.error e), 0, 10⟩] := by
      with_unfolding_all rfl
    rw [hcalls]
    exact List.mem_singleton_self _
  obtain ⟨⟨before, inner, after, htokens, -, hlength, hinner⟩, -, -, hdescription, hhint⟩ :=
    calls_blame openSet .default [.type] _ hcall e (List.mem_singleton_self e) .setConstructor opener
      (.symbol .semicolon) rfl
  exact ⟨hcall, ⟨before, inner, after, htokens, hlength, hinner⟩, hdescription,
    hhint.trans (by decide +kernel)⟩

end Modula

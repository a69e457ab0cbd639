import Modula.Proofs.Abreast.Answer
import Modula.Proofs.Numbering.Unit
import Modula.Proofs.Recovery.Order
/-!
# One question after the other

  A cursor may be asked for several things, one after the other, and goes on where it stopped.  Nothing
  else is left over from one question to the next but the ids that have been drawn: each answer is that
  of a fresh cursor over the tokens from there on, with its ids raised (`calls_eq_freshCalls`).

  One call is compared with one fresh call first.  The tokens of the fresh cursor are those that the
  other one has not read (`Cursor.ofTokens_tokensFrom`), so that the other one reads them retold, as the
  same tokens with ids counted from another number on (`Retelling.raised`).  The rest is an induction on
  the number of questions; what it carries along is that the cursor is one over the tokens.

  A cursor has nothing but its place and its ids to hand on.  A machine keeps errors and phrases as well
  (`Machine`), and that it hands on no more than its cursor is shown apart (`Machine.calls_fresh`).
-/

namespace Modula

variable {tokens : List Token} {options : Options} {requests : List Request}

/-! ## Calls

  A call is told with the places where it began and where it stopped, which are counts of tokens. -/

/-- A question that has been answered. -/
structure Call where
  answer : Answer
  /-- How many tokens had been read before. -/
  start : Nat
  /-- How many tokens had been read afterwards. -/
  stop : Nat

/-- The ids in the tree of an answer. -/
def Call.ids (call : Call) : List Nat := call.answer.tree?.toList.flatMap Node.ids

namespace Cursor

/-- How many of the tokens have been read. -/
def place (tokens : List Token) (c : Cursor) : Nat := (ofTokens tokens).remaining - c.remaining

/-- What is asked of a cursor over the tokens, one after the other. -/
def calls (tokens : List Token) (options : Options) (c : Cursor) : List Request → List Call
  | [] => []
  | request :: more =>
    let (answer, c') := c.answer options request
    ⟨answer, c.place tokens, c'.place tokens⟩ :: calls tokens options c' more

/-- The tokens from a place on, up to the first end of the source there, which is included. -/
def tokensFrom (tokens : List Token) (place : Nat) : List Token :=
  let behind := (withStop tokens).drop place
  behind.takeWhile (fun t => !t.kind.isEof) ++ (behind.dropWhile fun t => !t.kind.isEof).take 1

end Cursor

/-- The answer with so many numbers added to the ids of its tree. -/
def Answer.raise (count : Nat) : Answer → Answer
  | .expr result => .expr (result.map (Expr.relabel (.forth 0 count)))
  | .type result => .type (result.map (TypeExpr.relabel (.forth 0 count)))
  | .unit report =>
    .unit { report with unit := report.unit.map (CompilationUnit.relabel (.forth 0 count)) }

/-- The same questions, each of them asked of a fresh cursor over the tokens from the place on where the
one before it has stopped.  The ids are raised by the number of those that were drawn before. -/
def freshCalls (tokens : List Token) (options : Options) :
    (place drawn : Nat) → List Request → List Call
  | _, _, [] => []
  | place, drawn, request :: more =>
    let fresh := Cursor.ofTokens (Cursor.tokensFrom tokens place)
    let (answer, c') := fresh.answer options request
    let stop := place + c'.place (Cursor.tokensFrom tokens place)
    ⟨answer.raise drawn, place, stop⟩ :: freshCalls tokens options stop (drawn + c'.nextId) more

/-! ## Raised ids

  A fresh cursor begins to number at 0.  The ids that have been drawn before are added to those of its
  trees. -/

/-- The same tokens, with ids counted from another number on. -/
def Retelling.raised (count : Nat) : Retelling where
  toRelabeling := .forth 0 count
  point offset := offset
  kind k := k
  token t := t
  id_succ n := Nat.add_right_comm n 1 count
  span_eq _ := rfl
  mono := monotone_id
  kind_eq _ := Or.inl rfl
  token_kind _ := rfl
  token_span _ := rfl

/-- An error has no ids. -/
theorem SyntaxError.retell_raised (count : Nat) (e : SyntaxError) : e.retell (.raised count) = e := by
  obtain ⟨cause, _, _, _⟩ := e
  cases cause <;> rfl

theorem Answer.retell_raised (count : Nat) (a : Answer) : a.retell (.raised count) = a.raise count := by
  cases a with
  | expr result =>
    cases result with
    | ok e => rfl
    | error e => exact congrArg (Answer.expr ∘ Except.error) (e.retell_raised count)
  | type result =>
    cases result with
    | ok t => rfl
    | error e => exact congrArg (Answer.type ∘ Except.error) (e.retell_raised count)
  | unit report =>
    have herrors : report.errors.map (Diagnostic.retell (.raised count)) = report.errors := by
      refine (List.map_congr_left fun d _ => ?_).trans report.errors.map_id
      cases d with
      | lexical e => rfl
      | grammatical e => exact congrArg Diagnostic.grammatical (e.retell_raised count)
    have hwarnings : report.warnings.map (Warning.relabel (.forth 0 count)) = report.warnings := by
      refine (List.map_congr_left fun w _ => ?_).trans report.warnings.map_id
      cases w
      rfl
    show Answer.unit ⟨_, report.errors.map _, report.warnings.map (Warning.relabel (.forth 0 count))⟩ = _
    rw [herrors, hwarnings]
    rfl

/-! ## Fresh cursors

  What is left to a cursor is a list of tokens with an end behind it.  A fresh cursor over this list has
  the same tokens to read, and it differs in what has been looked back at and in its next id. -/

namespace Cursor

variable {c : Cursor} {request : Request}

/-- The cursor as if nothing had happened before. -/
def renewed (c : Cursor) : Cursor := ⟨c.rest, c.stop, 0, 0⟩

theorem renewed_retold (c : Cursor) : Retold (.raised c.nextId) false c.renewed c :=
  ⟨c.rest.map_id.symm, rfl, (Nat.zero_add c.nextId).symm, nofun⟩

section

variable (h : ofTokens tokens ≤ c)

include h

theorem place_add_remaining : c.place tokens + c.remaining = (ofTokens tokens).remaining :=
  Nat.sub_add_cancel (remaining_le_of_le h)

theorem isEof_stop : c.stop.kind.isEof = true := by
  rw [(le_iff_suffix.1 h).1]
  exact congrArg Token.Kind.isEof (kind_stopOf tokens)

theorem isEof_of_mem_rest : ∀ t ∈ c.rest, (!t.kind.isEof) = true := fun _ ht =>
  List.mem_takeWhile_imp (p := fun t : Token => !t.kind.isEof) ((le_iff_suffix.1 h).2.mem ht)

/-- The tokens from the place of a cursor on are those that it has not read. -/
theorem tokensFrom_place : tokensFrom tokens (c.place tokens) = c.rest ++ [c.stop] := by
  obtain ⟨hstop, before, hrest⟩ := le_iff_suffix.1 h
  obtain ⟨behind, hbehind⟩ := ofTokens_prefix tokens
  have hplace : c.place tokens = before.length := by
    rw [place, remaining, remaining, ← hrest, List.length_append, Nat.add_sub_cancel]
  have hdrop : (withStop tokens).drop (c.place tokens) = c.rest ++ c.stop :: behind := by
    rw [hplace, ← hbehind, ← hrest, ← hstop, List.append_assoc, List.append_assoc, List.drop_left,
      List.singleton_append]
  have hopen := isEof_of_mem_rest h
  unfold tokensFrom
  dsimp only
  rw [hdrop, List.takeWhile_append_of_pos hopen, List.dropWhile_append_of_pos hopen]
  simp [isEof_stop h]

theorem ofTokens_tokensFrom : ofTokens (tokensFrom tokens (c.place tokens)) = c.renewed := by
  have hopen := isEof_of_mem_rest h
  have hfind : c.rest.find? (fun t => t.kind.isEof) = none :=
    List.find?_eq_none.2 fun t ht => by simpa using hopen t ht
  rw [tokensFrom_place h, ofTokens, renewed, List.takeWhile_append_of_pos hopen, stopOf,
    List.find?_append, hfind]
  simp [isEof_stop h]

end

/-! ## One call

  That what came before does not matter is an instance of reading abreast: the retelling changes ids only. -/

theorem readExpr_le (c : Cursor) : c ≤ c.readExpr.2 := by
  have htracks := Parser.expr_tracks .compilationUnit c
  unfold readExpr
  cases hrun : Parser.expr .compilationUnit c with
  | ok e c' =>
    obtain ⟨_, -, hc'⟩ := htracks.reaches hrun
    exact hc'.le
  | error e c' => exact (htracks.fails hrun).le

theorem readType_le (c : Cursor) : c ≤ c.readType.2 := by
  have htracks := Parser.type_tracks .compilationUnit c
  unfold readType
  cases hrun : Parser.type .compilationUnit c with
  | ok t c' =>
    obtain ⟨_, -, hc'⟩ := htracks.reaches hrun
    exact hc'.le
  | error e c' => exact (htracks.fails hrun).le

theorem readUnit_le (options : Options) (c : Cursor) : c ≤ (c.readUnit options).2 := by
  have hfollows := (Recovering.unit_orderly ⟨c, []⟩).follows options
  unfold readUnit
  cases hrun : Recovering.unit options ⟨c, []⟩ with
  | ok u s =>
    rw [hrun] at hfollows
    obtain ⟨_, -, htrail⟩ := hfollows
    exact htrail.le
  | error e s =>
    rw [hrun] at hfollows
    obtain ⟨_, _, -, htrail, -, hle⟩ := hfollows
    exact htrail.le.trans hle

/-- Whatever a cursor is asked for, it goes on and never back. -/
theorem answer_le (options : Options) (c : Cursor) (request : Request) :
    c ≤ (c.answer options request).2 := by
  cases request with
  | expr => exact c.readExpr_le
  | type => exact c.readType_le
  | unit => exact c.readUnit_le options

/-- A cursor goes as far as a fresh one over the tokens that it has not read. -/
theorem place_answer (h : ofTokens tokens ≤ c) :
    (c.answer options request).2.place tokens = c.place tokens +
      (c.renewed.answer options request).2.place (tokensFrom tokens (c.place tokens)) := by
  have hfresh : ofTokens (tokensFrom tokens (c.place tokens)) ≤
      (c.renewed.answer options request).2 := by
    rw [ofTokens_tokensFrom h]
    exact c.renewed.answer_le options request
  have hcount := place_add_remaining h
  have hcount' := place_add_remaining (h.trans (c.answer_le options request))
  have hcountFresh := place_add_remaining hfresh
  rw [ofTokens_tokensFrom h] at hcountFresh
  have hrenewed : c.renewed.remaining = c.remaining := rfl
  have hremaining := (c.renewed_retold.answer options request).2.remaining_eq
  omega

/-- The answers of one cursor are those of fresh ones. -/
theorem calls_eq_freshCalls (h : ofTokens tokens ≤ c) :
    c.calls tokens options requests = freshCalls tokens options (c.place tokens) c.nextId requests := by
  induction requests generalizing c with
  | nil => rfl
  | cons request more ih =>
    obtain ⟨hanswer, hretold⟩ := c.renewed_retold.answer options request
    have hle := c.answer_le options request
    have hid : (c.answer options request).2.nextId =
        c.nextId + (c.renewed.answer options request).2.nextId :=
      hretold.nextId.trans (Nat.add_comm _ _)
    rw [calls, freshCalls]
    dsimp only
    rw [ofTokens_tokensFrom h, ih (h.trans hle), hanswer, Answer.retell_raised,
      place_answer h, hid]

theorem calls_ofTokens :
    (ofTokens tokens).calls tokens options requests = freshCalls tokens options 0 0 requests := by
  have hplace : (ofTokens tokens).place tokens = 0 := Nat.sub_self _
  have hfresh : _ = freshCalls tokens options ((ofTokens tokens).place tokens) 0 requests :=
    calls_eq_freshCalls le_rfl
  rwa [hplace] at hfresh

end Cursor

end Modula

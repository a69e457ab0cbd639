import Modula.Proofs.Recovery.Limit
import Modula.Proofs.Recovery.Passing
/-!
# One error for each fault

  A compilation unit that faults are put into has one error for each of them, in their order, and as many
  as the limit allows (`readUnit_spoiled`).  No fault hides another one, and none makes up errors in what
  is sound.

  With a limit that is not reached this is what reading past faults comes to.  A smaller limit truncates
  the list, and since there is something left behind each fault, the last error is not rewritten
  (`Cursor.syntaxErrors_cut`).

  For sections of variables alone the errors are even known in full (`readUnit_variables`).  That takes
  types without variable parameters: the `VAR` of a parameter is taken for the beginning of another
  section, and one section has several errors (`readUnit_variableParameter`).
-/

namespace Modula

open Token.Kind (word symbol)

/-- In front of the end of the source are all faults. -/
theorem SyntaxError.IsAbout.remaining_pos {e : SyntaxError} {fault : Fault} (h : e.IsAbout fault) :
    0 < e.remaining := by
  cases fault with
  | phrase tokens behind =>
    obtain ⟨u, t, v, -, -, hremaining⟩ := h
    rw [hremaining, List.length_cons]
    exact Nat.succ_pos _
  | unsupported head behind =>
    rw [show e = .ofVariables head behind from h]
    exact Nat.succ_pos _

theorem remaining_pos_of_forall₂ {errors : List SyntaxError} {faults : List Fault}
    (h : List.Forall₂ SyntaxError.IsAbout errors faults) : ∀ e ∈ errors, 0 < e.remaining := by
  induction h with
  | nil => exact fun e he => absurd he List.not_mem_nil
  | cons hfirst _ ih => exact List.forall_mem_cons.2 ⟨hfirst.remaining_pos, ih⟩

/-- Each fault has its error, as far as the limit goes. -/
theorem Cursor.syntaxErrors_of_spoiled {c : Cursor} {good : List Token} {faults : List Fault}
    (h : Spoiled good c.rest faults) (options : Options) :
    List.Forall₂ SyntaxError.IsAbout (c.syntaxErrors options) (faults.take options.limit) := by
  -- with a larger limit than that, all faults are noted
  let large : Options := ⟨faults.length + options.limit, true⟩
  have hlimit : large.limit = faults.length + options.limit :=
    Nat.max_eq_right ((options.limit_pos).trans_le (Nat.le_add_left _ _))
  have hroom : ([] : List Recovery).length + faults.length < large.limit := by
    have hpos := options.limit_pos
    rw [hlimit, List.length_nil]
    omega
  obtain ⟨u, c', log, hrun, -, habout⟩ := Recovering.unit_passes h large [] hroom
  have hall : List.Forall₂ SyntaxError.IsAbout (c.syntaxErrors large) faults := by
    rw [syntaxErrors, hrun]
    exact List.forall₂_map_left_iff.2 habout
  have hcut : c.syntaxErrors options = (c.syntaxErrors large).take options.limit := by
    have hle : options.limit ≤ large.limit := by omega
    rw [syntaxErrors_cut hle]
    refine modifyLast_eq_self fun e he => Recovering.atCut_of_remaining ?_
    exact remaining_pos_of_forall₂ hall e (List.mem_of_mem_take he)
  rw [hcut]
  exact List.forall₂_take options.limit hall

/-- Faults may be put into every source that has no errors. -/
theorem Cursor.spoiled_of_isOk {c : Cursor} {options : Options}
    (h : (c.readUnit options).1.isOk = true) : Spoiled c.rest c.rest [] := by
  obtain ⟨t, s, hrun, hlog, -⟩ := readUnit_isOk h
  have hunit : IsUnit c.kinds (t.relabel .forget) := Recovering.unit_readsOnly hrun hlog
  exact .of_isUnit hunit

/-- Without its faults the source has no errors.  With them it has one for each of them, in their order,
up to the limit. -/
theorem readUnit_spoiled {source tokens : List Token} {faults : List Fault}
    (h : Spoiled (Cursor.ofTokens source).rest (Cursor.ofTokens tokens).rest faults)
    (options : Options) :
    ((Cursor.ofTokens source).readUnit options).1.errors = [] ∧
    ∃ errors : List SyntaxError,
      ((Cursor.ofTokens tokens).readUnit options).1.errors = errors.map .grammatical ∧
      errors.length = min faults.length options.limit ∧
      List.Forall₂ SyntaxError.IsAbout errors (faults.take options.limit) := by
  constructor
  -- Without its faults the source is a sentence of the grammar.
  · obtain ⟨u, hu⟩ := h.isUnit
    obtain ⟨t, c', hrun, -⟩ := Recovering.unit_readsAll (c := .ofTokens source) hu
    rw [Cursor.readUnit, hrun options []]
    rfl
  · have habout := Cursor.syntaxErrors_of_spoiled h options
    refine ⟨_, Cursor.readUnit_errors _ _, ?_, habout⟩
    rw [habout.length_eq, List.length_take, Nat.min_comm]

/-- `MODULE m; IMPORT; CONST a = ; END m.`, where an import and a constant are broken. -/
theorem readUnit_spoiled_importAndConstant :
    let header := Token.Kind.row 0 [word .MODULE, .name "m", symbol .semicolon]
    let brokenImport := Token.Kind.row 3 [word .IMPORT, symbol .semicolon]
    let head := Token.Kind.row 5 [word .CONST]
    let brokenItem := Token.Kind.row 6 [.name "a", symbol .equal, symbol .semicolon]
    let footer := Token.Kind.row 9 [word .END, .name "m", symbol .period]
    let tokens := header ++ (brokenImport ++ (head ++ (brokenItem ++ footer)))
    let faults : List Fault :=
      [.phrase brokenImport (head ++ (brokenItem ++ footer)), .phrase brokenItem footer]
    Spoiled (Cursor.ofTokens (header ++ (head ++ footer))).rest (Cursor.ofTokens tokens).rest faults ∧
    ∃ errors : List SyntaxError,
      ((Cursor.ofTokens tokens).readUnit ⟨5, true⟩).1.errors = errors.map .grammatical ∧
      errors.length = 2 ∧ List.Forall₂ SyntaxError.IsAbout errors faults := by
  intro header brokenImport head brokenItem footer tokens faults
  have himport : IsBrokenImport (head ++ (brokenItem ++ footer)) brokenImport := by
    refine ⟨⟨_, [], _, rfl, Or.inl rfl, nofun, rfl⟩, ?_⟩
    rintro ⟨_, stop, lastEnd, nextId⟩ rfl
    exact ⟨_, _, rfl, trivial⟩
  have hconstant : IsBrokenItem .constDeclaration Parser.constItem footer brokenItem := by
    refine ⟨⟨_, Token.Kind.row 7 [symbol .equal], _, rfl, rfl, rfl, rfl⟩, ?_⟩
    rintro ⟨_, stop, lastEnd, nextId⟩ rfl
    exact ⟨_, _, rfl, rfl⟩
  have himports : Pieces (TriedPiece IsImport IsBrokenImport) (head ++ (brokenItem ++ footer)) []
      brokenImport (faults.take 1) := .one (.broken himport)
  have hitems : Pieces (TriedPiece IsConstItem (IsBrokenItem .constDeclaration Parser.constItem))
      footer [] brokenItem (faults.drop 1) := .one (.broken hconstant)
  have hsections : Pieces SectionPiece footer head (head ++ brokenItem) (faults.drop 1) :=
    .one (.constants rfl hitems)
  have hheader : IsProgramHeader (header.map Token.kind) (false, ⟨"m", .nowhere⟩) :=
    .program (.name (.name "m"))
  have hfooter : IsFooter (footer.map Token.kind) ⟨"m", .nowhere⟩ := .footer (.name "m")
  have hspoiled : Spoiled (header ++ (head ++ footer)) tokens faults :=
    .program (s := head ++ brokenItem) (b := []) hheader himports hsections .none hfooter
  have hmain := @readUnit_spoiled (header ++ (head ++ footer)) tokens faults hspoiled ⟨5, true⟩
  exact ⟨hspoiled, hmain.2⟩

/-! ## Sections of variables -/

/-- Sections of variables are all that is wrong: each of them has one error, at its `VAR`. -/
theorem readUnit_variables {source tokens : List Token} {groups : List (Token × List Token)}
    (h : Spoiled (Cursor.ofTokens source).rest (Cursor.ofTokens tokens).rest
      (groups.map fun g => .unsupported g.1 g.2)) (hlen : groups.length ≤ 20) :
    ((Cursor.ofTokens tokens).readUnit .default).1.errors =
      groups.map fun g => .grammatical (.ofVariables g.1 g.2) := by
  have habout := Cursor.syntaxErrors_of_spoiled h .default
  -- The limit is that of the defaults, so none of the faults is left out.
  have hall : (groups.map fun g => Fault.unsupported g.1 g.2).take Options.default.limit =
      groups.map fun g => .unsupported g.1 g.2 := by
    refine List.take_of_length_le ?_
    rw [List.length_map]
    exact hlen
  rw [hall, List.forall₂_map_right_iff] at habout
  have herrors : (Cursor.ofTokens tokens).syntaxErrors .default =
      groups.map fun g => .ofVariables g.1 g.2 :=
    List.forall₂_eq_eq_eq ▸ List.forall₂_map_right_iff.2 habout
  rw [Cursor.readUnit_errors, herrors, List.map_map]
  rfl

/-- `MODULE m; VAR r : RECORD f : PROCEDURE (T) END; END m.` -/
theorem readUnit_variables_record :
    let header := Token.Kind.row 0 [word .MODULE, .name "m", symbol .semicolon]
    let head : Token := ⟨word .VAR, ⟨3, 4⟩, 1, 4⟩
    let declared := Token.Kind.row 4 [.name "r", symbol .colon, word .RECORD, .name "f", symbol .colon,
      word .PROCEDURE, symbol .openParen, .name "T", symbol .closeParen, word .END, symbol .semicolon]
    let footer := Token.Kind.row 15 [word .END, .name "m", symbol .period]
    let tokens := header ++ head :: (declared ++ footer)
    Spoiled (Cursor.ofTokens (header ++ footer)).rest (Cursor.ofTokens tokens).rest
        [.unsupported head (declared ++ footer)] ∧
      ((Cursor.ofTokens tokens).readUnit .default).1.errors =
        [.grammatical (.ofVariables head (declared ++ footer))] := by
  intro header head declared footer tokens
  have hformals : IsFormals [symbol .openParen, .name "T", symbol .closeParen] _ :=
    .formals (.some (.one (.formal false false (.parts (.one (.name "T")))))) .none
  have hfield : IsEntry [.name "f", symbol .colon, word .PROCEDURE, symbol .openParen, .name "T",
      symbol .closeParen] _ := .fields (.idents (.one (.name "f"))) (.procedureWith hformals)
  have htype : IsType [word .RECORD, .name "f", symbol .colon, word .PROCEDURE, symbol .openParen,
      .name "T", symbol .closeParen, word .END] _ := .record (.one hfield)
  have hdeclared : IsVariable (declared.map Token.kind) _ :=
    .declared (.idents (.one (.name "r"))) htype (by decide)
  have hsections : Pieces SectionPiece footer [] (head :: declared)
      [.unsupported head (declared ++ footer)] := .one (.unsupported rfl (.more hdeclared .none))
  have hheader : IsProgramHeader (header.map Token.kind) (false, ⟨"m", .nowhere⟩) :=
    .program (.name (.name "m"))
  have hfooter : IsFooter (footer.map Token.kind) ⟨"m", .nowhere⟩ := .footer (.name "m")
  have hspoiled : Spoiled (header ++ footer) tokens [.unsupported head (declared ++ footer)] :=
    .program (s := head :: declared) (b := []) hheader .none hsections .none hfooter
  have hmain := @readUnit_variables (header ++ footer) tokens [(head, declared ++ footer)] hspoiled
    (by decide)
  exact ⟨hspoiled, hmain⟩

/-- `MODULE m; VAR p : PROCEDURE (VAR INTEGER); END m.`  There is one section of variables, the type in
it is sound, and there are two errors: the second is about the `VAR` of the parameter. -/
theorem readUnit_variableParameter :
    let header := Token.Kind.row 0 [word .MODULE, .name "m", symbol .semicolon]
    let head : Token := ⟨word .VAR, ⟨3, 4⟩, 1, 4⟩
    let name := Token.Kind.row 4 [.name "p", symbol .colon]
    let opening := Token.Kind.row 6 [word .PROCEDURE, symbol .openParen]
    let mode : Token := ⟨word .VAR, ⟨8, 9⟩, 1, 9⟩
    let closing := Token.Kind.row 9 [.name "INTEGER", symbol .closeParen]
    let last := Token.Kind.row 11 [symbol .semicolon]
    let footer := Token.Kind.row 12 [word .END, .name "m", symbol .period]
    let type := opening ++ mode :: closing
    let rest := closing ++ (last ++ footer)
    let tokens := header ++ head :: (name ++ (type ++ (last ++ footer)))
    ((Cursor.ofTokens (header ++ footer)).readUnit .default).1.errors = [] ∧
      (∃ t, IsType (type.map Token.kind) t) ∧
      ((Cursor.ofTokens tokens).readUnit .default).1.errors =
        [.grammatical (.ofVariables head (name ++ (opening ++ mode :: rest))),
          .grammatical (.ofVariables mode rest)] := by
  intro header head name opening mode closing last footer type rest tokens
  have hformal : IsFormal [word .VAR, .name "INTEGER"] _ :=
    @IsFormal.formal true false _ _ (.parts (.one (.name "INTEGER")))
  have hformals : IsFormals (symbol .openParen :: ([word .VAR, .name "INTEGER"] ++
      symbol .closeParen :: [])) _ := .formals (.some (.one hformal)) .none
  exact ⟨rfl, ⟨_, .procedureWith hformals⟩, rfl⟩

end Modula

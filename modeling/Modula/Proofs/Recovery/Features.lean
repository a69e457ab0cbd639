import Modula.Proofs.Recovery.Limit
import Modula.Proofs.Recovery.Passing
import Modula.Proofs.Recovery.Procedures
/-!
# One error for each procedure and for the statements

  Procedures and statements are sound as such and not supported.  A compilation unit in which some stand
  has one error for each procedure, at its `PROCEDURE`, and one for the statements, at the first token of
  them; and there is no other error (`readUnit_withFeatures`).

  `WithFeatures` tells which sources these are.  As with faults, such a source is described together with
  the source that it would be without its procedures and statements; and since the errors are known in
  full, they are told along with it.
-/

namespace Modula

open Token.Kind (word symbol)
open Recovering (EndsSections)

/-! ## Sources with procedures and statements

  They are put into a compilation unit between its sections and behind its `BEGIN`.  What may stand in
  them is told by the skips only. -/

/-- That a feature is not supported, which begins at this token. -/
def SyntaxError.ofFeature (feature : SyntaxError.Feature) (head : Token) (behind : List Token) :
    SyntaxError :=
  ⟨.notSupported feature, head, (head :: behind).length, .compilationUnit⟩

/-- Sections, with procedures in front of them, between them and behind them.  The first tokens are the
sections alone. -/
inductive WithProcedures (inDefinition : Bool) (behind : List Token) :
    (good all : List Token) → List SyntaxError → Prop
  | none : WithProcedures inDefinition behind [] [] []
  | sound {w good all : List Token} {errors : List SyntaxError} {d : Declaration} :
    IsSection (w.map Token.kind) d → WithProcedures inDefinition behind good all errors →
      WithProcedures inDefinition behind (w ++ good) (w ++ all) errors
  | procedure {head : Token} {w good all : List Token} {errors : List SyntaxError} :
    head.kind = word .PROCEDURE → IsProcedure inDefinition (w.map Token.kind) →
    WithProcedures inDefinition behind good all errors →
      WithProcedures inDefinition behind good (head :: (w ++ all))
        (.ofFeature .procedureDeclarations head (w ++ (all ++ behind)) :: errors)

/-- A body, with statements behind its `BEGIN` or without any. -/
inductive WithStatements (behind : List Token) : (good all : List Token) → List SyntaxError → Prop
  | sound {w : List Token} {place : Option Span} : IsBody (w.map Token.kind) place →
    WithStatements behind w w []
  | statements {head first : Token} {more : List Token} :
    head.kind = word .BEGIN → first.kind ≠ word .END →
      WithStatements behind [head] (head :: first :: more)
        [.ofFeature .statementSequences first (more ++ behind)]

/-- The second list of tokens is the first one, a compilation unit, with procedures and statements put
into it, which have these errors. -/
inductive WithFeatures : (good all : List Token) → List SyntaxError → Prop
  | definition {h i gs s f : List Token} {es : List SyntaxError} {name foot : Ident}
    {imports : List Import} :
    IsDefinitionHeader (h.map Token.kind) name → Repeated IsImport (i.map Token.kind) imports →
    WithProcedures true f gs s es → IsFooter (f.map Token.kind) foot →
      WithFeatures (h ++ (i ++ (gs ++ f))) (h ++ (i ++ (s ++ f))) es
  | program {h i gs s gb b f : List Token} {es eb : List SyntaxError} {header : Bool × Ident}
    {foot : Ident} {imports : List Import} :
    IsProgramHeader (h.map Token.kind) header → Repeated IsImport (i.map Token.kind) imports →
    WithProcedures false (b ++ f) gs s es → WithStatements f gb b eb →
    IsFooter (f.map Token.kind) foot →
      WithFeatures (h ++ (i ++ (gs ++ (gb ++ f)))) (h ++ (i ++ (s ++ (b ++ f)))) (es ++ eb)

/-! ## The source without procedures and statements

  What is left without them are the sections of a unit, with the same header, imports and footer. -/

section

variable {inDefinition : Bool} {behind good all w : List Token} {errors : List SyntaxError}

theorem WithProcedures.sections (h : WithProcedures inDefinition behind good all errors) :
    ∃ l, Repeated IsSection (good.map Token.kind) l := by
  induction h with
  | none => exact ⟨[], .none⟩
  | sound hs _ ih =>
    obtain ⟨l, hl⟩ := ih
    rw [List.map_append]
    exact ⟨_, .more hs hl⟩
  | procedure _ _ _ ih => exact ih

theorem WithStatements.isBody (h : WithStatements behind good all errors) :
    ∃ place, IsBody (good.map Token.kind) place := by
  cases h with
  | sound hw => exact ⟨_, hw⟩
  | statements hk _ =>
    rw [List.map_singleton, hk]
    exact ⟨_, .some⟩

/-- Without procedures and statements, a source is a compilation unit. -/
theorem WithFeatures.isUnit (h : WithFeatures good all errors) :
    ∃ u, IsUnit (good.map Token.kind) u := by
  cases h with
  | definition hh hi hs hf =>
    obtain ⟨sections, hs⟩ := hs.sections
    simp only [List.map_append]
    exact ⟨_, .definition hh hi hs hf⟩
  | program hh hi hs hb hf =>
    obtain ⟨sections, hs⟩ := hs.sections
    obtain ⟨place, hb⟩ := hb.isBody
    simp only [List.map_append]
    have hunit := IsUnit.program hh hi (.block hs hb) hf
    rw [List.append_assoc] at hunit
    exact ⟨_, hunit⟩

theorem Repeated.withProcedures {l : List Declaration}
    (h : Repeated IsSection (w.map Token.kind) l) : WithProcedures inDefinition behind w w [] := by
  generalize hks : w.map Token.kind = ks at h
  induction h generalizing w with
  | none =>
    rw [List.map_eq_nil_iff.1 hks]
    exact .none
  | more hs _ ih =>
    obtain ⟨u, v, rfl, rfl, hv⟩ := List.map_eq_append_iff.1 hks
    exact .sound hs (ih hv)

/-- Procedures and statements may be put into any compilation unit, and none of them is one way to do
so. -/
theorem WithFeatures.of_isUnit {u : CompilationUnit} (h : IsUnit (w.map Token.kind) u) :
    WithFeatures w w [] := by
  generalize hks : w.map Token.kind = ks at h
  -- A unit of the grammar is divided as one with features is, and none of them is there.
  cases h with
  | definition hh hi hs hf =>
    obtain ⟨h, w₁, rfl, rfl, hw₁⟩ := List.map_eq_append_iff.1 hks
    obtain ⟨i, w₂, rfl, rfl, hw₂⟩ := List.map_eq_append_iff.1 hw₁
    obtain ⟨s, f, rfl, rfl, rfl⟩ := List.map_eq_append_iff.1 hw₂
    exact .definition hh hi hs.withProcedures hf
  | program hh hi hb hf =>
    obtain ⟨h, w₁, rfl, rfl, hw₁⟩ := List.map_eq_append_iff.1 hks
    obtain ⟨i, w₂, rfl, rfl, hw₂⟩ := List.map_eq_append_iff.1 hw₁
    obtain ⟨w₃, f, rfl, hw₃, rfl⟩ := List.map_eq_append_iff.1 hw₂
    cases hb with
    | block hs hbody =>
      obtain ⟨s, b, rfl, rfl, rfl⟩ := List.map_eq_append_iff.1 hw₃
      have hfeatures := WithFeatures.program hh hi hs.withProcedures (.sound hbody) hf
      simpa only [List.append_assoc, List.append_nil] using hfeatures

end

/-! ## Reading past procedures and statements

  The readers come through the whole source, and note just these. -/

/-- In front of the token there is neither an item nor an import to be read. -/
def EndsItems (k : Token.Kind) : Prop := k.isName = false ∧ k ≠ word .IMPORT ∧ k ≠ word .FROM

theorem endsItems_of_endsSections {k : Token.Kind} (h : EndsSections k) : EndsItems k := by
  rcases h with rfl | rfl <;> exact ⟨rfl, nofun, nofun⟩

/-- In front of each section and each procedure, and behind the last one, items end. -/
theorem WithProcedures.endsItems {inDefinition : Bool} {behind good all : List Token}
    {errors : List SyntaxError} (h : WithProcedures inDefinition behind good all errors)
    (hr : EndsSections (upcoming (behind.map Token.kind))) :
    EndsItems (upcoming ((all ++ behind).map Token.kind)) := by
  cases h with
  | none => exact endsItems_of_endsSections hr
  | @sound w good all _ d hs _ =>
    rw [List.append_assoc, List.map_append]
    obtain ⟨k, ks, hks, hk⟩ := isSection_begins hs
    rw [hks, List.cons_append, upcoming_cons]
    rcases hk with rfl | rfl <;> exact ⟨rfl, nofun, nofun⟩
  | procedure hk _ _ =>
    rw [List.cons_append, List.map_cons, upcoming_cons, hk]
    exact ⟨rfl, nofun, nofun⟩

namespace Recovering

/-- The notes are these very errors. -/
abbrev NotesOnly {α : Type} (p : Recovering α) (c : Cursor) (errors : List SyntaxError)
    (behind : List Token) : Prop := Notes Eq p c errors behind

section

variable {c : Cursor} {behind good all : List Token} {errors : List SyntaxError}

theorem note_feature_notes {feature : SyntaxError.Feature} {head : Token} {ts : List Token}
    {resumption : Cursor} (hc : c.rest = head :: ts) (hres : resumption.rest = behind) :
    NotesOnly (note (outerError c (.notSupported feature)) resumption) c [.ofFeature feature head ts]
      behind := by
  have herror : outerError c (.notSupported feature) = .ofFeature feature head ts := by
    rw [outerError, Cursor.token, Cursor.remaining, hc]
    rfl
  exact .note herror hres

/-- A section is read, and a procedure is noted where it begins. -/
theorem declarations_notes {inDefinition : Bool}
    (h : WithProcedures inDefinition behind good all errors)
    (hr : EndsSections (upcoming (behind.map Token.kind))) {budget : Nat} (hb : all.length ≤ budget)
    (hc : c.rest = all ++ behind) :
    NotesOnly (declarations inDefinition budget) c errors behind := by
  induction h generalizing budget c with
  | none => exact declarations_end_notes hr hc
  | @sound w good all errors d hs hmore ih =>
    obtain ⟨hname, -⟩ := hmore.endsItems hr
    rw [List.append_assoc] at hc
    rw [List.length_append] at hb
    -- a section begins with a token, so the budget covers what is behind it
    obtain ⟨k, ks, hks, -⟩ := isSection_begins hs
    have hlen := congrArg List.length hks
    rw [List.length_map, List.length_cons] at hlen
    obtain ⟨budget, rfl⟩ : ∃ budget', budget = budget' + 1 := ⟨budget - 1, by omega⟩
    exact declarations_section_notes hs hname hc fun c' hc' => ih (by omega) hc'
  | @procedure head w good all errors hk hw hmore ih =>
    rw [List.cons_append, List.append_assoc] at hc
    rw [List.length_cons, List.length_append] at hb
    obtain ⟨budget, rfl⟩ : ∃ budget', budget = budget' + 1 := ⟨budget - 1, by omega⟩
    rw [declarations]
    refine .cursor_bind ?_
    rw [Cursor.kind_of_rest hc, hk]
    exact (note_feature_notes hc (Cursor.rest_afterProcedure hc hw)).bind fun _ c' hc' =>
      ih (by omega) hc'

/-- A body is read, and statements in it are noted where they begin. -/
theorem body_notes {f : List Token} {foot : Ident} (h : WithStatements f good all errors)
    (hf : IsFooter (f.map Token.kind) foot) (hc : c.rest = all ++ f) :
    NotesOnly body c errors f := by
  cases h with
  | sound hw => exact .of_readsAll body_readsAll body_steady hc hw (isFooter_next hf)
  | @statements head first more hk hfirst =>
    have hbegin : c.kind = word .BEGIN := (Cursor.kind_of_rest hc).trans hk
    have hadvance : c.advance.rest = (first :: more) ++ f := by
      rw [Cursor.rest_advance, hc, List.cons_append, List.tail_cons]
    -- What stands behind `BEGIN` is no `END`, so it is taken for a statement.
    have hnot : c.advance.kind ≠ word .END := by rwa [Cursor.kind_of_rest hadvance]
    rw [body]
    refine .cursor_bind ?_
    rw [if_pos hbegin]
    refine .run_bind (Parser.advance_apply _ c) (.cursor_bind ?_)
    rw [if_pos hnot]
    exact (note_feature_notes hadvance (Cursor.rest_atFooter hadvance hf)).bind_last fun _ c' hc' =>
      .pure _ hc'

theorem endsSections_of_withStatements {f : List Token} {foot : Ident}
    (h : WithStatements f good all errors) (hf : IsFooter (f.map Token.kind) foot) :
    EndsSections (upcoming ((all ++ f).map Token.kind)) := by
  cases h with
  | sound hw => exact endsSections_of_isBody hw hf
  | statements hk _ =>
    rw [List.cons_append, List.map_cons, upcoming_cons]
    exact Or.inl hk

/-- Imports are read where a section or a procedure, or the end of both, stands behind them. -/
theorem allImports_notes {i : List Token} {imports : List Import}
    (hi : Repeated IsImport (i.map Token.kind) imports)
    (hnext : EndsItems (upcoming (behind.map Token.kind))) (hc : c.rest = i ++ behind) :
    NotesOnly allImports c [] behind :=
  .of_readsAll allImports_readsAll allImports_steady hc hi hnext.2

theorem block_notes {gs s gb b f : List Token} {es eb : List SyntaxError} {foot : Ident}
    (hs : WithProcedures false (b ++ f) gs s es) (hb : WithStatements f gb b eb)
    (hf : IsFooter (f.map Token.kind) foot) (hc : c.rest = s ++ (b ++ f)) :
    NotesOnly block c (es ++ eb) f :=
  block_notes_of_parts (declarations_notes hs (endsSections_of_withStatements hb hf)
    (Cursor.length_le_of_rest hc) hc) fun _ hc' => body_notes hb hf hc'

/-- A compilation unit is read to its end, whatever procedures and statements stand in it. -/
theorem unit_notes_features (h : WithFeatures good all errors) (hc : c.rest = all) :
    NotesOnly unit c errors [] := by
  cases h with
  | definition hh hi hs hf =>
    have hend := endsSections_of_isFooter hf
    exact unit_notes_of_definition hh (fun _ => allImports_notes hi (hs.endsItems hend))
      (fun c hc => .cursor_bind (declarations_notes hs hend (Cursor.length_le_of_rest hc) hc)) hf hc
  | @program h i _ s _ b f es eb _ _ _ hh hi hs hb hf =>
    have hnext := hs.endsItems (endsSections_of_withStatements hb hf)
    -- the sections and the body are one part of the module
    have hblock := fun c => block_notes (c := c) hs hb hf
    have hparts : c.rest = h ++ (i ++ ((s ++ b) ++ f)) := by rw [hc, List.append_assoc s]
    rw [← List.append_assoc] at hnext hblock
    have hunit : NotesOnly unit c ([] ++ (es ++ eb)) [] :=
      unit_notes_of_program hh (fun _ => allImports_notes hi hnext) hblock hf hparts
    exact hunit

end

end Recovering

/-! ## Errors of a report -/

/-- No error of a feature stands at the end of the source. -/
theorem WithProcedures.remaining_pos {inDefinition : Bool} {behind good all : List Token}
    {errors : List SyntaxError} (h : WithProcedures inDefinition behind good all errors) :
    ∀ e ∈ errors, 0 < e.remaining := by
  induction h with
  | none => exact fun e he => absurd he List.not_mem_nil
  | sound _ _ ih => exact ih
  | procedure _ _ _ ih => exact List.forall_mem_cons.2 ⟨Nat.succ_pos _, ih⟩

theorem WithFeatures.remaining_pos {good all : List Token} {errors : List SyntaxError}
    (h : WithFeatures good all errors) : ∀ e ∈ errors, 0 < e.remaining := by
  cases h with
  | definition _ _ hs _ => exact hs.remaining_pos
  | program _ _ hs hb _ =>
    refine List.forall_mem_append.2 ⟨hs.remaining_pos, ?_⟩
    cases hb with
    | sound _ => exact fun e he => absurd he List.not_mem_nil
    | statements _ _ => exact List.forall_mem_singleton.2 (Nat.succ_pos _)

/-- Procedures and statements may be put into every source that has no errors. -/
theorem Cursor.withFeatures_of_isOk {c : Cursor} {options : Options}
    (h : (c.readUnit options).1.isOk = true) : WithFeatures c.rest c.rest [] := by
  obtain ⟨t, s, hrun, hlog, -⟩ := readUnit_isOk h
  have hunit : IsUnit c.kinds (t.relabel .forget) := Recovering.unit_readsOnly hrun hlog
  exact .of_isUnit hunit

/-- These are all errors, as far as the limit goes. -/
theorem Cursor.syntaxErrors_withFeatures {c : Cursor} {good : List Token} {errors : List SyntaxError}
    (h : WithFeatures good c.rest errors) (options : Options) :
    c.syntaxErrors options = errors.take options.limit := by
  -- with a larger limit than that, each of them is noted
  let large : Options := ⟨errors.length + options.limit, true⟩
  have hpos := options.limit_pos
  have hlimit : large.limit = errors.length + options.limit :=
    Nat.max_eq_right (hpos.trans_le (Nat.le_add_left _ _))
  have hroom : ([] : List Recovery).length + errors.length < large.limit := by
    rw [hlimit, List.length_nil]
    omega
  obtain ⟨u, c', log, hrun, -, hlog⟩ := Recovering.unit_notes_features h rfl large [] hroom
  have hall : c.syntaxErrors large = errors := by
    rw [syntaxErrors, hrun]
    exact List.forall₂_eq_eq_eq ▸ List.forall₂_map_left_iff.2 hlog
  have hle : options.limit ≤ large.limit := by omega
  rw [syntaxErrors_cut hle, hall]
  refine modifyLast_eq_self fun e he => Recovering.atCut_of_remaining ?_
  exact h.remaining_pos e (List.mem_of_mem_take he)

/-- Without its procedures and statements the source has no errors.  With them it has one for each
procedure, at its `PROCEDURE`, and one for the statements, at the first token of them. -/
theorem readUnit_withFeatures {source tokens : List Token} {errors : List SyntaxError}
    (h : WithFeatures (Cursor.ofTokens source).rest (Cursor.ofTokens tokens).rest errors)
    {options : Options} (hrecover : options.recover = true)
    (hmax : errors.length ≤ options.maxErrors) :
    ((Cursor.ofTokens source).readUnit options).1.errors = [] ∧
      ((Cursor.ofTokens tokens).readUnit options).1.errors = errors.map .grammatical := by
  constructor
  -- Without its features the source is a sentence of the grammar.
  · obtain ⟨u, hu⟩ := h.isUnit
    obtain ⟨t, c', hrun, -⟩ := Recovering.unit_readsAll (c := .ofTokens source) hu
    rw [Cursor.readUnit, hrun options []]
    rfl
  -- All features are noted, since there are no more of them than there may be errors.
  · have hlimit : errors.length ≤ options.limit := by
      rw [Options.limit, if_pos hrecover]
      exact hmax.trans (Nat.le_max_right _ _)
    rw [Cursor.readUnit_errors, Cursor.syntaxErrors_withFeatures h, List.take_of_length_le hlimit]

/-- `MODULE m; PROCEDURE p (a; b); END q; END p; BEGIN x := END m.`  The procedure has a semicolon in its
parentheses, its body has an `END` with another name, and the statements are cut off. -/
theorem readUnit_withFeatures_procedureAndStatements :
    let header := Token.Kind.row 0 [word .MODULE, .name "m", symbol .semicolon]
    let head : Token := ⟨word .PROCEDURE, ⟨3, 4⟩, 1, 4⟩
    let heading := Token.Kind.row 4 [.name "p", symbol .openParen, .name "a", symbol .semicolon,
      .name "b", symbol .closeParen, symbol .semicolon]
    let inner := Token.Kind.row 11 [word .END, .name "q", symbol .semicolon]
    let closing := Token.Kind.row 14 [word .END, .name "p", symbol .semicolon]
    let start : Token := ⟨word .BEGIN, ⟨17, 18⟩, 1, 18⟩
    let first : Token := ⟨.name "x", ⟨18, 19⟩, 1, 19⟩
    let more := Token.Kind.row 19 [symbol .becomes]
    let footer := Token.Kind.row 20 [word .END, .name "m", symbol .period]
    let procedure := heading ++ (inner ++ closing)
    let statements := start :: first :: more
    let tokens := header ++ (head :: procedure ++ (statements ++ footer))
    let errors : List SyntaxError :=
      [.ofFeature .procedureDeclarations head (procedure ++ ([] ++ (statements ++ footer))),
        .ofFeature .statementSequences first (more ++ footer)]
    WithFeatures (Cursor.ofTokens (header ++ (start :: footer))).rest (Cursor.ofTokens tokens).rest
        errors ∧
      ((Cursor.ofTokens tokens).readUnit ⟨2, true⟩).1.errors = errors.map .grammatical := by
  intro header head heading inner closing start first more footer procedure statements tokens errors
  have hparameters : Balanced (fun k => k ≠ symbol .semicolon)
      (symbol .openParen :: ([.name "a", symbol .semicolon, .name "b"] ++ symbol .closeParen :: [])) :=
    .parentheses (.token nofun nofun trivial (.token nofun nofun trivial
      (.token nofun nofun trivial .nil))) .nil
  have hinner : ¬ procedureEnd "p" <:+: inner.map Token.kind := by decide
  have hprocedure : IsProcedure false (procedure.map Token.kind) :=
    .withBody (.heading hparameters) hinner
  have hprocedures : WithProcedures false (statements ++ footer) [] (head :: (procedure ++ []))
      [.ofFeature .procedureDeclarations head (procedure ++ ([] ++ (statements ++ footer)))] :=
    .procedure rfl hprocedure .none
  have hstatements : WithStatements footer [start] statements
      [.ofFeature .statementSequences first (more ++ footer)] := .statements rfl nofun
  have hheader : IsProgramHeader (header.map Token.kind) (false, ⟨"m", .nowhere⟩) :=
    .program (.name (.name "m"))
  have hfooter : IsFooter (footer.map Token.kind) ⟨"m", .nowhere⟩ := .footer (.name "m")
  have hfeatures : WithFeatures (header ++ (start :: footer)) tokens errors :=
    .program (i := []) hheader .none hprocedures hstatements hfooter
  have hmain := @readUnit_withFeatures (header ++ (start :: footer)) tokens errors hfeatures
    ⟨2, true⟩ rfl (by decide)
  exact ⟨hfeatures, hmain.2⟩

end Modula

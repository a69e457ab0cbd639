import Modula.Proofs.Recovery.Course
import Modula.Proofs.Tracking.Item
/-!
# The course of the reading of a compilation unit

  Every reader of a part of a module is steady.  Most of the work is done where an item is tried: its
  parser tracks the sentences of the grammar, so that the skip behind the error passes over all that it
  had taken (`Resumes`).

  Inside a module the error that reading ends with is looked at once more: at the end of the source it
  becomes the error that the footer is missing.  For the error of a note this makes a difference in one
  case only, that of statements which begin at the end of the source (`atCut`).
-/

namespace Modula.Recovering

open Token.Kind (word symbol)

variable {α β γ : Type}

/-! ## Items and sections

  A loop is orderly if each of its turns is: a note has something skipped behind it, so the next turn
  begins further on. -/

/-- A parser that is run is steady: it notes nothing, and an error of it ends the reading as it is. -/
theorem run_steady {L : Language Token.Kind} {p : Parser α} {construct : Construct}
    (hp : p.Tracks L) : Steady id (run construct p) :=
  fun _ => .run le_rfl (hp _ _) fun _ _ => rfl

/-- The error of an attempt is its value, and the cursor is left where the parser left it. -/
theorem attempt_of_error {p : Parser α} {construct : Construct} {c c' : Cursor} {e : SyntaxError}
    (h : p construct c = .error e c') (options : Options) (log : List Recovery) :
    attempt construct p options ⟨c, log⟩ = .ok (.error e) ⟨c', log⟩ := by
  rw [attempt, h]

section

variable {item : Parser α} {L : Language Token.Kind} {starts : Token.Kind → Prop}
  [DecidablePred starts] {resume : Cursor → Cursor → Cursor}

/-- By induction on the budget.  The limit is asked at each note, and the resumption behind it is behind
the error by what is known about the skip. -/
theorem tryItems_steady (construct : Construct) (hi : item.Tracks L)
    (hresume : Resumes starts L resume) (budget : Nat) :
    Steady id (tryItems starts construct item resume budget) := by
  induction budget with
  | zero => exact .pure _
  | succ budget ih =>
    intro s
    rw [tryItems]
    refine .cursor_bind ?_
    split
    · next hs =>
      cases h : item construct s.cursor with
      | ok a c' =>
        obtain ⟨w, -, hw⟩ := (hi construct s.cursor).reaches h
        refine .congr (q := do return a :: (← tryItems starts construct item resume budget))
          (fun options => bind_of_ok (attempt_of_ok h options s.log)) rfl ?_
        exact (ih.orderly hw.le).bind fun more => .pure _
      | error e c' =>
        obtain ⟨d, hd, he, hc', hres, hlt⟩ := hresume hs ((hi construct s.cursor).fails h)
        refine .congr (fun options => bind_of_ok (attempt_of_error h options s.log)) rfl
          (.cursor_bind ?_)
        split
        · exact .of_error (fun _ => rfl) hd he hc' rfl
        · next hend =>
          -- some tokens are left, and so the error does not stand at the end
          rw [Bool.not_eq_true] at hend
          have hpos : 0 < e.remaining :=
            he.2 ▸ lt_of_lt_of_le (Cursor.remaining_pos hend) (Cursor.remaining_le_of_le hc')
          exact (Orderly.note hd he hc' hres hlt (Or.inl ⟨hend, hpos⟩)).bind fun _ => ih
    · exact .pure _ le_rfl

/-- Imports, with the skip that is theirs. -/
theorem allImports_steady : Steady id allImports := by
  intro s
  refine .cursor_bind ?_
  rw [imports_eq_tryItems]
  exact tryItems_steady _ Parser.importClause_tracks afterImport_resumes _ s

/-- A section moves forward by its word at least. -/
theorem sectionOf_orderly (construct : Construct) (kind : List α → DeclarationKind) {k : Token.Kind}
    {s : Session} (hi : item.Tracks L)
    (hresume : Resumes (fun k => k.isName = true) L Cursor.resume) (hs : s.cursor.kind = k)
    (hk : k ≠ .eof) : Orderly id s.cursor (sectionOf construct item kind) s := by
  refine .run_bind le_rfl (Parser.advance_tracksFrom hs hk) (fun _ _ => rfl) fun t c' _ hle => ?_
  refine .cursor_bind ?_
  rw [items_eq_tryItems]
  refine ((tryItems_steady construct hi hresume _).orderly hle).bind fun items s => ?_
  exact .run_bind le_rfl (Parser.freshId_tracks _ _) (fun _ _ => rfl) fun id c' _ hle =>
    .cursor_bind (.pure _ hle)

end

/-- A feature is noted where it begins. -/
theorem note_feature {s : Session} (feature : SyntaxError.Feature) {resumption : Cursor}
    (hs : s.cursor.kind ≠ .eof) (hres : s.cursor.advance ≤ resumption) :
    Orderly id s.cursor (note (outerError s.cursor (.notSupported feature)) resumption) s := by
  have hend := Cursor.atEnd_of_kind hs
  exact .note le_rfl ⟨rfl, rfl⟩ le_rfl (s.cursor.le_advance.trans hres)
    (Cursor.remaining_lt_of_advance_le hs hres) (Or.inl ⟨hend, Cursor.remaining_pos hend⟩)

/-- Sections one after the other; the errors about variables and procedures stand where reading has come
to, and the skips behind them go forward. -/
theorem declarations_steady (inDefinition : Bool) (budget : Nat) :
    Steady id (declarations inDefinition budget) := by
  induction budget with
  | zero => exact .pure _
  | succ budget ih =>
    intro s
    refine .cursor_bind ?_
    split
    -- A `VAR` section and a procedure take at least the token that they begin with.
    · next hk =>
      exact (sectionOf_orderly _ _ Parser.constItem_tracks
        (resume_resumes fun _ => .of_isConstItem) hk nofun).bind fun d =>
        ih.bind fun more => .pure _
    · next hk =>
      exact (sectionOf_orderly _ _ Parser.typeItem_tracks
        (resume_resumes fun _ => .of_isTypeItem) hk nofun).bind fun d =>
        ih.bind fun more => .pure _
    · next hk =>
      exact (note_feature _ (hk ▸ nofun) s.cursor.advance_le_afterVariables).bind fun _ => ih
    · next hk =>
      exact (note_feature _ (hk ▸ nofun) (s.cursor.advance_le_afterProcedure _)).bind fun _ => ih
    · exact .pure _ le_rfl

theorem allDeclarations_steady : Steady id allDeclarations :=
  fun s => .cursor_bind (declarations_steady _ _ s)

/-- The error about statements may stand at the end of the source, where it is the one that is rewritten
at a cut. -/
theorem body_steady : Steady id body := by
  intro s
  refine .cursor_bind ?_
  split
  · next hk =>
    have hne : s.cursor.kind ≠ .eof := hk ▸ nofun
    refine .run_bind le_rfl (Parser.advance_tracksFrom hk nofun) (fun _ _ => rfl) fun t c' h hle => ?_
    cases h
    refine .cursor_bind ?_
    dsimp only
    split
    · -- statements are noted behind the BEGIN, and that is left behind in any case
      refine Orderly.bind (.note hle ⟨rfl, rfl⟩ le_rfl (Cursor.le_atFooter _) ?_ (Or.inr rfl))
        fun _ => .pure _
      exact Cursor.remaining_lt_of_advance_le hne (Cursor.le_atFooter _)
    · exact .pure _ hle
  · exact .pure _ le_rfl

/-- Sections first, and the body behind them. -/
theorem block_steady : Steady id block := by
  intro s
  refine .cursor_bind ((declarations_steady _ _ s).bind fun declarations => ?_)
  exact body_steady.bind fun body s => .cursor_bind (.pure _ le_rfl)

/-! ## The end of the source inside a module

  The limit may cut a reading at an error about statements, which is then looked at by the module around
  it.  Only this error is rewritten. -/

/-- What becomes of the error of a note if reading ends with it, in a module of this name. -/
def atCut (name : String) (e : SyntaxError) : SyntaxError :=
  if e.cause = .notSupported .statementSequences ∧ e.remaining = 0 then
    { e with cause := .missingFooter name }
  else e

/-- Errors about anything but statements are never rewritten. -/
theorem atCut_of_cause {name : String} {e : SyntaxError}
    (h : e.cause ≠ .notSupported .statementSequences) : atCut name e = e :=
  if_neg fun hstatements => h hstatements.1

/-- Errors in front of the end of the source are not either. -/
theorem atCut_of_remaining {name : String} {e : SyntaxError} (h : 0 < e.remaining) :
    atCut name e = e :=
  if_neg fun hstatements => Nat.ne_of_gt h hstatements.2

/-- At a cut, the last error becomes a missing footer only if it is about statements at the end of the
source. -/
theorem asMissingFooter_of_mayEnd {name : Ident} {e : SyntaxError} {c : Cursor} (h : MayEnd e c) :
    asMissingFooter name e c = atCut name.name e := by
  -- Either nothing is at its end yet, or the error is that of statements at the end.
  rcases h with ⟨hend, hpos⟩ | rfl
  · rw [atCut_of_remaining hpos]
    exact if_pos (Or.inl hend)
  · cases hend : c.atEnd with
    | false =>
      rw [atCut_of_remaining (Cursor.remaining_pos hend)]
      exact if_pos (Or.inl hend)
    | true =>
      have hzero : c.remaining = 0 := by
        rw [Cursor.remaining, List.length_eq_zero_iff, ← List.isEmpty_iff]
        exact hend
      -- Statements that are not supported do not count as something that is open.
      have hopen : ¬ (c.atEnd = false ∨
          (outerError c (.notSupported .statementSequences)).cause.isUnterminated = true) := by
        rw [hend]
        rintro (h | h) <;> cases h
      rw [asMissingFooter, if_neg hopen, atCut, if_pos ⟨rfl, hzero⟩]
      rfl

/-- An error that was looked at needs no second look. -/
theorem atCut_asMissingFooter {name : Ident} {e : SyntaxError} {c : Cursor}
    (h : c.remaining ≤ e.remaining) :
    atCut name.name (asMissingFooter name e c) = asMissingFooter name e c := by
  unfold asMissingFooter
  split
  · next hkeep =>
    rcases hkeep with hend | hopen
    · exact atCut_of_remaining (lt_of_lt_of_le (Cursor.remaining_pos hend) h)
    · exact atCut_of_cause fun hcause => by simp [hcause, SyntaxError.Cause.isUnterminated] at hopen
  · exact atCut_of_cause nofun

/-- Values come out as they are. -/
theorem inside_of_ok {moduleName : Ident} {p : Recovering α} {options : Options} {s s' : Session}
    {a : α} (h : p options s = .ok a s') : inside moduleName p options s = .ok a s' :=
  inside_eq_ok.2 h

/-- The last error is looked at with the cursor as it was left. -/
theorem inside_of_error {moduleName : Ident} {p : Recovering α} {options : Options} {s s' : Session}
    {e : SyntaxError} (h : p options s = .error e s') :
    inside moduleName p options s = .error (asMissingFooter moduleName e s'.cursor) s' := by
  rw [inside, h]

/-- What was noted stays as it is. -/
theorem logOf_inside (moduleName : Ident) (p : Recovering α) (options : Options) (s : Session) :
    logOf (inside moduleName p options s) = logOf (p options s) := by
  unfold inside
  cases p options s <;> rfl

/-- In a module the limit still only cuts: the error of a note is rewritten as `atCut` has it, and an
error that was final is rewritten the same way with every limit. -/
theorem inside_steady (moduleName : Ident) {p : Recovering α} (hp : Steady id p) :
    Steady (atCut moduleName.name) (inside moduleName p) := by
  intro s
  -- Three things are to be shown: the log follows the reading, the limit cuts it, and where an error
  -- stands.
  refine ⟨fun options => ?_, fun options options' hs hle => ?_, fun options e s' he => ?_⟩
  · have hf := (hp s).follows options
    cases h : p options s with
    | ok a s' =>
      rw [inside_of_ok h]
      exact h ▸ hf
    | error e s' =>
      rw [h] at hf
      obtain ⟨new, d, hlog, ht, he, hd⟩ := hf
      rw [inside_of_error h]
      by_cases hkeep : s'.cursor.atEnd = false ∨ e.cause.isUnterminated = true
      · exact ⟨new, d, hlog, ht, by rwa [asMissingFooter, if_pos hkeep], hd⟩
      · -- the error is about the footer now, and stands where the cursor is
        refine ⟨new, s'.cursor, hlog, ?_, ?_, le_rfl⟩
        · exact (List.append_nil new) ▸ ht.append (.done hd)
        · rw [asMissingFooter, if_neg hkeep]
          exact ⟨rfl, rfl⟩
  -- The limit cuts the log inside, and the footer is put in afterwards.
  · have hcut := (hp s).cut options options' hs hle
    refine ⟨fun hlt => ?_, fun hge => ?_⟩
    · rw [logOf_inside] at hlt
      rw [inside, inside, hcut.1 hlt]
    · rw [logOf_inside] at hge ⊢
      obtain ⟨n, c', hn, hend, heq⟩ := hcut.2 hge
      refine ⟨n, c', hn, hend, ?_⟩
      rw [inside_of_error heq, ← asMissingFooter_of_mayEnd hend]
      rfl
  · have hf := (hp s).follows options
    cases h : p options s with
    | ok a s₁ =>
      rw [inside_of_ok h] at he
      cases he
    | error e₁ s₁ =>
      rw [h] at hf
      obtain ⟨new, d, hlog, ht, hstand, hd⟩ := hf
      rw [inside_of_error h] at he
      cases he
      exact atCut_asMissingFooter (hstand.2 ▸ Cursor.remaining_le_of_le hd)

/-! ## Modules

  Both kinds of module are instances of one reader, so what is shown below is shown once. -/

/-- The reader of modules, given what a header is and what comes behind the imports. -/
def moduleOf (header : Parser α) (name : α → Ident) (middle : Recovering β)
    (make : α → List Import → β → Ident → Span → γ) : Recovering γ := do
  let start := (← cursor).token.span.start
  let h ← run .moduleHeader header
  let imports ← inside (name h) allImports
  let m ← inside (name h) middle
  let foot ← inside (name h) footer
  return make h imports m foot ⟨start, (← cursor).lastEnd⟩

/-- Both kinds of module are read by one reader, with their own parts. -/
theorem definitionModule_eq_moduleOf : definitionModule =
    moduleOf Parser.definitionHeader id allDeclarations DefinitionModule.mk := rfl

theorem programModule_eq_moduleOf : programModule =
    moduleOf Parser.programHeader Prod.snd block fun h => ProgramModule.mk h.1 h.2 := rfl

section

variable {header : Parser α} {name : α → Ident} {middle : Recovering β}
  {make : α → List Import → β → Ident → Span → γ} {L : Language Token.Kind}

/-- The footer is read by a parser, without notes. -/
theorem footer_steady : Steady id footer := run_steady Parser.footer_tracks

/-- A module with the name that its header tells; what comes behind the header is read inside. -/
theorem moduleOf_orderly {text : String} {s : Session} (hh : header.Tracks L)
    (hname : ∀ construct a c', header construct s.cursor = .ok a c' → (name a).name = text)
    (hm : Steady id middle) : Orderly (atCut text) s.cursor (moduleOf header name middle make) s := by
  refine .cursor_bind (.run_bind le_rfl (hh _ _) (fun e he => atCut_of_cause (he _)) ?_)
  intro h c' hok hle
  obtain rfl := hname _ h c' hok
  refine ((inside_steady _ allImports_steady).orderly hle).bind fun imports => ?_
  exact (inside_steady _ hm).bind fun m => (inside_steady _ footer_steady).bind fun foot _ =>
    .cursor_bind (.pure _ le_rfl)

/-- In a module that is read to its end, there is something left behind every error: the footer. -/
theorem moduleOf_ok {options : Options} {c : Cursor} {s' : Session} {u : γ} (hm : Steady id middle)
    (h : moduleOf header name middle make options ⟨c, []⟩ = .ok u s') :
    ∀ r ∈ s'.log, 0 < r.error.remaining := by
  obtain ⟨q, rfl, h₁⟩ := cursor_bind_eq_ok h
  obtain ⟨a, s₁, h₂, h₃⟩ := bind_eq_ok.1 h₁
  obtain ⟨imports, s₂, h₄, h₅⟩ := bind_eq_ok.1 h₃
  obtain ⟨m, s₃, h₆, h₇⟩ := bind_eq_ok.1 h₅
  obtain ⟨foot, s₄, h₈, h₉⟩ := bind_eq_ok.1 h₇
  cases h₉
  -- The notes are those of the imports and of what is between; the header and the footer make none.
  have himports := (allImports_steady s₁).follows options
  rw [inside_eq_ok.1 h₄] at himports
  have hmiddle := (hm s₂).follows options
  rw [inside_eq_ok.1 h₆] at hmiddle
  obtain ⟨new, hlog, ht⟩ := himports
  obtain ⟨new', hlog', ht'⟩ := hmiddle
  obtain ⟨hfoot, hlog₄⟩ := run_eq_ok (inside_eq_ok.1 h₈)
  -- The footer was still to be read when the last of them was made.
  have hpos : 0 < s₃.cursor.remaining := by
    obtain ⟨w, hw, hf⟩ := Parser.footer_readsOnly hfoot
    rw [Cursor.remaining_eq_length, hw]
    cases hf
    exact Nat.succ_pos _
  intro r hr
  have hmem : r ∈ new ++ new' := by
    rwa [hlog₄, hlog', hlog, (run_eq_ok h₂).2, List.nil_append] at hr
  exact lt_of_lt_of_le hpos ((ht.append ht').remaining_le r hmem)

end

/-! ## Compilation units

  The name that an error is rewritten with is told by the header alone. -/

/-- The name in the header of a compilation unit. -/
def headerName : List Token.Kind → String
  | word .DEFINITION :: word .MODULE :: .name text :: _ => text
  | word .IMPLEMENTATION :: word .MODULE :: .name text :: _ => text
  | word .MODULE :: .name text :: _ => text
  | _ => ""

/-- The name in the header is found two tokens behind its first one. -/
theorem headerName_of_definition {construct : Construct} {c c' : Cursor} {i : Ident}
    (h : Parser.definitionHeader construct c = .ok i c') : i.name = headerName c.kinds := by
  obtain ⟨w, hw, hh⟩ := Parser.definitionHeader_readsOnly h
  rw [hw]
  generalize hi : i.relabel .forget = i' at hh
  obtain ⟨⟨⟨text⟩⟩⟩ := hh
  exact congrArg Ident.name hi

/-- With `IMPLEMENTATION` or without it. -/
theorem headerName_of_program {construct : Construct} {c c' : Cursor} {p : Bool × Ident}
    (h : Parser.programHeader construct c = .ok p c') : p.2.name = headerName c.kinds := by
  obtain ⟨w, hw, hh⟩ := Parser.programHeader_readsOnly h
  rw [hw]
  dsimp only at hh
  generalize hi : p.2.relabel .forget = i at hh
  generalize p.1 = isImplementation at hh
  rcases hh with ⟨⟨⟨text⟩⟩⟩ | ⟨⟨⟨text⟩⟩⟩ <;> exact congrArg Ident.name hi

/-- Whichever kind of module it is, its name is found in the header. -/
theorem anyModule_orderly (s : Session) :
    Orderly (atCut (headerName s.cursor.kinds)) s.cursor anyModule s := by
  refine .cursor_bind ?_
  have hprogram : Orderly (atCut (headerName s.cursor.kinds)) s.cursor programModule s :=
    moduleOf_orderly Parser.programHeader_tracks (fun _ _ _ => headerName_of_program) block_steady
  split
  · refine Orderly.bind ?_ fun m => .pure _
    exact moduleOf_orderly Parser.definitionHeader_tracks (fun _ _ _ => headerName_of_definition)
      allDeclarations_steady
  · exact hprogram.bind fun m => .pure _
  · exact hprogram.bind fun m => .pure _
  · exact .run le_rfl (Parser.fail_tracksFrom (mem_oneToken .eof) nofun) fun e he =>
      atCut_of_cause (he _)

/-- Tokens behind the unit make an error that stands in front of the end of the source. -/
theorem endOfSource_steady (name : String) : Steady (atCut name) endOfSource := by
  intro s
  refine .cursor_bind ?_
  split
  · exact .run le_rfl (Parser.fail_tracksFrom (mem_oneToken .eof) nofun) fun e he =>
      atCut_of_cause (he _)
  · exact .pure _ le_rfl

/-- Reading a compilation unit is orderly, from wherever it begins. -/
theorem unit_orderly (s : Session) : Orderly (atCut (headerName s.cursor.kinds)) s.cursor unit s :=
  (anyModule_orderly s).bind fun _ => (endOfSource_steady _).bind fun _ => .pure _

/-- No note is made at the end of a source that is read to its end. -/
theorem unit_ok {options : Options} {c : Cursor} {s' : Session} {u : CompilationUnit}
    (h : unit options ⟨c, []⟩ = .ok u s') : ∀ r ∈ s'.log, 0 < r.error.remaining := by
  obtain ⟨_, s₁, h₁, h₂⟩ := bind_eq_ok.1 h
  obtain ⟨_, s₂, h₃, h₄⟩ := bind_eq_ok.1 h₂
  cases h₄
  obtain ⟨rfl, -⟩ := endOfSource_eq_ok h₃
  obtain ⟨q, hq, h₅⟩ := cursor_bind_eq_ok h₁
  -- One reader for each kind of module; anything else is no module.
  split at hq <;> subst hq
  · obtain ⟨m, s₁, h₆, h₇⟩ := bind_eq_ok.1 h₅
    cases h₇
    exact moduleOf_ok allDeclarations_steady h₆
  · obtain ⟨m, s₁, h₆, h₇⟩ := bind_eq_ok.1 h₅
    cases h₇
    exact moduleOf_ok block_steady h₆
  · obtain ⟨m, s₁, h₆, h₇⟩ := bind_eq_ok.1 h₅
    cases h₇
    exact moduleOf_ok block_steady h₆
  · exact absurd (run_eq_ok h₅).1 Parser.fail_ne_ok

end Modula.Recovering

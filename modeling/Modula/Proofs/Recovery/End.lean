import Modula.Proofs.Recovery.Limit
/-!
# Errors at the end of the source

  That a source has ended is reported once: an error at the end is the last one, and once the header of
  the module was read it says that a bracket is open or that the footer is missing (`readUnit_atEnd`).

  1. **Notes** — every note is about a token in front of the end, with one exception.  If the source ends
     with a `BEGIN`, then statements are taken to begin at the end, and that is noted (`Clear`).
  2. **The last error** — inside a module it is looked at once more, so at the end it is about a bracket
     or about the footer (`moduleOf_error`).
  3. **The trail** — a note at the end leaves nothing to go on with.  So it is the last note, and what
     is found behind it is one error, at the end as well.

  With the exception there are two errors at the end, where one should be (`readUnit_endAfterBegin`).
-/

namespace Modula

open Token.Kind (word symbol)

/-! ## Notes

  Reading goes on only if something is left to be read, so a note at the end of the source is the
  exception.  There is one way to make it: statements are noted behind a `BEGIN` without a look at what
  comes. -/

/-- That statements are not supported, at the end of the source. -/
def Cursor.statementsAtEnd (c : Cursor) : SyntaxError :=
  ⟨.notSupported .statementSequences, c.stop, 0, .compilationUnit⟩

/-- The error is about a token, or about statements behind the `BEGIN` that the source ends with. -/
def SyntaxError.IsNotable (e : SyntaxError) (c : Cursor) : Prop :=
  0 < e.remaining ∨ ([word .BEGIN] <:+ c.kinds ∧ e = c.statementsAtEnd)

namespace Recovering

variable {α β γ : Type}

/-- Each note that the reader makes in the session is notable, in the source that begins at `c`. -/
def Clear (c : Cursor) (p : Recovering α) (s : Session) : Prop :=
  ∀ options, ∀ r ∈ logOf (p options s), r ∈ s.log ∨ r.error.IsNotable c

namespace Clear

variable {c : Cursor} {p : Recovering α} {s : Session}

/-- Only the runs matter. -/
theorem congr {q : Recovering α} {s' : Session} (heq : ∀ options, p options s = q options s')
    (hlog : s'.log = s.log) (h : Clear c q s') : Clear c p s := by
  intro options r hr
  rw [heq] at hr
  rw [← hlog]
  exact h options r hr

theorem of_log (h : ∀ options, logOf (p options s) = s.log) : Clear c p s := by
  intro options r hr
  rw [h] at hr
  exact Or.inl hr

theorem pure (a : α) : Clear c (Pure.pure a) s := of_log fun _ => rfl

theorem cursor_bind {g : Cursor → Recovering β} (h : Clear c (g s.cursor) s) :
    Clear c (cursor >>= g) s := .congr (q := g s.cursor) (fun _ => rfl) rfl h

theorem run {construct : Construct} {q : Parser α} : Clear c (run construct q) s := by
  refine of_log fun options => ?_
  unfold Recovering.run
  cases q construct s.cursor <;> rfl

theorem note {e : SyntaxError} {resumption : Cursor} (he : e.IsNotable c) :
    Clear c (note e resumption) s := by
  intro options r hr
  rcases Nat.lt_or_ge (s.log.length + 1) options.limit with h | h
  · rw [note_of_lt_limit h] at hr
    rcases List.mem_append.1 hr with hr | hr
    · exact Or.inl hr
    · rw [List.mem_singleton.1 hr]
      exact Or.inr he
  · rw [note_of_limit_le h] at hr
    exact Or.inl hr

/-- In a sequence the second part goes on with what the first one noted. -/
theorem bind {g : α → Recovering β} (hp : Clear c p s)
    (hg : ∀ options a s₁, p options s = .ok a s₁ → Clear c (g a) s₁) : Clear c (p >>= g) s := by
  intro options r hr
  have hfirst := hp options
  cases h : p options s with
  | ok a s₁ =>
    rw [h] at hfirst
    rw [bind_of_ok h] at hr
    -- An error of the second part is clear of it; one that is not was there after the first.
    rcases hg options a s₁ h options r hr with hr | hr
    · exact hfirst r hr
    · exact Or.inr hr
  | error e s₁ =>
    rw [h] at hfirst
    rw [bind_apply, h] at hr
    exact hfirst r hr

theorem inside (moduleName : Ident) (hp : Clear c p s) : Clear c (inside moduleName p) s := by
  intro options r hr
  rw [logOf_inside] at hr
  exact hp options r hr

end Clear

/-- What a steady reader has come to lies behind where it began. -/
theorem le_cursor_of_ok {f : SyntaxError → SyntaxError} {p : Recovering α} (hp : Steady f p)
    {options : Options} {s s₁ : Session} {a : α} (h : p options s = .ok a s₁) :
    s.cursor ≤ s₁.cursor := by
  have hfollows := (hp s).follows options
  rw [h] at hfollows
  obtain ⟨new, -, htrail⟩ := hfollows
  exact htrail.le

section

variable {item : Parser α} {L : Language Token.Kind} {starts : Token.Kind → Prop}
  [DecidablePred starts] {resume : Cursor → Cursor → Cursor} {c : Cursor}

/-- A broken item is noted only if some of the source is left behind it. -/
theorem tryItems_clear (construct : Construct) (hi : item.Tracks L) (budget : Nat) (s : Session) :
    Clear c (tryItems starts construct item resume budget) s := by
  -- By induction on the budget, as the loop runs.
  induction budget generalizing s with
  | zero => exact .pure []
  | succ budget ih =>
    rw [tryItems]
    refine .cursor_bind ?_
    split
    · cases h : item construct s.cursor with
      | ok a c' =>
        refine .congr (q := do return a :: (← tryItems starts construct item resume budget))
          (fun options => bind_of_ok (attempt_of_ok h options s.log)) rfl ?_
        exact (ih _).bind fun _ more _ _ => .pure _
      | error e c' =>
        -- The error stands somewhere between the beginning of the item and where it failed.
        obtain ⟨u, d, x, -, -, he, hx, -⟩ := (hi construct s.cursor).fails h
        refine .congr (fun options => bind_of_ok (attempt_of_error h options s.log)) rfl
          (.cursor_bind ?_)
        split
        -- At the end of the source the error is not noted, and reading ends with it.
        · exact .of_log fun _ => rfl
        · next hend =>
          rw [Bool.not_eq_true] at hend
          -- It failed in front of the end, and the error stands even further in front.
          have hpos : 0 < e.remaining := by
            have hle := Cursor.remaining_le_of_le hx.le
            have hleft : 0 < c'.remaining := Cursor.remaining_pos hend
            rw [he.2]
            omega
          exact (Clear.note (Or.inl hpos)).bind fun _ _ s₁ _ => ih s₁
    · exact .pure []

theorem sectionOf_clear (construct : Construct) (kind : List α → DeclarationKind)
    (hi : item.Tracks L) (s : Session) : Clear c (sectionOf construct item kind) s := by
  rw [sectionOf]
  refine Clear.run.bind fun _ head s₁ _ => .cursor_bind ?_
  rw [items_eq_tryItems]
  refine (tryItems_clear construct hi _ s₁).bind fun _ items s₂ _ => ?_
  exact Clear.run.bind fun _ id s₃ _ => .cursor_bind (.pure _)

end

section

variable {c : Cursor}

theorem allImports_clear (s : Session) : Clear c allImports s := by
  rw [allImports]
  refine .cursor_bind ?_
  rw [imports_eq_tryItems]
  exact tryItems_clear _ Parser.importClause_tracks _ s

/-- A feature is noted where its first token stands. -/
theorem note_feature_clear {s : Session} (feature : SyntaxError.Feature) {resumption : Cursor}
    (hs : s.cursor.kind ≠ .eof) :
    Clear c (note (outerError s.cursor (.notSupported feature)) resumption) s :=
  .note (Or.inl (Cursor.remaining_pos (Cursor.atEnd_of_kind hs)))

theorem declarations_clear (inDefinition : Bool) (budget : Nat) (s : Session) :
    Clear c (declarations inDefinition budget) s := by
  induction budget generalizing s with
  | zero => exact .pure []
  | succ budget ih =>
    rw [declarations]
    refine .cursor_bind ?_
    split
    · refine (sectionOf_clear _ _ Parser.constItem_tracks s).bind fun _ d s₁ _ => ?_
      exact (ih s₁).bind fun _ more s₂ _ => .pure _
    · refine (sectionOf_clear _ _ Parser.typeItem_tracks s).bind fun _ d s₁ _ => ?_
      exact (ih s₁).bind fun _ more s₂ _ => .pure _
    -- A procedure or a module is noted at its keyword, which is not the end.
    · next hk => exact (note_feature_clear _ (by rw [hk]; decide)).bind fun _ _ s₁ _ => ih s₁
    · next hk => exact (note_feature_clear _ (by rw [hk]; decide)).bind fun _ _ s₁ _ => ih s₁
    · exact .pure []

/-- If statements begin at the end, then the `BEGIN` in front of them is the last token. -/
theorem body_clear {s : Session} (hc : c ≤ s.cursor) : Clear c body s := by
  rw [body]
  refine .cursor_bind ?_
  split
  · next hk =>
    have hadvance := Cursor.reaches_advance hk (by decide)
    refine .congr (fun options => bind_of_ok (run_of_ok (Parser.advance_apply _ _) options s.log))
      rfl (.cursor_bind ?_)
    split
    · refine (Clear.note ?_).bind fun _ _ s₁ _ => .pure _
      -- The statements are noted behind `BEGIN`, and that may be where the source ends.
      rcases Nat.eq_zero_or_pos s.cursor.advance.remaining with hzero | hpos
      -- If it is, `BEGIN` is the last word of the source, which is the exception.
      · have hnil : s.cursor.advance.rest = [] := List.length_eq_zero_iff.1 hzero
        have hlast : s.cursor.kinds = [word .BEGIN] := by
          rw [hadvance.kinds_eq, Cursor.kinds, hnil, List.map_nil, List.append_nil]
        obtain ⟨hstop, hsuffix⟩ := Cursor.le_iff_suffix.1 hc
        refine Or.inr ⟨hlast ▸ hsuffix.map Token.kind, ?_⟩
        rw [outerError, Cursor.token, hnil, hzero, Cursor.stop_advance, hstop]
        rfl
      · exact Or.inl hpos
    · exact .pure _
  · exact .pure _

theorem block_clear {s : Session} (hc : c ≤ s.cursor) : Clear c block s := by
  rw [block]
  refine .cursor_bind ((declarations_clear false _ s).bind fun options declarations s₁ h₁ => ?_)
  have hle := hc.trans (le_cursor_of_ok (declarations_steady false _) h₁)
  exact (body_clear hle).bind fun _ body s₂ _ => .cursor_bind (.pure _)

theorem moduleOf_clear {header : Parser α} {name : α → Ident} {middle : Recovering β}
    {make : α → List Import → β → Ident → Span → γ} {L : Language Token.Kind} (hh : header.Tracks L)
    (hm : ∀ s : Session, c ≤ s.cursor → Clear c middle s) {s : Session} (hc : c ≤ s.cursor) :
    Clear c (moduleOf header name middle make) s := by
  rw [moduleOf]
  refine .cursor_bind (Clear.run.bind fun _ h s₁ h₁ => ?_)
  refine ((allImports_clear s₁).inside _).bind fun _ imports s₂ h₂ => ?_
  have hle : c ≤ s₂.cursor := by
    have himports := le_cursor_of_ok allImports_steady (inside_eq_ok.1 h₂)
    exact (hc.trans (le_cursor_of_ok (run_steady hh) h₁)).trans himports
  refine ((hm s₂ hle).inside _).bind fun _ m s₃ _ => ?_
  exact (Clear.run.inside _).bind fun _ foot s₄ _ => .cursor_bind (.pure _)

theorem unit_clear (s : Session) : Clear s.cursor unit s := by
  have hmodule : Clear s.cursor anyModule s := by
    rw [anyModule]
    have hprogram : Clear s.cursor programModule s :=
      moduleOf_clear Parser.programHeader_tracks (fun _ => block_clear) le_rfl
    have hdefinition : Clear s.cursor definitionModule s :=
      moduleOf_clear Parser.definitionHeader_tracks
        (fun s' _ => .cursor_bind (declarations_clear true _ s')) le_rfl
    refine .cursor_bind ?_
    split
    · exact hdefinition.bind fun _ m s₁ _ => .pure _
    · exact hprogram.bind fun _ m s₁ _ => .pure _
    · exact hprogram.bind fun _ m s₁ _ => .pure _
    · exact .run
  rw [unit]
  refine hmodule.bind fun _ u s₁ _ => ?_
  -- Behind the module nothing is noted.
  have hend : Clear s.cursor endOfSource s₁ := by
    rw [endOfSource]
    refine .cursor_bind ?_
    split
    · exact .run
    · exact .pure _
  exact hend.bind fun _ _ s₂ _ => .pure _

end

/-! ## The last error

  An error at the end that reading ends with is looked at by the module around it.  It stays what it is
  only if it tells of something else that is open. -/

/-- A sequence fails where its first part does, or else where the second one does. -/
theorem bind_eq_error {p : Recovering α} {g : α → Recovering β} {options : Options} {s s' : Session}
    {e : SyntaxError} (h : (p >>= g) options s = .error e s') :
    p options s = .error e s' ∨ ∃ a s₁, p options s = .ok a s₁ ∧ g a options s₁ = .error e s' := by
  rw [bind_apply] at h
  cases hp : p options s with
  | ok a s₁ =>
    rw [hp] at h
    exact Or.inr ⟨a, s₁, rfl, h⟩
  | error e₁ s₁ =>
    rw [hp] at h
    cases h
    exact Or.inl rfl

/-- The error says what the end of the source left open in the module of this name. -/
def SaysWhatIsOpen (name : String) (e : SyntaxError) : Prop :=
  e.cause = .missingFooter name ∨ e.cause.isUnterminated = true

theorem inside_error {f : SyntaxError → SyntaxError} {p : Recovering α} (hp : Steady f p)
    {moduleName : Ident} {options : Options} {s s' : Session} {e : SyntaxError}
    (h : inside moduleName p options s = .error e s') (hend : e.remaining = 0) :
    SaysWhatIsOpen moduleName.name e := by
  have hfollows := (hp s).follows options
  cases hrun : p options s with
  | ok a s₁ =>
    rw [inside_of_ok hrun] at h
    cases h
  | error e₁ s₁ =>
    rw [hrun] at hfollows
    obtain ⟨new, d, -, -, hstand, hd⟩ := hfollows
    rw [inside_of_error hrun] at h
    cases h
    -- An error at the end is kept only if it tells of something else that is open.
    unfold asMissingFooter at hend ⊢
    split at hend
    · next hkeep =>
      rw [if_pos hkeep]
      rcases hkeep with hleft | hopen
      · -- then the error stands in front of the end
        have hpos := Cursor.remaining_pos hleft
        have hle := Cursor.remaining_le_of_le hd
        have hremaining := hstand.2
        omega
      · exact Or.inr hopen
    · next hkeep =>
      rw [if_neg hkeep]
      exact Or.inl rfl

/-- Behind the header of a module, an error at the end says what is open. -/
theorem moduleOf_error {header : Parser α} {name : α → Ident} {middle : Recovering β}
    {make : α → List Import → β → Ident → Span → γ} (hm : Steady id middle) {options : Options}
    {s s' : Session} {e : SyntaxError} {a : α} {c₁ : Cursor}
    (hheader : header .moduleHeader s.cursor = .ok a c₁)
    (h : moduleOf header name middle make options s = .error e s') (hend : e.remaining = 0) :
    SaysWhatIsOpen (name a).name e := by
  have hrun : run .moduleHeader header options s = .ok a ⟨c₁, s.log⟩ :=
    run_of_ok hheader options s.log
  rw [moduleOf, bind_of_ok (cursor_apply options s), bind_of_ok hrun] at h
  -- Three parts may end with an error: the imports, what is between, and the footer.
  rcases bind_eq_error h with h | ⟨imports, s₂, -, h⟩
  · exact inside_error allImports_steady h hend
  rcases bind_eq_error h with h | ⟨m, s₃, -, h⟩
  · exact inside_error hm h hend
  rcases bind_eq_error h with h | ⟨foot, s₄, -, h⟩
  · exact inside_error footer_steady h hend
  · cases h

/-- The tokens begin with the header of a module of this name. -/
def BeginsModule (ks : List Token.Kind) (name : Ident) : Prop :=
  ∃ h rest, ks = h ++ rest ∧
    (IsDefinitionHeader h name ∨ ∃ isImplementation, IsProgramHeader h (isImplementation, name))

theorem anyModule_error {options : Options} {s s' : Session} {e : SyntaxError} {name : Ident}
    (hname : BeginsModule s.cursor.kinds name) (h : anyModule options s = .error e s')
    (hend : e.remaining = 0) : SaysWhatIsOpen name.name e := by
  obtain ⟨w, rest, hkinds, hheader⟩ := hname
  rw [anyModule, bind_of_ok (cursor_apply options s)] at h
  -- Which kind of module is read is told by its first word.
  rcases hheader with hheader | ⟨isImplementation, hheader⟩
  · obtain ⟨a, c₁, hrun, ha, -⟩ := Parser.definitionHeader_readsAll _ .moduleHeader hkinds hheader
      le_rfl trivial
    have hk : s.cursor.kind = word .DEFINITION := by
      rw [Cursor.kind_eq_upcoming, hkinds]
      obtain ⟨-⟩ := hheader
      rfl
    have hsame : (a.relabel .forget).name = name.name := congrArg Ident.name ha
    rw [hk] at h
    rcases bind_eq_error h with h | ⟨m, s₁, -, h⟩
    · rw [definitionModule_eq_moduleOf] at h
      have hsays : SaysWhatIsOpen a.name e := moduleOf_error allDeclarations_steady hrun h hend
      exact hsame ▸ hsays
    · cases h
  · obtain ⟨a, c₁, hrun, ha, -⟩ := Parser.programHeader_readsAll _ .moduleHeader hkinds hheader
      le_rfl trivial
    have hk : s.cursor.kind = word .IMPLEMENTATION ∨ s.cursor.kind = word .MODULE := by
      rw [Cursor.kind_eq_upcoming, hkinds]
      rcases hheader with ⟨⟨-⟩⟩ | ⟨-⟩
      · exact Or.inr rfl
      · exact Or.inl rfl
    have hsame : (a.2.relabel .forget).name = name.name := congrArg (fun p => p.2.name) ha
    have hprogram : programModule options s = .error e s' := by
      rcases hk with hk | hk
      · rw [hk] at h
        rcases bind_eq_error h with h | ⟨m, s₁, -, h⟩
        · exact h
        · cases h
      · rw [hk] at h
        rcases bind_eq_error h with h | ⟨m, s₁, -, h⟩
        · exact h
        · cases h
    rw [programModule_eq_moduleOf] at hprogram
    have hsays : SaysWhatIsOpen a.2.name e := moduleOf_error block_steady hrun hprogram hend
    exact hsame ▸ hsays

/-- Reading a module of this name does not end at the end of the source without saying what is open. -/
theorem unit_error {options : Options} {s s' : Session} {e : SyntaxError} {name : Ident}
    (hname : BeginsModule s.cursor.kinds name) (h : unit options s = .error e s')
    (hend : e.remaining = 0) : SaysWhatIsOpen name.name e := by
  rw [unit] at h
  rcases bind_eq_error h with h | ⟨u, s₁, -, h⟩
  · exact anyModule_error hname h hend
  rcases bind_eq_error h with h | ⟨_, s₂, -, h⟩
  · -- something is left behind the module
    rw [endOfSource, bind_of_ok (cursor_apply options s₁)] at h
    split at h
    · next hleft =>
      cases h
      exact absurd hend (Nat.ne_of_gt (Cursor.remaining_pos hleft))
    · cases h
  · cases h

end Recovering

/-! ## The trail

  In a trail the notes at the end of the source are the last ones, as their places go forward. -/

/-- Behind all notes but the last one some of the source is left. -/
theorem Trail.remaining_pos {c d : Cursor} {log : List Recovery} (h : Trail c log d) :
    ∀ r ∈ log.dropLast, 0 < r.error.remaining := by
  induction h with
  | done _ => exact fun r hr => absurd hr List.not_mem_nil
  | @noted c d d' _ r log _ he hres _ _ htail ih =>
    cases log with
    | nil => exact fun r hr => absurd hr List.not_mem_nil
    | cons r' log =>
      rw [List.dropLast_cons_cons]
      refine List.forall_mem_cons.2 ⟨?_, ih⟩
      -- the next note takes a token
      have hpos : 0 < d'.remaining := by
        cases htail with
        | noted _ _ _ _ hlt _ => exact Nat.zero_lt_of_lt hlt
      rw [he.2]
      exact hpos.trans_le (Cursor.remaining_le_of_le hres)

/-- The last note may stand at the end, and then nothing is left. -/
theorem Trail.split_atEnd {c d : Cursor} {log : List Recovery} (h : Trail c log d) :
    (∀ r ∈ log, 0 < r.error.remaining) ∨
      ∃ first r, log = first ++ [r] ∧ (∀ r ∈ first, 0 < r.error.remaining) ∧
        r.error.remaining = 0 ∧ d.remaining = 0 := by
  rcases List.eq_nil_or_concat' log with rfl | ⟨first, r, rfl⟩
  · exact Or.inl (List.forall_mem_nil _)
  · have hfirst := h.remaining_pos
    rw [List.dropLast_concat] at hfirst
    rcases Nat.eq_zero_or_pos r.error.remaining with hend | hpos
    · have hle := h.remaining_le r List.mem_concat_self
      exact Or.inr ⟨first, r, rfl, hfirst, hend, by omega⟩
    · exact Or.inl (List.forall_mem_append.2 ⟨hfirst, List.forall_mem_singleton.2 hpos⟩)

namespace Cursor

variable {c d : Cursor} {e : SyntaxError}

/-- With nothing left the error is about the end of the source. -/
theorem token_eq_stop (hle : c ≤ d) (hstand : e.StandsAt d) (hend : e.remaining = 0) :
    e.token = c.stop := by
  have hnil : d.rest = [] := List.length_eq_zero_iff.1 (hstand.2.symm.trans hend)
  rw [hstand.1, token, hnil]
  exact (le_iff_suffix.1 hle).1

/-- With something left it is about a token of the source. -/
theorem token_mem_rest (hle : c ≤ d) (hstand : e.StandsAt d) (hpos : 0 < e.remaining) :
    e.token ∈ c.rest := by
  have hne : d.rest ≠ [] := List.length_pos_iff.1 (hpos.trans_eq hstand.2)
  obtain ⟨t, ts, hrest⟩ := List.exists_cons_of_ne_nil hne
  apply (le_iff_suffix.1 hle).2.subset
  rw [hstand.1, token, hrest]
  exact List.mem_cons_self

/-- The errors are those in front of the end, and then those at the end: none, or one, or two of which
the first is about statements. -/
theorem syntaxErrors_atEnd (options : Options) (c : Cursor) :
    ∃ before last, c.syntaxErrors options = before ++ last ∧
      (∀ e ∈ before, 0 < e.remaining) ∧ (∀ e ∈ last, e.remaining = 0) ∧
      (last.length ≤ 1 ∨ [word .BEGIN] <:+ c.kinds ∧ ∃ e, last = [c.statementsAtEnd, e]) ∧
      ∀ name, Recovering.BeginsModule c.kinds name → ∀ e ∈ last.getLast?,
        Recovering.SaysWhatIsOpen name.name e := by
  have hclear := Recovering.unit_clear ⟨c, []⟩ options
  have hfollows := (Recovering.unit_orderly ⟨c, []⟩).follows options
  unfold syntaxErrors
  cases h : Recovering.unit options ⟨c, []⟩ with
  | ok u s =>
    refine ⟨s.log.map Recovery.error, [], (List.append_nil _).symm, ?_, List.forall_mem_nil _,
      Or.inl (Nat.zero_le 1), fun _ _ e he => absurd he (Option.not_mem_none e)⟩
    rw [List.forall_mem_map]
    exact Recovering.unit_ok h
  | error e s =>
    rw [h] at hclear hfollows
    obtain ⟨new, d, hlog, htrail, hstand, -⟩ := hfollows
    obtain rfl : s.log = new := hlog
    have hsays : e.remaining = 0 → ∀ name, Recovering.BeginsModule c.kinds name →
        Recovering.SaysWhatIsOpen name.name e :=
      fun hend name hname => Recovering.unit_error hname h hend
    have hlast : ∀ last : List SyntaxError, last.getLast? = some e → e.remaining = 0 →
        ∀ name, Recovering.BeginsModule c.kinds name → ∀ e ∈ last.getLast?,
          Recovering.SaysWhatIsOpen name.name e := by
      rintro last hget hend name hname e' he'
      obtain rfl : e = e' := Option.some.inj (hget.symm.trans he')
      exact hsays hend name hname
    show ∃ before last, s.log.map Recovery.error ++ [e] = before ++ last ∧ _
    rcases htrail.split_atEnd with hnotes | ⟨first, r, hsplit, hfirst, hend, hzero⟩
    · have hbefore : ∀ e ∈ s.log.map Recovery.error, 0 < e.remaining := by
        rwa [List.forall_mem_map]
      rcases Nat.eq_zero_or_pos e.remaining with hend | hpos
      · exact ⟨_, [e], rfl, hbefore, List.forall_mem_singleton.2 hend, Or.inl le_rfl,
          hlast [e] rfl hend⟩
      · refine ⟨s.log.map Recovery.error ++ [e], [], (List.append_nil _).symm, ?_,
          List.forall_mem_nil _, Or.inl (Nat.zero_le 1),
          fun _ _ e he => absurd he (Option.not_mem_none e)⟩
        exact List.forall_mem_append.2 ⟨hbefore, List.forall_mem_singleton.2 hpos⟩
    · -- the last note stands at the end, and so does the error behind it
      have hmem : r ∈ s.log := hsplit ▸ List.mem_concat_self
      have hbefore : ∀ e ∈ first.map Recovery.error, 0 < e.remaining := by
        rwa [List.forall_mem_map]
      obtain ⟨hbegin, hnote⟩ : [word .BEGIN] <:+ c.kinds ∧ r.error = c.statementsAtEnd := by
        rcases hclear r hmem with hnil | hpos | hbegin
        · exact absurd hnil List.not_mem_nil
        · exact absurd hend (Nat.ne_of_gt hpos)
        · exact hbegin
      have hlate : e.remaining = 0 := hstand.2.trans hzero
      refine ⟨first.map Recovery.error, [c.statementsAtEnd, e], ?_, hbefore, ?_,
        Or.inr ⟨hbegin, e, rfl⟩, hlast _ rfl hlate⟩
      · rw [hsplit, List.map_append, List.map_singleton, hnote, List.append_assoc]
        rfl
      · exact List.forall_mem_cons.2 ⟨rfl, List.forall_mem_singleton.2 hlate⟩

end Cursor

/-! ## Errors of a report

  Put together from the two: the errors at the end are the last ones, and there is at most one, but for
  the exception. -/

/-- The errors of a report that stand at the end of the source are its last ones.  There is at most one
of them, unless the source ends with a `BEGIN`; then the error about statements may stand in front of
it.  If the header of a module was read, the last one says that the footer of this module is missing or
that a bracket is open. -/
theorem readUnit_atEnd (tokens : List Token) (options : Options) :
    let c := Cursor.ofTokens tokens
    ∃ before last : List SyntaxError,
      (c.readUnit options).1.errors = (before ++ last).map .grammatical ∧
      (∀ e ∈ before, e.token.kind ≠ .eof) ∧ (∀ e ∈ last, e.token = c.stop) ∧
      (last.length ≤ 1 ∨ [word .BEGIN] <:+ c.kinds ∧ ∃ e, last = [c.statementsAtEnd, e]) ∧
      ∀ name, Recovering.BeginsModule c.kinds name → ∀ e ∈ last.getLast?,
        e.cause = .missingFooter name.name ∨ e.cause.isUnterminated = true := by
  intro c
  have hstand := c.syntaxErrors_standAt options
  obtain ⟨before, last, herrors, hbefore, hlast, hshort, hsays⟩ := c.syntaxErrors_atEnd options
  rw [herrors] at hstand
  refine ⟨before, last, ?_, fun e he => ?_, fun e he => ?_, hshort, hsays⟩
  · rw [Cursor.readUnit_errors, herrors]
  · obtain ⟨d, hd, hed⟩ := hstand e (List.mem_append_left _ he)
    have hmem : e.token ∈ tokens.takeWhile fun t => !t.kind.isEof :=
      Cursor.token_mem_rest hd hed (hbefore e he)
    have hnot := List.mem_takeWhile_imp hmem
    intro heof
    rw [heof] at hnot
    cases hnot
  · obtain ⟨d, hd, hed⟩ := hstand e (List.mem_append_right _ he)
    exact Cursor.token_eq_stop hd hed (hlast e he)

/-- `MODULE m; BEGIN`, cut off there, has two errors at the end of the source. -/
theorem readUnit_endAfterBegin :
    let tokens := Token.Kind.row 0 [word .MODULE, .name "m", symbol .semicolon, word .BEGIN]
    let c := Cursor.ofTokens tokens
    let footer : SyntaxError := ⟨.missingFooter "m", c.stop, 0, .compilationUnit⟩
    (c.readUnit .default).1.errors = [.grammatical c.statementsAtEnd, .grammatical footer] := by
  intro tokens c footer
  rfl

end Modula

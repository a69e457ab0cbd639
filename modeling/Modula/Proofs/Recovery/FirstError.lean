import Modula.Proofs.Recovery.Limit
/-!
# The first error of a report

  No error is late: what stands in front of the first error of a report is the beginning of a unit that
  is read without error (`readUnit_firstError`).

  1. **Sentences** — no sentence of the grammar has the end of the source inside, so what completes a
     beginning can be written down as a source.
  2. **Readers** — parsers come through sentences, and stop behind the beginning of one (`Tracks`).  What
     a reader that goes on after errors tells first is what the parser at that place told (`Outcome`).
  3. **The footer** — inside a module the error that reading ends with is looked at once more, at the
     place where reading has come to.  That is the place of the error, with one exception: if the source
     ends behind a qualified name that was taken for a tag, and its colon, then the error about the name
     is lost, and the error about the footer, behind the colon, is late
     (`readUnit_qualifiedTagAtEnd`).
-/

namespace Modula

open Token.Kind (word symbol)
open Computability

/-! ## Sentences

  No word of the grammar has the end of the source in it, so that an error at the end is behind all that
  was read. -/

/-- The source does not end within these tokens. -/
def GoesOn (w : List Token.Kind) : Prop := Token.Kind.eof ∉ w

namespace GoesOn

variable {k : Token.Kind} {u v w : List Token.Kind}

theorem nil : GoesOn [] := List.not_mem_nil

theorem one (hk : k ≠ .eof) : GoesOn [k] := fun h => hk (List.mem_singleton.1 h).symm

/-- A sequence does not end the source if its parts do not. -/
theorem append (hu : GoesOn u) (hv : GoesOn v) : GoesOn (u ++ v) :=
  fun h => (List.mem_append.1 h).elim hu hv

/-- A token in front. -/
theorem cons (hk : k ≠ .eof) (hw : GoesOn w) : GoesOn (k :: w) := (one hk).append hw

/-- A phrase between two tokens of its own. -/
theorem brackets {o c : Token.Kind} (ho : o ≠ .eof) (hc : c ≠ .eof) (hw : GoesOn w) :
    GoesOn (o :: (w ++ [c])) := .cons ho (hw.append (.one hc))

end GoesOn

/-- No token that an expression may hold is the end of the source, so expressions go on. -/
theorem goesOn_exprClosed : ExprClosed GoesOn where
  nil := .nil
  append _ _ := .append
  token k hk := by
    refine .one ?_
    rintro rfl
    cases hk
  braces _ hw := .brackets nofun nofun hw
  parentheses _ hw := .brackets nofun nofun hw

section

variable {α : Type} {phrase : Phrase α} {w : List Token.Kind} {l : List α}

/-- A list goes on if its items and its separator do. -/
theorem Separated.goesOn {separator : Token.Kind} (hw : Separated separator phrase w l)
    (hs : separator ≠ .eof) (hp : ∀ ⦃w a⦄, phrase w a → GoesOn w) : GoesOn w :=
  hw.closed (fun _ _ => .append) (.one hs) hp

/-- Phrases one after the other, none of which ends the source. -/
theorem Repeated.goesOn (hw : Repeated phrase w l) (hp : ∀ ⦃w a⦄, phrase w a → GoesOn w) :
    GoesOn w := by
  induction hw with
  | none => exact .nil
  | more ha _ ih => exact (hp ha).append ih

end

section

variable {w : List Token.Kind}

/-- The tokens of flat phrases are known one by one, and the end of the source is none of them. -/
theorem IsSimpleType.goesOn {t : TypeExpr} (hw : IsSimpleType w t) : GoesOn w :=
  fun h => absurd (hw.isFlat _ h) (by decide)

theorem IsFormals.goesOn {f : FormalTypes} (hw : IsFormals w f) : GoesOn w :=
  fun h => absurd (hw.isFlat _ h) (by decide)

/-- A tag consists of names and at most one colon. -/
theorem IsTag.goesOn {t : Option Ident × Qualident} (hw : IsTag w t) : GoesOn w := by
  have hexpr := goesOn_exprClosed
  cases hw with
  | unnamed hw => exact .cons nofun (hexpr.qualident hw)
  | named hu hw => exact (hexpr.ident hu).append (.cons nofun (hexpr.qualident hw))
  | typeOnly hw => exact hexpr.qualident hw

/-- By induction on types, entries, arms and lists of them at once; the end of the source is no token of
their own. -/
theorem IsType.goesOn {t : TypeExpr} (hw : IsType w t) : GoesOn w := by
  have hexpr := goesOn_exprClosed
  refine @IsType.rec (fun w _ _ => GoesOn w) (fun w _ _ => GoesOn w) (fun w _ _ => GoesOn w)
    (fun w _ _ => GoesOn w) (fun w _ _ => GoesOn w) (fun w _ _ => GoesOn w) ?simple ?array ?record
    ?set ?pointer ?procedure ?procedureWith ?one ?last ?more ?fields ?variants ?arm ?none ?some
    ?firstArm ?arms _ _ hw
  case simple => exact fun hw => hw.goesOn
  case array =>
    exact fun hu _ hv => .cons nofun ((hu.goesOn nofun fun _ _ ht => ht.goesOn).append
      (.cons nofun hv))
  case record => exact fun _ hw => .brackets nofun nofun hw
  case set => exact fun hw => .cons nofun (.cons nofun hw.goesOn)
  case pointer => exact fun _ hw => .cons nofun (.cons nofun hw)
  case procedure => exact .one nofun
  case procedureWith => exact fun hw => .cons nofun hw.goesOn
  case last => exact fun _ hw => hw.append (.one nofun)
  case more => exact fun _ _ hu hv => hu.append (.cons nofun hv)
  case fields => exact fun hu _ hv => (hexpr.identList hu).append (.cons nofun hv)
  case variants =>
    exact fun ht _ _ hu hv => .cons nofun (ht.goesOn.append (.cons nofun
      (hu.append (hv.append (.one nofun)))))
  case arm =>
    exact fun hu _ hv => (hu.goesOn nofun fun _ _ => hexpr.element).append (.cons nofun hv)
  case none => exact .nil
  case some => exact fun _ hw => .cons nofun hw
  case arms => exact fun _ _ hu hv => hu.append (.cons nofun hv)
  -- what is left are phrases that consist of one phrase
  all_goals exact fun _ hw => hw

/-- An import ends with a semicolon, not with the source. -/
theorem IsImport.goesOn {i : Import} (hw : IsImport w i) : GoesOn w := by
  have hexpr := goesOn_exprClosed
  cases hw with
  | qualified hw => exact .brackets nofun nofun (hexpr.identList hw)
  | unqualified hu hv =>
    exact .cons nofun ((hexpr.ident hu).append (.brackets nofun nofun (hexpr.identList hv)))

/-- Each item of a section ends with a semicolon. -/
theorem IsSection.goesOn {d : Declaration} (hw : IsSection w d) : GoesOn w := by
  have hexpr := goesOn_exprClosed
  cases hw with
  | constants hw =>
    refine .cons nofun (hw.goesOn ?_)
    intro w i hi
    cases hi with
    | item hu hv => exact (hexpr.ident hu).append (.brackets nofun nofun (hexpr.expr hv))
  | types hw =>
    refine .cons nofun (hw.goesOn ?_)
    intro w i hi
    cases hi with
    | item hu hv => exact (hexpr.ident hu).append (.brackets nofun nofun hv.goesOn)

theorem IsModuleName.goesOn {i : Ident} (hw : IsModuleName w i) : GoesOn w := by
  cases hw with
  | name hw => exact .brackets nofun nofun (goesOn_exprClosed.ident hw)

theorem IsFooter.goesOn {i : Ident} (hw : IsFooter w i) : GoesOn w := by
  cases hw with
  | footer hw => exact .brackets nofun nofun (goesOn_exprClosed.ident hw)

/-- The statements of a block are passed over, and no sentence has any. -/
theorem IsBlock.goesOn {b : Block} (hw : IsBlock w b) : GoesOn w := by
  cases hw with
  | block hu hv =>
    refine (hu.goesOn fun _ _ hd => hd.goesOn).append ?_
    cases hv with
    | none => exact .nil
    | some => exact .one nofun

/-- The source does not end within a compilation unit. -/
theorem IsUnit.goesOn {u : CompilationUnit} (hw : IsUnit w u) : GoesOn w := by
  have himports : ∀ {w : List Token.Kind} {l : List Import}, Repeated IsImport w l → GoesOn w :=
    fun hi => hi.goesOn fun _ _ h => h.goesOn
  cases hw with
  | definition hh hi hd hf =>
    cases hh with
    | header hn =>
      have hsections := hd.goesOn fun _ _ h => h.goesOn
      have hheader : GoesOn _ := .cons (k := word .DEFINITION) nofun hn.goesOn
      exact hheader.append ((himports hi).append (hsections.append hf.goesOn))
  | program hh hi hb hf =>
    refine .append ?_ ((himports hi).append (hb.goesOn.append hf.goesOn))
    cases hh with
    | program hn => exact hn.goesOn
    | implementation hn => exact .cons nofun hn.goesOn

end

/-! ## Readers

  The first error of a reader is the first one of its log, or else the one that it ends with.  Behind the
  first note nothing has to be shown any more. -/

section

variable {L M : Language Token.Kind} {c c₁ c' : Cursor} {e : SyntaxError} {u w : List Token.Kind}

/-- The error is found as soon as it can be: the tokens in front of it begin a word. -/
def Cursor.Finds (L : Language Token.Kind) (c : Cursor) (e : SyntaxError) : Prop :=
  ∃ u d, c.Reaches u d ∧ Begun L u ∧ e.StandsAt d

/-- Reading ends at `c'` with this error.  It was found as soon as it could be, or else what was found was
overrun to the end of the source, and the error is about the footer. -/
def Cursor.EndsWith (L : Language Token.Kind) (c : Cursor) (e : SyntaxError) (c' : Cursor) : Prop :=
  ∃ u d x, c.Reaches u d ∧ Begun L u ∧ d.Reaches x c' ∧ Overruns u x ∧
    (e.StandsAt d ∨ x ≠ [] ∧ c'.atEnd = true ∧ ∃ name, e.cause = .missingFooter name ∧ e.StandsAt c')

/-- Tokens that go in front of every word go in front of the beginning of one. -/
theorem Begun.append_left (hL : ∀ v ∈ M, u ++ v ∈ L) {v : List Token.Kind} (h : Begun M v) :
    Begun L (u ++ v) := by
  obtain ⟨more, hmore⟩ := h
  refine ⟨more, ?_⟩
  rw [List.append_assoc]
  exact hL _ hmore

namespace Cursor

/-- An error found later on is found from the start, if the tokens between fit. -/
theorem Finds.of_reaches (hc : c.Reaches u c₁) (hL : ∀ v ∈ M, u ++ v ∈ L) (h : c₁.Finds M e) :
    c.Finds L e := by
  obtain ⟨v, d, hd, hv, he⟩ := h
  exact ⟨u ++ v, d, hc.trans hd, hv.append_left hL, he⟩

/-- What completes the first part of a sequence is followed by a word of the second part. -/
theorem Finds.mul_left (hw : w ∈ M) (h : c.Finds L e) : c.Finds (L * M) e := by
  obtain ⟨u, d, hd, hu, he⟩ := h
  exact ⟨u, d, hd, hu.mul_left hw, he⟩

/-- The same for the error that reading ends with: what was overrun is as far behind as before. -/
theorem EndsWith.of_reaches (hc : c.Reaches u c₁) (hL : ∀ v ∈ M, u ++ v ∈ L)
    (h : c₁.EndsWith M e c') : c.EndsWith L e c' := by
  obtain ⟨v, d, x, hd, hv, hx, hover, he⟩ := h
  exact ⟨u ++ v, d, x, hc.trans hd, hv.append_left hL, hx, hover.append_left u, he⟩

theorem EndsWith.mul_left (hw : w ∈ M) (h : c.EndsWith L e c') : c.EndsWith (L * M) e c' := by
  obtain ⟨u, d, x, hd, hu, hx⟩ := h
  exact ⟨u, d, x, hd, hu.mul_left hw, hx⟩

/-- Errors of parsers are found in time or overrun just as those of readers. -/
theorem Fails.endsWith (h : c.Fails L e c') : c.EndsWith L e c' := by
  obtain ⟨u, d, x, hd, hu, he, hx, hover, -⟩ := h
  exact ⟨u, d, x, hd, hu, hx, hover, Or.inl he⟩

/-- Where an error is noted at once, it does not matter what was overrun. -/
theorem Fails.finds (h : c.Fails L e c') : c.Finds L e := by
  obtain ⟨u, d, x, hd, hu, he, -⟩ := h
  exact ⟨u, d, hd, hu, he⟩

/-- Inside a module an error at the end of the source is about what is open there. -/
theorem EndsWith.asMissingFooter (name : Ident) (h : c.EndsWith L e c') :
    c.EndsWith L (Recovering.asMissingFooter name e c') c' := by
  obtain ⟨u, d, x, hd, hu, hx, hover, he⟩ := h
  refine ⟨u, d, x, hd, hu, hx, hover, ?_⟩
  unfold Recovering.asMissingFooter
  split
  · exact he
  · next hkeep =>
    obtain ⟨hend, -⟩ := not_or.1 hkeep
    rw [Bool.not_eq_false] at hend
    -- If the error is rewritten, it is about the footer and stands where reading has ended.
    have hlate : ∃ text, (Recovering.outerError c' (.missingFooter name.name)).cause =
        .missingFooter text ∧ (Recovering.outerError c' (.missingFooter name.name)).StandsAt c' :=
      ⟨name.name, rfl, rfl, rfl⟩
    rcases eq_or_ne x [] with rfl | hne
    · -- nothing was overrun, and the error stays where it is
      obtain ⟨hstop, ts, hrest, hts⟩ := hx
      obtain rfl := List.map_eq_nil_iff.1 hts
      rw [List.nil_append] at hrest
      refine Or.inl ⟨?_, congrArg List.length hrest.symm⟩
      show c'.token = d.token
      rw [token, token, hrest, hstop]
    · exact Or.inr ⟨hne, hend, hlate⟩

end Cursor

end

namespace Recovering

variable {α β γ : Type} {L M : Language Token.Kind} {w : List Token.Kind}

/-- A reader that began at `c` with this log has come through a word, or else what it tells first is an
error behind the beginning of one. -/
inductive Outcome (L : Language Token.Kind) (c : Cursor) (log : List Recovery) :
    EStateM.Result SyntaxError Session α → Prop
  | value {a : α} {c' : Cursor} {w : List Token.Kind} :
    w ∈ L → c.Reaches w c' → Outcome L c log (.ok a ⟨c', log⟩)
  | error {e : SyntaxError} {c' : Cursor} :
    c.EndsWith L e c' → Outcome L c log (.error e ⟨c', log⟩)
  | noted {result : EStateM.Result SyntaxError Session α} {r : Recovery} {more : List Recovery} :
    logOf result = log ++ r :: more → c.Finds L r.error → Outcome L c log result

/-- What `Tracks` says about one place. -/
def TracksFrom (p : Recovering α) (L : Language Token.Kind) (c : Cursor) : Prop :=
  ∀ options log, Outcome L c log (p options ⟨c, log⟩)

/-- A reader comes through a word, or else its first error stands behind the beginning of one. -/
def Tracks (p : Recovering α) (L : Language Token.Kind) : Prop := ∀ c, p.TracksFrom L c

namespace Outcome

variable {c c₁ : Cursor} {log : List Recovery} {result : EStateM.Result SyntaxError Session α}

/-- A reader may begin behind tokens that have been read already. -/
theorem of_reaches {u : List Token.Kind} (hc : c.Reaches u c₁) (hL : ∀ v ∈ M, u ++ v ∈ L)
    (h : Outcome M c₁ log result) : Outcome L c log result := by
  cases h with
  | value hv hc' => exact .value (hL _ hv) (hc.trans hc')
  | error he => exact .error (he.of_reaches hc hL)
  | noted hlog hr => exact .noted hlog (hr.of_reaches hc hL)

/-- A larger language has more words and more beginnings. -/
theorem mono (hLM : L ≤ M) (h : Outcome L c log result) : Outcome M c log result :=
  h.of_reaches (.refl c) fun _ hv => hLM hv

/-- The log is only ever added to. -/
theorem grows (h : Outcome L c log result) : log <+: logOf result := by
  cases h with
  | value _ _ => exact List.prefix_refl _
  | error _ => exact List.prefix_refl _
  | noted hlog _ => exact ⟨_, hlog.symm⟩

/-- What was told first stays the first thing. -/
theorem bind {p : Recovering α} {g : α → Recovering β} {options : Options} {s : Session}
    (hp : Outcome L c log (p options s)) (hg : ∀ a, (g a).Tracks M) (hw : w ∈ M) :
    Outcome (L * M) c log ((p >>= g) options s) := by
  rw [bind_apply]
  generalize p options s = result at hp
  cases hp with
  -- the second reader is the first one to tell of an error
  | @value a c₁ u hu hc =>
    exact (hg a c₁ options log).of_reaches hc fun v hv => Language.append_mem_mul hu hv
  -- the first one has ended the reading
  | error he => exact .error (he.mul_left hw)
  -- the first one has noted an error; whatever the second one notes comes later
  | @noted _ r more hlog hr =>
    cases result with
    | error e s₁ => exact .noted hlog (hr.mul_left hw)
    | ok a s₁ =>
      obtain ⟨new, hnew⟩ := (hg a s₁.cursor options s₁.log).grows
      have hall : logOf (g a options s₁) = log ++ r :: (more ++ new) := by
        have hlog' : s₁.log = log ++ r :: more := hlog
        rw [← hnew, hlog', List.append_assoc, List.cons_append]
      exact .noted hall (hr.mul_left hw)

/-- The first error is told before the rewriting of the last one matters, or it is the last one. -/
theorem inside {p : Recovering α} {options : Options} {s : Session} (moduleName : Ident)
    (hp : Outcome L c log (p options s)) : Outcome L c log (inside moduleName p options s) := by
  have hlogs := logOf_inside moduleName p options s
  generalize hrun : p options s = result at hp
  cases hp with
  | value hu hc =>
    rw [inside_of_ok hrun]
    exact .value hu hc
  | error he =>
    rw [inside_of_error hrun]
    exact .error (he.asMissingFooter moduleName)
  | noted hlog hr => exact .noted (by rw [hlogs, hrun, hlog]) hr

end Outcome

section

variable {c : Cursor}

theorem TracksFrom.mono {p : Recovering α} (hp : p.TracksFrom L c) (hLM : L ≤ M) :
    p.TracksFrom M c := fun options log => (hp options log).mono hLM

theorem Tracks.mono {p : Recovering α} (hp : p.Tracks L) (hLM : L ≤ M) : p.Tracks M :=
  fun c => (hp c).mono hLM

/-- The first part and the second one together; there must be a word for the second one to read. -/
theorem TracksFrom.bind {p : Recovering α} {g : α → Recovering β} (hp : p.TracksFrom L c)
    (hg : ∀ a, (g a).Tracks M) (hw : w ∈ M) : (p >>= g).TracksFrom (L * M) c :=
  fun options log => (hp options log).bind hg hw

/-- What is done behind a reader without taking a token does not matter. -/
theorem TracksFrom.bind_one {p : Recovering α} {g : α → Recovering β} (hp : p.TracksFrom L c)
    (hg : ∀ a, (g a).Tracks 1) : (p >>= g).TracksFrom L c := by
  have h := hp.bind hg Language.nil_mem_one
  rwa [mul_one] at h

/-- The same at every place. -/
theorem Tracks.bind {p : Recovering α} {g : α → Recovering β} (hp : p.Tracks L)
    (hg : ∀ a, (g a).Tracks M) (hw : w ∈ M) : (p >>= g).Tracks (L * M) :=
  fun c => (hp c).bind hg hw

/-- What is done behind a reader without taking tokens does not matter. -/
theorem Tracks.bind_one {p : Recovering α} {g : α → Recovering β} (hp : p.Tracks L)
    (hg : ∀ a, (g a).Tracks 1) : (p >>= g).Tracks L := fun c => (hp c).bind_one hg

/-- An error inside a module stays in time, but for what was overrun to the end of the source. -/
theorem Tracks.inside {p : Recovering α} (moduleName : Ident) (hp : p.Tracks L) :
    (inside moduleName p).Tracks L := fun c options log => (hp c options log).inside moduleName

/-! ### Steps

  A note may be the first error of a session, or one error more.  Only in the first case is something to
  be shown. -/

theorem pure_tracks (a : α) : (pure a : Recovering α).Tracks 1 :=
  fun c _ _ => .value rfl (.refl c)

/-- What is done at a look at the cursor is looked at for this cursor. -/
theorem cursor_bind_tracksFrom {g : Cursor → Recovering β} (h : (g c).TracksFrom L c) :
    (cursor >>= g).TracksFrom L c := h

theorem cursor_bind_tracks {g : Cursor → Recovering β} (h : ∀ c, (g c).TracksFrom L c) :
    (cursor >>= g).Tracks L := h

/-- A parser tracks within a session as it does alone, for it notes nothing. -/
theorem run_tracksFrom {construct : Construct} {p : Parser α} (hp : p.TracksFrom L construct c) :
    (run construct p).TracksFrom L c := by
  intro options log
  unfold run
  dsimp only
  cases h : p construct c with
  | ok a c' =>
    obtain ⟨w, hw, hc⟩ := hp.reaches h
    exact .value hw hc
  | error e c' => exact .error (hp.fails h).endsWith

theorem run_tracks {construct : Construct} {p : Parser α} (hp : p.Tracks L) :
    (run construct p).Tracks L := fun c => run_tracksFrom (hp construct c)

/-- What is noted, or what reading ends with. -/
theorem note_outcome {e : SyntaxError} {c' : Cursor} {log : List Recovery} {options : Options}
    (h : c.EndsWith L e c') (hfinds : c.Finds L e) (resumption : Cursor) :
    Outcome L c log (note e resumption options ⟨c', log⟩) := by
  rcases Nat.lt_or_ge (log.length + 1) options.limit with hlt | hge
  · rw [note_of_lt_limit (s := ⟨c', log⟩) hlt]
    exact .noted rfl hfinds
  · rw [note_of_limit_le (s := ⟨c', log⟩) hge]
    exact .error h

end

/-! ### Items and sections

  What is passed over as not supported stands where a sentence could have gone on, so the error about it
  is in time. -/

section

variable {item : Parser α} {phrase : Phrase β} {starts : Token.Kind → Prop} [DecidablePred starts]
  {resume : Cursor → Cursor → Cursor}

/-- No phrase at all is a word of repeated phrases. -/
theorem repeated_nonempty : [] ∈ Phrase.words (Repeated phrase) := ⟨[], .none⟩

/-- One phrase more in front. -/
theorem mul_repeated_le :
    phrase.words * Phrase.words (Repeated phrase) ≤ Phrase.words (Repeated phrase) := by
  rintro _ ⟨u, ⟨a, hu⟩, v, ⟨l, hv⟩, rfl⟩
  exact ⟨a :: l, .more hu hv⟩

/-- By induction on the budget.  A broken item ends the claim: its error is the first one, and it is
found in time since the parser of the item tracks. -/
theorem tryItems_tracks (construct : Construct) (hi : item.Tracks phrase.words) (budget : Nat) :
    (tryItems starts construct item resume budget).Tracks (Phrase.words (Repeated phrase)) := by
  have hnone : (pure [] : Recovering (List α)).Tracks (Phrase.words (Repeated phrase)) :=
    (pure_tracks []).mono (by rintro _ rfl; exact repeated_nonempty)
  induction budget with
  | zero => exact hnone
  | succ budget ih =>
    intro c
    rw [tryItems]
    refine cursor_bind_tracksFrom ?_
    split
    · intro options log
      cases h : item construct c with
      -- The item is one sentence more, in front of what the others come through.
      | ok a c₁ =>
        obtain ⟨u, hu, hc⟩ := (hi construct c).reaches h
        have hmore := (ih c₁).bind_one fun more => pure_tracks (a :: more)
        rw [bind_of_ok (attempt_of_ok h options log)]
        exact (hmore options log).of_reaches hc fun v hv =>
          mul_repeated_le (Language.append_mem_mul hu hv)
      | error e c₁ =>
        -- The error of the item is found in time; it is noted, or reading ends with it.
        have hfails := (hi construct c).fails h
        rw [bind_of_ok (attempt_of_error h options log)]
        dsimp only
        rw [bind_of_ok (cursor_apply options ⟨c₁, log⟩)]
        split
        · have hends : c.EndsWith (phrase.words * Phrase.words (Repeated phrase)) e c₁ :=
            hfails.endsWith.mul_left repeated_nonempty
          exact (Outcome.error hends).mono mul_repeated_le
        · have hnote : Outcome _ c log (note e (resume c c₁) options ⟨c₁, log⟩) :=
            note_outcome hfails.endsWith hfails.finds (resume c c₁)
          exact (hnote.bind (fun _ => ih) repeated_nonempty).mono mul_repeated_le
    · exact hnone c

/-- A section is its keyword and its items. -/
theorem sectionOf_tracksFrom (construct : Construct) (kind : List α → DeclarationKind)
    (hi : item.Tracks phrase.words) {c : Cursor} {k : Token.Kind} (hc : c.kind = k) (hk : k ≠ .eof) :
    (sectionOf construct item kind).TracksFrom
      (oneToken k * Phrase.words (Repeated phrase)) c := by
  have hitems : ∀ budget, (items construct item budget).Tracks (Phrase.words (Repeated phrase)) := by
    intro budget
    rw [items_eq_tryItems]
    exact tryItems_tracks construct hi budget
  refine (run_tracksFrom (Parser.advance_tracksFrom hc hk)).bind (fun head => ?_) repeated_nonempty
  refine cursor_bind_tracks fun c₁ => (hitems _ c₁).bind_one fun items => ?_
  exact (run_tracks Parser.freshId_tracks).bind_one fun id => cursor_bind_tracks fun c₂ =>
    pure_tracks _ c₂

end

theorem allImports_tracks : allImports.Tracks (Phrase.words (Repeated IsImport)) := by
  refine cursor_bind_tracks fun c => ?_
  rw [imports_eq_tryItems]
  exact tryItems_tracks _ Parser.importClause_tracks _ c

/-- A feature that is passed over is noted where it begins, and that is where a word may go on. -/
theorem note_bind_tracksFrom {c : Cursor} {cause : SyntaxError.Cause} {resumption : Cursor}
    {p : Recovering α} (hp : p.Tracks L) (hw : w ∈ L) :
    (do note (outerError c cause) resumption; p).TracksFrom L c := by
  have hbegun : Begun 1 [] := .nil Language.nil_mem_one
  have hfinds : c.Finds 1 (outerError c cause) := ⟨[], c, .refl c, hbegun, rfl, rfl⟩
  have hends : c.EndsWith 1 (outerError c cause) c :=
    ⟨[], c, [], .refl c, hbegun, .refl c, Or.inl rfl, Or.inl ⟨rfl, rfl⟩⟩
  intro options log
  have hnote : Outcome 1 c log (note (outerError c cause) resumption options ⟨c, log⟩) :=
    note_outcome hends hfinds resumption
  have h := hnote.bind (fun _ => hp) hw
  rwa [one_mul] at h

/-- Variables and procedures are told of where they begin, which is behind whole sections. -/
theorem declarations_tracks (inDefinition : Bool) (budget : Nat) :
    (declarations inDefinition budget).Tracks (Phrase.words (Repeated IsSection)) := by
  have hnone : (pure [] : Recovering (List Declaration)).Tracks (Phrase.words (Repeated IsSection)) :=
    (pure_tracks []).mono (by rintro _ rfl; exact repeated_nonempty)
  induction budget with
  | zero => exact hnone
  | succ budget ih =>
    intro c
    rw [declarations]
    refine cursor_bind_tracksFrom ?_
    split
    · next hk =>
      refine .mono ((sectionOf_tracksFrom _ _ Parser.constItem_tracks hk (by decide)).bind (fun d =>
        ih.bind_one fun more => pure_tracks _) repeated_nonempty) ?_
      -- a word, items and further sections are sections
      rintro _ ⟨_, ⟨_, rfl, u, ⟨items, hu⟩, rfl⟩, v, ⟨l, hv⟩, rfl⟩
      exact ⟨_, .more (.constants hu) hv⟩
    · next hk =>
      refine .mono ((sectionOf_tracksFrom _ _ Parser.typeItem_tracks hk (by decide)).bind (fun d =>
        ih.bind_one fun more => pure_tracks _) repeated_nonempty) ?_
      rintro _ ⟨_, ⟨_, rfl, u, ⟨items, hu⟩, rfl⟩, v, ⟨l, hv⟩, rfl⟩
      exact ⟨_, .more (.types hu) hv⟩
    · exact note_bind_tracksFrom ih repeated_nonempty
    · exact note_bind_tracksFrom ih repeated_nonempty
    · exact hnone c

/-- Statements are told of behind `BEGIN`, which may be followed by the footer. -/
theorem body_tracks : body.Tracks IsBody.words := by
  refine cursor_bind_tracks fun c => ?_
  split
  · next hk =>
    have hbody : oneToken (word .BEGIN) ≤ IsBody.words := by
      rintro _ rfl
      exact ⟨_, .some⟩
    have hbegin : (run .compilationUnit Parser.advance).TracksFrom _ c :=
      run_tracksFrom (Parser.advance_tracksFrom hk nofun)
    refine (hbegin.bind_one fun head => cursor_bind_tracks fun c₁ => ?_).mono hbody
    split
    · exact note_bind_tracksFrom (pure_tracks _) Language.nil_mem_one
    · exact pure_tracks _ c₁
  · refine (pure_tracks _ c).mono ?_
    rintro _ rfl
    exact ⟨_, .none⟩

/-- Sections, and then the body. -/
theorem block_tracks : block.Tracks IsBlock.words := by
  refine cursor_bind_tracks fun c => .mono ((declarations_tracks false _ c).bind (fun declarations =>
    body_tracks.bind_one fun body => cursor_bind_tracks fun c₁ => pure_tracks _ c₁) ⟨_, .none⟩) ?_
  rintro _ ⟨u, ⟨l, hu⟩, v, ⟨b, hv⟩, rfl⟩
  exact ⟨_, .block hu hv⟩

/-! ### Modules

  The parts of a module are put together by the product of their languages, the last of which has a word
  always. -/

/-- A module tracks the product of its four parts; the header stands outside of `inside`. -/
theorem moduleOf_tracks {header : Parser α} {name : α → Ident} {middle : Recovering β}
    {make : α → List Import → β → Ident → Span → γ} (hh : header.Tracks L) (hm : middle.Tracks M)
    (hw : w ∈ M) : (moduleOf header name middle make).Tracks
      (L * (Phrase.words (Repeated IsImport) * (M * IsFooter.words))) := by
  have hfooter : [word .END, .name "", symbol .period] ∈ IsFooter.words := ⟨_, .footer (.name "")⟩
  have hmiddle := Language.append_mem_mul hw hfooter
  have hnone : [] ∈ Phrase.words (Repeated IsImport) := repeated_nonempty
  have himports := Language.append_mem_mul hnone hmiddle
  refine cursor_bind_tracks fun c => (run_tracks hh c).bind (fun h => ?_) himports
  refine (allImports_tracks.inside _).bind (fun imports => ?_) hmiddle
  refine (hm.inside _).bind (fun m => ?_) hfooter
  exact ((run_tracks Parser.footer_tracks).inside _).bind_one fun foot =>
    cursor_bind_tracks fun c₁ => pure_tracks _ c₁

/-- The product is contained in the sentences of compilation units. -/
theorem definitionModule_tracks : definitionModule.Tracks IsUnit.words := by
  rw [definitionModule_eq_moduleOf]
  refine .mono (moduleOf_tracks Parser.definitionHeader_tracks
    (cursor_bind_tracks fun c => declarations_tracks true _ c) repeated_nonempty) ?_
  rintro _ ⟨h, ⟨name, hh⟩, _, ⟨i, ⟨imports, hi⟩, _, ⟨d, ⟨l, hd⟩, f, ⟨foot, hf⟩, rfl⟩, rfl⟩, rfl⟩
  exact ⟨_, .definition hh hi hd hf⟩

/-- The same for the two headers that program modules may have. -/
theorem programModule_tracks : programModule.Tracks IsUnit.words := by
  rw [programModule_eq_moduleOf]
  refine .mono (moduleOf_tracks Parser.programHeader_tracks block_tracks ⟨_, .block .none .none⟩) ?_
  rintro _ ⟨h, ⟨⟨isImplementation, name⟩, hh⟩, _, ⟨i, ⟨imports, hi⟩, _,
    ⟨b, ⟨block, hb⟩, f, ⟨foot, hf⟩, rfl⟩, rfl⟩, rfl⟩
  exact ⟨_, .program hh hi hb hf⟩

/-- There is a compilation unit, so that nothing at all begins one. -/
theorem isUnit_nonempty : ∃ w, w ∈ IsUnit.words :=
  ⟨_, _, .program (.program (.name (.name ""))) .none (.block .none .none) (.footer (.name ""))⟩

/-- An error at the first token is in time, whichever kind of unit was meant. -/
theorem anyModule_tracks : anyModule.Tracks IsUnit.words := by
  obtain ⟨w, hw⟩ := isUnit_nonempty
  refine cursor_bind_tracks fun c => ?_
  split
  · exact (definitionModule_tracks c).bind_one fun m => pure_tracks _
  · exact (programModule_tracks c).bind_one fun m => pure_tracks _
  · exact (programModule_tracks c).bind_one fun m => pure_tracks _
  · exact run_tracksFrom (Parser.fail_tracksFrom hw nofun)

/-- What stands behind the unit is found where it begins. -/
theorem unit_tracks : unit.Tracks IsUnit.words := by
  refine anyModule_tracks.bind_one fun u => .bind_one (cursor_bind_tracks fun c => ?_) fun _ =>
    pure_tracks _
  split
  · exact run_tracksFrom (Parser.fail_tracksFrom Language.nil_mem_one nofun)
  · exact pure_tracks _ c

end Recovering

/-! ## The first error of a report

  That the tokens in front of an error begin a sentence is told once more without the grammar: some other
  tokens behind them make a source that is read without errors. -/

/-- The tokens are the beginning of a source that is read without error. -/
def BeginsSound (ks : List Token.Kind) : Prop :=
  ∃ tokens : List Token, ks <+: (Cursor.ofTokens tokens).kinds ∧
    ∀ options, ((Cursor.ofTokens tokens).readUnit options).1.errors = []

/-- The tokens end with a qualified name and a colon, where a tag is read. -/
def EndsWithQualifiedTag (ks : List Token.Kind) : Prop :=
  ∃ u w q, ks = u ++ (w ++ [symbol .colon]) ∧ BeginsSound u ∧ [word .CASE] <:+ u ∧
    IsQualident w q ∧ q.isQualified = true

/-- Every list of kinds can be written down as tokens. -/
theorem Token.Kind.map_row (start : Nat) (ks : List Token.Kind) :
    (Token.Kind.row start ks).map Token.kind = ks := by
  apply List.ext_getElem?
  intro i
  rw [row, List.getElem?_map, List.getElem?_mapIdx, Option.map_map]
  exact congrFun Option.map_id ks[i]?

/-- A sentence of the grammar is read without errors, with whatever limit. -/
theorem Cursor.readUnit_of_isUnit {c : Cursor} {u : CompilationUnit} (hu : IsUnit c.kinds u)
    (options : Options) : (c.readUnit options).1.errors = [] := by
  obtain ⟨t, c', h, -⟩ := Recovering.unit_readsAll hu
  rw [Cursor.readUnit, h options []]
  rfl

/-- And without errors nothing else is read. -/
theorem Cursor.isUnit_of_readUnit {c : Cursor} {options : Options}
    (h : (c.readUnit options).1.errors = []) : ∃ u, IsUnit c.kinds u := by
  have hok : (c.readUnit options).1.isOk = true := List.isEmpty_iff.2 h
  obtain ⟨t, s, hrun, hlog, -⟩ := Cursor.readUnit_isOk hok
  exact ⟨_, Recovering.unit_readsOnly hrun hlog⟩

/-- What begins a sound source begins a sentence, and the sentence, token by token, is a source. -/
theorem beginsSound_iff {ks : List Token.Kind} : BeginsSound ks ↔ Begun IsUnit.words ks := by
  constructor
  · rintro ⟨tokens, ⟨v, hv⟩, hsound⟩
    obtain ⟨u, hu⟩ := Cursor.isUnit_of_readUnit (hsound .default)
    exact ⟨v, u, hv ▸ hu⟩
  · rintro ⟨v, u, hu⟩
    have hkinds := Token.Kind.map_row 0 (ks ++ v)
    have hall : ∀ t ∈ Token.Kind.row 0 (ks ++ v), (!t.kind.isEof) = true := by
      intro t ht
      have hmem : t.kind ∈ ks ++ v := hkinds ▸ List.mem_map_of_mem ht
      cases hk : t.kind with
      | eof => exact absurd (hk ▸ hmem) hu.goesOn
      | _ => rfl
    have hrest : (Cursor.ofTokens (Token.Kind.row 0 (ks ++ v))).kinds = ks ++ v := by
      rw [Cursor.kinds, Cursor.ofTokens, List.takeWhile_eq_self_iff.2 hall, hkinds]
    exact ⟨Token.Kind.row 0 (ks ++ v), ⟨v, hrest.symm⟩,
      Cursor.readUnit_of_isUnit (hrest.symm ▸ hu)⟩

/-- The tokens in front of a place, as they are counted from the end. -/
theorem Cursor.Reaches.take_eq {c d : Cursor} {u : List Token.Kind} (h : c.Reaches u d) :
    c.kinds.take (c.remaining - d.remaining) = u := by
  obtain ⟨-, ts, hrest, rfl⟩ := h
  have hlen : c.remaining - d.remaining = (ts.map Token.kind).length := by
    rw [remaining, remaining, hrest, List.length_append, List.length_map, Nat.add_sub_cancel]
  rw [hlen, kinds, hrest, List.map_append, List.take_left]

/-- The first error of all is told behind the beginning of a unit, or it is about the footer. -/
theorem Cursor.syntaxErrors_head (options : Options) (c : Cursor) :
    ∀ e ∈ (c.syntaxErrors options).head?,
      c.Finds IsUnit.words e ∨ ∃ c', c.EndsWith IsUnit.words e c' := by
  intro e he
  have houtcome := Recovering.unit_tracks c options []
  unfold syntaxErrors at he
  generalize Recovering.unit options ⟨c, []⟩ = result at he houtcome
  cases houtcome with
  | value hw hc => exact absurd he (Option.not_mem_none e)
  -- nothing was noted, so the last error is the first one
  | @error e' c' hends =>
    obtain rfl : e' = e := Option.some.inj he
    exact Or.inr ⟨c', hends⟩
  | @noted _ r more hlog hfinds =>
    -- The first note is the first error, however reading ends.
    rw [List.nil_append] at hlog
    cases result with
    | ok u s =>
      obtain rfl : r.error = e := by
        have hlog' : s.log = r :: more := hlog
        simpa [hlog'] using he
      exact Or.inl hfinds
    | error e' s =>
      obtain rfl : r.error = e := by
        have hlog' : s.log = r :: more := hlog
        simpa [hlog'] using he
      exact Or.inl hfinds

/-- No error is late: the tokens in front of the first error of a report begin a source that is read
without error.  The only exception is an error about the footer, at the end of a source that ends with a
qualified name and a colon in place of a tag. -/
theorem readUnit_firstError (tokens : List Token) (options : Options) {first : Diagnostic}
    (hfirst : first ∈ ((Cursor.ofTokens tokens).readUnit options).1.errors.head?) :
    let c := Cursor.ofTokens tokens
    ∃ e : SyntaxError, first = .grammatical e ∧
      (Cursor.withStop tokens)[c.remaining - e.remaining]? = some e.token ∧
      (BeginsSound (c.kinds.take (c.remaining - e.remaining)) ∨
        e.token = c.stop ∧ (∃ name, e.cause = .missingFooter name) ∧
          EndsWithQualifiedTag c.kinds) := by
  intro c
  -- Tokens are counted from the end, so a place is found from the number of those left.
  have hplace : ∀ {e : SyntaxError} {u : List Token.Kind} {d : Cursor}, c.Reaches u d →
      e.StandsAt d → (Cursor.withStop tokens)[c.remaining - e.remaining]? = some e.token := by
    intro e u d hd he
    have htoken := Cursor.token_at hd.le
    obtain ⟨more, hmore⟩ := Cursor.ofTokens_prefix tokens
    rw [he.1, he.2, ← hmore, List.getElem?_append_left (List.getElem?_eq_some_iff.1 htoken).1]
    exact htoken
  -- Where the error was found in time, what stands in front of it begins a unit.
  have hearly : ∀ {e : SyntaxError}, c.Finds IsUnit.words e →
      (Cursor.withStop tokens)[c.remaining - e.remaining]? = some e.token ∧
        BeginsSound (c.kinds.take (c.remaining - e.remaining)) := by
    rintro e ⟨u, d, hd, hu, he⟩
    refine ⟨hplace hd he, ?_⟩
    rw [he.2, hd.take_eq]
    exact beginsSound_iff.2 hu
  rw [Cursor.readUnit_errors, List.head?_map] at hfirst
  obtain ⟨e, he, rfl⟩ := Option.mem_map.1 hfirst
  refine ⟨e, rfl, ?_⟩
  rcases c.syntaxErrors_head options e he with hfinds | ⟨c', u, d, x, hd, hu, hx, hover, hstands⟩
  · exact ⟨(hearly hfinds).1, Or.inl (hearly hfinds).2⟩
  rcases hstands with hstands | ⟨hne, hend, name, hcause, hstands⟩
  · have hfinds : c.Finds IsUnit.words e := ⟨u, d, hd, hu, hstands⟩
    exact ⟨(hearly hfinds).1, Or.inl (hearly hfinds).2⟩
  · -- the error about the name was overrun
    have hreach := hd.trans hx
    have hnil : c'.rest = [] := by simpa [Cursor.atEnd] using hend
    refine ⟨hplace hreach hstands, Or.inr ⟨?_, ⟨name, hcause⟩, ?_⟩⟩
    · rw [hstands.1, Cursor.token, hnil]
      exact hreach.1
    · obtain ⟨hcase, w, q, rfl, hw, hq⟩ := hover.resolve_left hne
      refine ⟨u, w, q, ?_, beginsSound_iff.2 hu, hcase, hw, hq⟩
      rw [hreach.kinds_eq, Cursor.kinds, hnil, List.map_nil, List.append_nil]

/-- In `MODULE m; CONST =` the first error is about the equals sign. -/
theorem readUnit_firstError_unnamedConstant :
    let tokens := Token.Kind.row 0
      [word .MODULE, .name "m", symbol .semicolon, word .CONST, symbol .equal]
    let c := Cursor.ofTokens tokens
    let errors := (c.readUnit .default).1.errors
    let stray : SyntaxError :=
      ⟨.expected (.kind (word .END)) (symbol .equal), ⟨symbol .equal, ⟨4, 5⟩, 1, 5⟩, 1, .moduleFooter⟩
    errors = [.grammatical stray] ∧ ∃ e : SyntaxError, .grammatical stray = Diagnostic.grammatical e ∧
      (Cursor.withStop tokens)[c.remaining - e.remaining]? = some e.token ∧
      (BeginsSound (c.kinds.take (c.remaining - e.remaining)) ∨
        e.token = c.stop ∧ (∃ name, e.cause = .missingFooter name) ∧
          EndsWithQualifiedTag c.kinds) :=
  ⟨rfl, readUnit_firstError _ .default rfl⟩

/-- `MODULE m; TYPE t = RECORD CASE a.b :` -/
def qualifiedTagAtEnd : List Token.Kind :=
  [word .MODULE, .name "m", symbol .semicolon, word .TYPE, .name "t", symbol .equal, word .RECORD,
    word .CASE, .name "a", symbol .period, .name "b", symbol .colon]

/-- Whatever comes behind these tokens, there is an error about the name in front of the colon. -/
theorem not_beginsSound_qualifiedTagAtEnd : ¬ BeginsSound qualifiedTagAtEnd := by
  rw [beginsSound_iff]
  rintro ⟨v, u, hu⟩
  let token (k : Token.Kind) : Token := ⟨k, .nowhere, 0, 0⟩
  let c : Cursor := ⟨(qualifiedTagAtEnd ++ v).map token, token .eof, 0, 0⟩
  have hkinds : c.kinds = qualifiedTagAtEnd ++ v := by
    rw [Cursor.kinds, List.map_map]
    exact List.map_id _
  have hsound : (c.readUnit .failFast).1.errors = [] := Cursor.readUnit_of_isUnit (hkinds ▸ hu) _
  have herror : ∃ e es, (c.readUnit .failFast).1.errors = e :: es := by
    cases v with
    | nil => exact ⟨_, _, rfl⟩
    | cons k v => exact ⟨_, _, rfl⟩
  obtain ⟨e, es, herror⟩ := herror
  exact List.cons_ne_nil e es (herror.symm.trans hsound)

/-- At the end of such a source the error about the name is lost: reading tells of the footer only, at a
place that no sound source has. -/
theorem readUnit_qualifiedTagAtEnd :
    let c := Cursor.ofTokens (Token.Kind.row 0 qualifiedTagAtEnd)
    let footer : SyntaxError := ⟨.missingFooter "m", c.stop, 0, .compilationUnit⟩
    (c.readUnit .default).1.errors = [.grammatical footer] ∧ ¬ BeginsSound c.kinds :=
  ⟨rfl, not_beginsSound_qualifiedTagAtEnd⟩

end Modula

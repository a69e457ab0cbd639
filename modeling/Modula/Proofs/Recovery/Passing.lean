import Modula.Proofs.Recovery.Broken
import Modula.Proofs.Recovery.Notes
import Modula.Proofs.Recovery.Variables
/-!
# Reading past faults

  A reader of a part of a module passes its faults: with a limit that is large enough it comes to the end
  of the part, and there is one note for each fault, which is about that fault (`Passes`).

  Sound parts are passed because they are read (`Notes.of_readsAll`).  Where an item is tried that is
  broken, the note is about it and reading goes on right behind it (`tryItems_passes`).  A section of
  variables is noted at its beginning, and skipped (`declarations_passes`).  The rest is putting parts
  together.
-/

namespace Modula

namespace Recovering

open Token.Kind (word symbol)

variable {α β γ : Type}

/-- The reading at `c` notes these faults, each of them once, and comes to these tokens. -/
abbrev Passes (p : Recovering α) (c : Cursor) (faults : List Fault) (behind : List Token) : Prop :=
  Notes SyntaxError.IsAbout p c faults behind

/-! ## Items

  One turn of the loop for a sound item and one for a broken one.  What is behind the item is read by
  assumption. -/

section

variable {item : Parser α} {f : α → β} {phrase : Phrase β} {construct : Construct}
  {starts : Token.Kind → Prop} [DecidablePred starts] {resume : Cursor → Cursor → Cursor}
  {broken : (behind tokens : List Token) → Prop}

/-- A sound item is read to its end. -/
theorem attempt_of_sentence (hreads : ∀ n, item.ReadsAll n f phrase fun _ => True)
    (htracks : item.Tracks phrase.words) {c : Cursor} {w behind : List Token} {b : β}
    (hc : c.rest = w ++ behind) (hw : phrase (w.map Token.kind) b) :
    ∃ a c', c'.rest = behind ∧ ∀ options log,
      attempt construct item options ⟨c, log⟩ = .ok (.ok a) ⟨c', log⟩ := by
  obtain ⟨a, c', hrun, -, hc'⟩ := hreads _ construct (Cursor.kinds_of_rest hc) hw le_rfl trivial
  exact ⟨a, c', htracks.rest_eq hrun hc hc', attempt_of_ok hrun⟩

variable {behind rest : List Token} {faults : List Fault} {budget : Nat} {c : Cursor}

theorem tryItems_of_sentence {about : SyntaxError → γ → Prop} {things : List γ}
    (hreads : ∀ n, item.ReadsAll n f phrase fun _ => True) (htracks : item.Tracks phrase.words)
    {w : List Token} {b : β} (hw : phrase (w.map Token.kind) b)
    (hc : c.rest = w ++ rest) (hstart : starts c.kind)
    (hrest : ∀ c', c'.rest = rest →
      Notes about (tryItems starts construct item resume budget) c' things behind) :
    Notes about (tryItems starts construct item resume (budget + 1)) c things behind := by
  obtain ⟨a, c', hc', hrun⟩ := attempt_of_sentence hreads htracks hc hw
  rw [tryItems]
  refine .cursor_bind ?_
  rw [if_pos hstart]
  refine .congr (fun options log => bind_of_ok (hrun options log)) ?_
  exact (hrest c' hc').bind_last fun items c'' hc'' => .pure _ hc''

theorem tryItems_of_broken (hbroken : PassesBroken starts construct item resume broken)
    {w : List Token} (hw : broken rest w) (hc : c.rest = w ++ rest)
    (hrest : ∀ c', c'.rest = rest →
      Passes (tryItems starts construct item resume budget) c' faults behind) :
    Passes (tryItems starts construct item resume (budget + 1)) c (.phrase w rest :: faults)
      behind := by
  obtain ⟨hstart, e, c', hfail, he, hleft, hres⟩ := hbroken hw hc
  have habout : e.IsAbout (.phrase w rest) := he
  -- One round of the loop: the item fails, its error is noted, and the next round is about what is
  -- behind.
  rw [tryItems]
  refine .cursor_bind ?_
  rw [if_pos hstart]
  refine .congr (fun options log => bind_of_ok (attempt_of_error hfail options log)) ?_
  refine .cursor_bind ?_
  rw [hleft, if_neg Bool.false_ne_true]
  exact (Notes.note habout hres).bind fun _ => hrest

/-- Sound and broken items are tried one by one, and the broken ones are noted. -/
theorem tryItems_passes (hreads : ∀ n, item.ReadsAll n f phrase fun _ => True)
    (htracks : item.Tracks phrase.words) (hbegin : Begins starts phrase)
    (hbroken : PassesBroken starts construct item resume broken) {good all : List Token}
    (hpieces : Pieces (TriedPiece phrase broken) behind good all faults)
    (hend : ¬ starts (upcoming (behind.map Token.kind))) (hb : all.length ≤ budget)
    (hc : c.rest = all ++ behind) :
    Passes (tryItems starts construct item resume budget) c faults behind := by
  induction hpieces generalizing budget c with
  | none =>
    cases budget with
    | zero => exact .pure [] hc
    | succ budget =>
      have hstop : ¬ starts c.kind := by
        rwa [Cursor.kind_eq_upcoming, Cursor.kinds, hc]
      rw [tryItems]
      refine .cursor_bind ?_
      rw [if_neg hstop]
      exact .pure [] hc
  | @more g w good all fs faults hpiece _ ih =>
    rw [List.append_assoc] at hc
    rw [List.length_append] at hb
    -- an item begins with a token, so the budget covers what is behind it
    have hstart : starts c.kind ∧ 0 < w.length := by
      cases hpiece with
      | sound hw =>
        obtain ⟨k, ks, hks, hk⟩ := hbegin hw
        have hlen := congrArg List.length hks
        rw [List.length_map, List.length_cons] at hlen
        rw [Cursor.kind_eq_upcoming, Cursor.kinds_of_rest hc, hks]
        exact ⟨hk, by omega⟩
      | broken hw =>
        obtain ⟨hstart, e, c', -, ⟨u, t, v, rfl, -⟩, -⟩ := hbroken hw hc
        rw [List.length_append, List.length_cons]
        exact ⟨hstart, by omega⟩
    obtain ⟨budget, rfl⟩ : ∃ budget', budget = budget' + 1 := ⟨budget - 1, by omega⟩
    have hrest : ∀ c', c'.rest = all ++ behind →
        Passes (tryItems starts construct item resume budget) c' faults behind :=
      fun c' hc' => ih (by omega) hc'
    cases hpiece with
    | sound hw => exact tryItems_of_sentence hreads htracks hw hc hstart.1 hrest
    | broken hw => exact tryItems_of_broken hbroken hw hc hrest

/-! ## Sections

  A section ends in front of a token that begins no item.  Each of the pieces that may follow begins with
  one. -/

theorem sectionOf_passes {kind : List α → DeclarationKind}
    (hreads : ∀ n, item.ReadsAll n f phrase fun _ => True) (htracks : item.Tracks phrase.words)
    (hbegin : Begins (fun k => k.isName = true) phrase)
    (hends : EndsWithSemicolon (fun k => k.isName = true) (fun ks => depthBehind 0 ks = some 0)
      phrase.words)
    {head : Token} {behind good all : List Token} {faults : List Fault}
    (hitems : Pieces (TriedPiece phrase (IsBrokenItem construct item)) behind good all faults)
    (hend : (upcoming (behind.map Token.kind)).isName = false) {c : Cursor}
    (hc : c.rest = head :: (all ++ behind)) :
    Passes (sectionOf construct item kind) c faults behind := by
  have hadvance : c.advance.rest = all ++ behind := by rw [Cursor.rest_advance, hc, List.tail_cons]
  have hpasses := tryItems_passes hreads htracks hbegin (item_passesBroken hends hreads htracks)
    hitems (Bool.eq_false_iff.1 hend) (Cursor.length_le_of_rest hadvance) hadvance
  rw [sectionOf]
  refine .run_bind (Parser.advance_apply _ c) (.cursor_bind ?_)
  rw [items_eq_tryItems]
  -- What is left of the section is the id that it is given, and that takes no token.
  refine hpasses.bind_last fun items c' hc' => ?_
  exact .run_bind (Parser.freshId_apply _ c') (.cursor_bind (.pure _ hc'))

end

theorem not_isName_of_followsSection {k : Token.Kind} (h : FollowsSection k) : k.isName = false := by
  rcases h with h | rfl
  · cases k <;> first | rfl | cases h
  · rfl

theorem followsSection_of_endsSections {k : Token.Kind} (h : EndsSections k) : FollowsSection k := by
  rcases h with rfl | rfl
  · exact Or.inl rfl
  · exact Or.inr rfl

/-- In front of each section, and behind the last one, a section may end. -/
theorem followsSection_of_pieces {behind good all : List Token} {faults : List Fault}
    (h : Pieces SectionPiece behind good all faults)
    (hr : EndsSections (upcoming (behind.map Token.kind))) :
    FollowsSection (upcoming ((all ++ behind).map Token.kind)) := by
  cases h with
  | none => exact followsSection_of_endsSections hr
  | more hpiece _ =>
    cases hpiece with
    | constants hk _ | types hk _ | unsupported hk _ =>
      rw [List.append_assoc, List.cons_append, List.map_cons, upcoming_cons, hk]
      exact Or.inl rfl

/-- A section of variables is noted where it begins, and reading goes on behind it. -/
theorem note_variables_passes {c : Cursor} {head : Token} {w behind : List Token}
    {l : List (IdentList × TypeExpr)} (hc : c.rest = head :: (w ++ behind))
    (hw : Repeated IsVariable (w.map Token.kind) l)
    (hstop : FollowsSection (upcoming (behind.map Token.kind))) :
    Passes (note (outerError c (.notSupported .variableDeclarations)) c.afterVariables) c
      [.unsupported head (w ++ behind)] behind := by
  have habout : (outerError c (.notSupported .variableDeclarations)).IsAbout
      (.unsupported head (w ++ behind)) := by
    show outerError c _ = SyntaxError.ofVariables head (w ++ behind)
    rw [outerError, Cursor.token, Cursor.remaining, hc]
    rfl
  exact .note habout (Cursor.rest_afterVariables hc hw hstop)

/-- Sections are read one by one, or noted if they are not supported. -/
theorem declarations_passes (inDefinition : Bool) {behind good all : List Token}
    {faults : List Fault} (hpieces : Pieces SectionPiece behind good all faults)
    (hr : EndsSections (upcoming (behind.map Token.kind))) {budget : Nat} (hb : all.length ≤ budget)
    {c : Cursor} (hc : c.rest = all ++ behind) :
    Passes (declarations inDefinition budget) c faults behind := by
  induction hpieces generalizing budget c with
  | none => exact declarations_end_notes hr hc
  | @more g w good all fs faults hpiece hpieces ih =>
    have hnext := followsSection_of_pieces hpieces hr
    have hname := not_isName_of_followsSection hnext
    rw [List.append_assoc] at hc
    rw [List.length_append] at hb
    -- a section is not empty, so the budget covers what is behind it
    obtain ⟨budget, rfl, hb'⟩ : ∃ budget', budget = budget' + 1 ∧ all.length ≤ budget' := by
      have hpos : 0 < w.length := by cases hpiece <;> exact Nat.succ_pos _
      exact ⟨budget - 1, by omega, by omega⟩
    have hmore : ∀ c', c'.rest = all ++ behind →
        Passes (declarations inDefinition budget) c' faults behind := fun c' hc' => ih hb' hc'
    cases hpiece with
    | constants hk hitems =>
      refine declarations_constants_notes ((Cursor.kind_of_rest hc).trans hk) ?_ hmore
      exact sectionOf_passes Parser.constItem_readsAll Parser.constItem_tracks isConstItem_begins
        endsWithSemicolon_constItem hitems hname hc
    | types hk hitems =>
      refine declarations_types_notes ((Cursor.kind_of_rest hc).trans hk) ?_ hmore
      exact sectionOf_passes Parser.typeItem_readsAll Parser.typeItem_tracks isTypeItem_begins
        endsWithSemicolon_typeItem hitems hname hc
    | unsupported hk hvars =>
      rw [declarations]
      refine .cursor_bind ?_
      rw [Cursor.kind_of_rest hc, hk]
      exact (note_variables_passes hc hvars hnext).bind fun _ => hmore

/-- A sound section is read, and nothing is noted in it. -/
theorem declarations_section_notes {about : SyntaxError → γ → Prop} {things : List γ}
    {inDefinition : Bool} {budget : Nat} {c : Cursor} {w rest behind : List Token} {d : Declaration}
    (hw : IsSection (w.map Token.kind) d) (hname : (upcoming (rest.map Token.kind)).isName = false)
    (hc : c.rest = w ++ rest)
    (hrest : ∀ c', c'.rest = rest → Notes about (declarations inDefinition budget) c' things behind) :
    Notes about (declarations inDefinition (budget + 1)) c things behind := by
  generalize hks : w.map Token.kind = ks at hw
  -- A sound section makes no note, whichever of the two it is.
  cases hw with
  | constants hitems =>
    obtain ⟨head, w, rfl, hk, rfl⟩ := List.map_eq_cons_iff.1 hks
    have hfirst : Passes (sectionOf .constDeclaration Parser.constItem .constants) c [] rest :=
      sectionOf_passes Parser.constItem_readsAll Parser.constItem_tracks isConstItem_begins
        endsWithSemicolon_constItem hitems.pieces hname hc
    exact declarations_constants_notes ((Cursor.kind_of_rest hc).trans hk) hfirst.of_nothing hrest
  | types hitems =>
    obtain ⟨head, w, rfl, hk, rfl⟩ := List.map_eq_cons_iff.1 hks
    have hfirst : Passes (sectionOf .typeDeclaration Parser.typeItem .types) c [] rest :=
      sectionOf_passes Parser.typeItem_readsAll Parser.typeItem_tracks isTypeItem_begins
        endsWithSemicolon_typeItem hitems.pieces hname hc
    exact declarations_types_notes ((Cursor.kind_of_rest hc).trans hk) hfirst.of_nothing hrest

/-! ## Modules

  The parts of a module are read one up to the other, with the faults in each. -/

section

variable {f : List Token} {foot : Ident}

theorem isFooter_next (hf : IsFooter (f.map Token.kind) foot) :
    upcoming (f.map Token.kind) = word .END := by
  have hend := isFooter_upcoming hf []
  rwa [List.append_nil] at hend

theorem endsSections_of_isFooter (hf : IsFooter (f.map Token.kind) foot) :
    EndsSections (upcoming (f.map Token.kind)) := Or.inr (isFooter_next hf)

theorem endsSections_of_isBody {b : List Token} {place : Option Span}
    (hb : IsBody (b.map Token.kind) place) (hf : IsFooter (f.map Token.kind) foot) :
    EndsSections (upcoming ((b ++ f).map Token.kind)) := by
  rw [List.map_append]
  generalize b.map Token.kind = ks at hb
  cases hb with
  | none => exact endsSections_of_isFooter hf
  | some => exact Or.inl rfl

end

theorem allImports_passes {behind good all : List Token} {faults : List Fault}
    (hpieces : Pieces (TriedPiece IsImport IsBrokenImport) behind good all faults)
    (hr : FollowsSection (upcoming (behind.map Token.kind))) {c : Cursor} (hc : c.rest = all ++ behind) :
    Passes allImports c faults behind := by
  have hend : ¬ (upcoming (behind.map Token.kind) = word .IMPORT ∨
      upcoming (behind.map Token.kind) = word .FROM) := by
    rintro (h | h) <;> rw [h] at hr <;> rcases hr with hr | hr <;> cases hr
  rw [allImports]
  refine .cursor_bind ?_
  rw [imports_eq_tryItems]
  exact tryItems_passes Parser.importClause_readsAll Parser.importClause_tracks isImport_begins
    importClause_passesBroken hpieces hend (Cursor.length_le_of_rest hc) hc

theorem allDeclarations_passes {behind good all : List Token} {faults : List Fault}
    (hpieces : Pieces SectionPiece behind good all faults)
    (hr : EndsSections (upcoming (behind.map Token.kind))) {c : Cursor}
    (hc : c.rest = all ++ behind) : Passes allDeclarations c faults behind :=
  .cursor_bind (declarations_passes true hpieces hr (Cursor.length_le_of_rest hc) hc)

theorem block_passes {gs s b f : List Token} {faults : List Fault} {place : Option Span} {foot : Ident}
    (hs : Pieces SectionPiece (b ++ f) gs s faults) (hb : IsBody (b.map Token.kind) place)
    (hf : IsFooter (f.map Token.kind) foot) {c : Cursor} (hc : c.rest = s ++ (b ++ f)) :
    Passes block c faults f := by
  have hdeclarations := declarations_passes false hs (endsSections_of_isBody hb hf)
    (Cursor.length_le_of_rest hc) hc
  have hblock := block_notes_of_parts hdeclarations fun c' hc' =>
    .of_readsAll body_readsAll body_steady hc' hb (isFooter_next hf)
  rwa [List.append_nil] at hblock

/-! ## Compilation units -/

/-- A compilation unit is read to its end, whatever its faults. -/
theorem unit_passes {good : List Token} {faults : List Fault} {c : Cursor}
    (h : Spoiled good c.rest faults) : Passes unit c faults [] := by
  generalize hc : c.rest = all at h
  cases h with
  | definition hh hi hs hf =>
    have hend := endsSections_of_isFooter hf
    exact unit_notes_of_definition hh
      (fun _ => allImports_passes hi (followsSection_of_pieces hs hend))
      (fun _ => allDeclarations_passes hs hend) hf hc
  | @program h _ i _ s b f fi fs _ _ _ hh hi hs hb hf =>
    have hnext := followsSection_of_pieces hs (endsSections_of_isBody hb hf)
    -- the sections and the body are one part of the module
    have hblock := fun c => block_passes (c := c) hs hb hf
    have hparts : c.rest = h ++ (i ++ ((s ++ b) ++ f)) := by rw [hc, List.append_assoc s]
    rw [← List.append_assoc] at hi hnext hblock
    exact unit_notes_of_program hh (fun _ => allImports_passes hi hnext) hblock hf hparts

end Recovering

end Modula

import Modula.Proofs.Recovery.Features
import Modula.Proofs.Recovery.OpenType
/-!
# One error for a forgotten `END`

  When an `END` of a type is forgotten, reading finds out about it at the next declaration: the semicolon
  behind the type is read as one between fields, and no field begins like a declaration.  The record that
  is still open there is the outermost one of the type, whichever `END` was forgotten.  So there is one
  error, which is about that record, and reading goes on with the declaration where it stands: nothing is
  skipped, and no other declaration is lost (`readUnit_forgottenEnd`).

  The type is described by the grammar (`IsOpenType`), and what stands around its declaration by
  `UnitAround`.  That covers all declarations of types in sources without errors
  (`Cursor.exists_unitAround`), and nothing else (`Cursor.exists_unit_of_unitAround`).
-/

namespace Modula

open Token.Kind (word symbol)

/-! ## Around a declaration of a type -/

/-- What stands in front of a declaration of a type and behind it, as far as the sections reach. -/
inductive SectionsAround : (before behind : List Token) → Prop
  | types {s a b s' : List Token} {head : Token} {sections sections' : List Declaration}
    {items items' : List TypeItem} :
    Repeated IsSection (s.map Token.kind) sections → head.kind = word .TYPE →
    Repeated IsTypeItem (a.map Token.kind) items → Repeated IsTypeItem (b.map Token.kind) items' →
    Repeated IsSection (s'.map Token.kind) sections' → SectionsAround (s ++ head :: a) (b ++ s')

/-- What stands in front of a declaration of a type and behind it, in a compilation unit. -/
inductive UnitAround : (before behind : List Token) → Prop
  | definition {h i s s' f : List Token} {name foot : Ident} {imports : List Import} :
    IsDefinitionHeader (h.map Token.kind) name → Repeated IsImport (i.map Token.kind) imports →
    SectionsAround s s' → IsFooter (f.map Token.kind) foot → UnitAround (h ++ (i ++ s)) (s' ++ f)
  | program {h i s s' b f : List Token} {header : Bool × Ident} {foot : Ident} {imports : List Import}
    {place : Option Span} :
    IsProgramHeader (h.map Token.kind) header → Repeated IsImport (i.map Token.kind) imports →
    SectionsAround s s' → IsBody (b.map Token.kind) place → IsFooter (f.map Token.kind) foot →
      UnitAround (h ++ (i ++ s)) (s' ++ (b ++ f))

section

variable {α : Type} {phrase : Phrase α} {u v w : List Token.Kind} {l l' : List α}

theorem Repeated.append (hu : Repeated phrase u l) (hv : Repeated phrase v l') :
    Repeated phrase (u ++ v) (l ++ l') := by
  induction hu with
  | none => exact hv
  | more ha _ ih =>
    rw [List.append_assoc]
    exact .more ha ih

/-- Each of the things that sentences stand for has its own sentence, with the others around it. -/
theorem Repeated.exists_around {tokens : List Token} (h : Repeated phrase (tokens.map Token.kind) l)
    {a : α} (ha : a ∈ l) : ∃ us ws vs front back, tokens = us ++ (ws ++ vs) ∧
      Repeated phrase (us.map Token.kind) front ∧ phrase (ws.map Token.kind) a ∧
      Repeated phrase (vs.map Token.kind) back := by
  generalize hks : tokens.map Token.kind = ks at h
  induction h generalizing tokens with
  | none => cases ha
  | @more _ _ b _ hb hl ih =>
    obtain ⟨us, vs, rfl, rfl, rfl⟩ := List.map_eq_append_iff.1 hks
    rcases List.mem_cons.1 ha with rfl | ha
    · exact ⟨[], us, vs, [], _, rfl, .none, hb, hl⟩
    · obtain ⟨us', ws, vs', front, back, rfl, hfront, hw, hback⟩ := ih ha rfl
      refine ⟨us ++ us', ws, vs', b :: front, back, by simp, ?_, hw, hback⟩
      rw [List.map_append]
      exact .more hb hfront

end

section

variable {before item behind w : List Token} {i : TypeItem}

/-- With a declaration of a type in their middle, these are sections. -/
theorem SectionsAround.sections (h : SectionsAround before behind)
    (hi : IsTypeItem (item.map Token.kind) i) :
    ∃ l, Repeated IsSection ((before ++ (item ++ behind)).map Token.kind) l := by
  cases h with
  | types hs hhead ha hb hs' =>
    have hsections := hs.append (.more (.types (ha.append (.more hi hb))) hs')
    exact ⟨_, by simpa [hhead] using hsections⟩

/-- With a declaration of a type in its middle, this is a compilation unit. -/
theorem UnitAround.isUnit (h : UnitAround before behind) (hi : IsTypeItem (item.map Token.kind) i) :
    ∃ u, IsUnit ((before ++ (item ++ behind)).map Token.kind) u := by
  cases h with
  | definition hh himports hs hf =>
    obtain ⟨sections, hs⟩ := hs.sections hi
    have hunit := IsUnit.definition hh himports hs hf
    exact ⟨_, by simpa using hunit⟩
  | program hh himports hs hb hf =>
    obtain ⟨sections, hs⟩ := hs.sections hi
    have hunit := IsUnit.program hh himports (.block hs hb) hf
    exact ⟨_, by simpa using hunit⟩

theorem SectionsAround.exists_of_sections {l : List Declaration}
    (h : Repeated IsSection (w.map Token.kind) l) {d : Declaration} {items : List TypeItem}
    (hd : d ∈ l) (hkind : d.kind = .types items) (hi : i ∈ items) :
    ∃ before item behind, w = before ++ (item ++ behind) ∧ SectionsAround before behind ∧
      IsTypeItem (item.map Token.kind) i := by
  obtain ⟨s, x, s', front, back, rfl, hs, hx, hs'⟩ := h.exists_around hd
  generalize hks : x.map Token.kind = ks at hx
  cases hx with
  | constants _ => cases hkind
  | types hitems =>
    cases hkind
    obtain ⟨head, x, rfl, hhead, rfl⟩ := List.map_eq_cons_iff.1 hks
    obtain ⟨a, item, b, _, _, rfl, ha, hitem, hb⟩ := hitems.exists_around hi
    exact ⟨s ++ head :: a, item, b ++ s', by simp, .types hs hhead ha hb hs', hitem⟩

/-- Every declaration of a type in a compilation unit has such surroundings. -/
theorem UnitAround.exists_of_isUnit {u : CompilationUnit} (h : IsUnit (w.map Token.kind) u)
    {d : Declaration} {items : List TypeItem} (hd : d ∈ u.declarations)
    (hkind : d.kind = .types items) (hi : i ∈ items) :
    ∃ before item behind, w = before ++ (item ++ behind) ∧ UnitAround before behind ∧
      IsTypeItem (item.map Token.kind) i := by
  generalize hks : w.map Token.kind = ks at h
  -- The tokens are divided where the sentence is, down to the list of sections.
  cases h with
  | definition hh himports hs hf =>
    obtain ⟨h, w₁, rfl, rfl, hw₁⟩ := List.map_eq_append_iff.1 hks
    obtain ⟨i, w₂, rfl, rfl, hw₂⟩ := List.map_eq_append_iff.1 hw₁
    obtain ⟨s, f, rfl, rfl, rfl⟩ := List.map_eq_append_iff.1 hw₂
    obtain ⟨before, item, behind, rfl, hs, hitem⟩ := SectionsAround.exists_of_sections hs hd hkind hi
    exact ⟨_, item, _, by simp, .definition hh himports hs hf, hitem⟩
  | program hh himports hb hf =>
    obtain ⟨h, w₁, rfl, rfl, hw₁⟩ := List.map_eq_append_iff.1 hks
    obtain ⟨i, w₂, rfl, rfl, hw₂⟩ := List.map_eq_append_iff.1 hw₁
    obtain ⟨w₃, f, rfl, hw₃, rfl⟩ := List.map_eq_append_iff.1 hw₂
    cases hb with
    | block hs hbody =>
      obtain ⟨s, b, rfl, rfl, rfl⟩ := List.map_eq_append_iff.1 hw₃
      obtain ⟨before, item, behind, rfl, hs, hitem⟩ :=
        SectionsAround.exists_of_sections hs hd hkind hi
      exact ⟨_, item, _, by simp, .program hh himports hs hbody hf, hitem⟩

end

/-- Every declaration of a type in a source without errors has such surroundings. -/
theorem Cursor.exists_unitAround {c : Cursor} {options : Options} {t : CompilationUnit}
    (h : (c.readUnit options).1.unit = some t) {d : Declaration} {items : List TypeItem} {i : TypeItem}
    (hd : d ∈ t.declarations) (hkind : d.kind = .types items) (hi : i ∈ items) :
    ∃ before item behind, c.rest = before ++ (item ++ behind) ∧ UnitAround before behind ∧
      IsTypeItem (item.map Token.kind) (i.relabel .forget) := by
  -- There is a tree only if there is no error.
  have hok : (c.readUnit options).1.isOk = true := by
    by_contra hno
    obtain ⟨errors, herrors⟩ := readUnit_eq_ofErrors hno
    rw [herrors] at h
    cases h
  obtain ⟨t', s, hrun, hlog, hreport⟩ := readUnit_isOk hok
  obtain rfl : t' = t := Option.some.inj ((congrArg Report.unit hreport).symm.trans h)
  have hunit : IsUnit c.kinds (t'.relabel .forget) := Recovering.unit_readsOnly hrun hlog
  -- What is said about the tree holds of its bare form, which the grammar tells of.
  have hd' : d.relabel .forget ∈ (t'.relabel .forget).declarations := by
    cases t' <;> exact List.mem_map_of_mem hd
  have hkind' : (d.relabel .forget).kind = .types (items.map (TypeItem.relabel .forget)) := by
    rw [Declaration.relabel, hkind]
    rfl
  exact UnitAround.exists_of_isUnit hunit hd' hkind' (List.mem_map_of_mem hi)

/-- And what has such surroundings is a source without errors. -/
theorem Cursor.exists_unit_of_unitAround {c : Cursor} {before item behind : List Token} {i : TypeItem}
    (h : UnitAround before behind) (hi : IsTypeItem (item.map Token.kind) i)
    (hc : c.rest = before ++ (item ++ behind)) (options : Options) :
    ∃ t, (c.readUnit options).1.unit = some t := by
  obtain ⟨u, hu⟩ := h.isUnit hi
  have hkinds : IsUnit c.kinds u := by rwa [Cursor.kinds, hc]
  obtain ⟨t, c', hrun, -⟩ := Recovering.unit_readsAll hkinds
  refine ⟨t, ?_⟩
  rw [readUnit, hrun options []]
  rfl

/-! ## Going on in place -/

/-- A declaration of a type that goes wrong, with this error, in front of another declaration. -/
structure GoesWrong (e : SyntaxError) (item behind : List Token) : Prop where
  begins : (upcoming (item.map Token.kind)).isName = true
  next : BeginsDeclaration (behind.map Token.kind)
  error : ∀ c : Cursor, c.rest = item ++ behind → ∃ c',
    Parser.typeItem .typeDeclaration c = .error e c' ∧ c'.rest = behind

/-- In front of sections neither an item nor an import is to be read. -/
theorem endsItems_of_sections {u v : List Token.Kind} {l : List Declaration}
    (hu : Repeated IsSection u l) (hv : EndsItems (upcoming v)) : EndsItems (upcoming (u ++ v)) := by
  cases hu with
  | none => exact hv
  | more hs _ =>
    obtain ⟨k, w, rfl, rfl | rfl⟩ := isSection_begins hs <;> exact ⟨rfl, nofun, nofun⟩

/-- Nor in front of those around a declaration of a type, whatever stands behind them. -/
theorem SectionsAround.endsItems {before behind : List Token} (h : SectionsAround before behind)
    (rest : List Token) : EndsItems (upcoming ((before ++ rest).map Token.kind)) := by
  cases h with
  | types hs hhead _ _ _ =>
    rw [List.append_assoc, List.map_append]
    refine endsItems_of_sections hs ?_
    rw [List.cons_append, List.map_cons, upcoming_cons, hhead]
    exact ⟨rfl, nofun, nofun⟩

namespace Recovering

section

variable {α β φ : Type} {about : SyntaxError → φ → Prop} {things : List φ} {c : Cursor}
  {tokens rest behind : List Token} {budget : Nat}

/-- Sound items are read one by one, up to what is told about the items behind them. -/
theorem tryItems_of_repeated {item : Parser α} {f : α → β} {phrase : Phrase β} {construct : Construct}
    {starts : Token.Kind → Prop} [DecidablePred starts] {resume : Cursor → Cursor → Cursor}
    (hreads : ∀ n, item.ReadsAll n f phrase fun _ => True) (htracks : item.Tracks phrase.words)
    (hbegin : Begins starts phrase) {l : List β} (hl : Repeated phrase (tokens.map Token.kind) l)
    (hrest : ∀ budget c', c'.remaining ≤ budget → c'.rest = rest →
      Notes about (tryItems starts construct item resume budget) c' things behind)
    (hb : c.remaining ≤ budget) (hc : c.rest = tokens ++ rest) :
    Notes about (tryItems starts construct item resume budget) c things behind := by
  generalize hks : tokens.map Token.kind = ks at hl
  -- By induction on the items in front.
  induction hl generalizing tokens budget c with
  | none =>
    obtain rfl := List.map_eq_nil_iff.1 hks
    exact hrest budget c hb hc
  | more hu _ ih =>
    obtain ⟨us, vs, rfl, rfl, rfl⟩ := List.map_eq_append_iff.1 hks
    obtain ⟨k, ks, hkinds, hk⟩ := hbegin hu
    have hlen := congrArg List.length hkinds
    rw [List.length_map, List.length_cons] at hlen
    rw [List.append_assoc] at hc
    rw [Cursor.remaining, hc, List.length_append] at hb
    -- An item takes a token, so there is budget left for it.
    obtain ⟨budget, rfl⟩ : ∃ budget', budget = budget' + 1 := ⟨budget - 1, by omega⟩
    have hstart : starts c.kind := by
      rwa [Cursor.kind_eq_upcoming, Cursor.kinds_of_rest hc, hkinds]
    refine tryItems_of_sentence hreads htracks hu hc hstart fun c' hc' => ih ?_ hc' rfl
    rw [Cursor.remaining, hc']
    omega

/-- Sound sections are read one by one, up to what is told about the sections behind them. -/
theorem declarations_of_sections {inDefinition : Bool} {l : List Declaration}
    (hl : Repeated IsSection (tokens.map Token.kind) l)
    (hnext : EndsItems (upcoming (rest.map Token.kind)))
    (hrest : ∀ budget c', c'.remaining ≤ budget → c'.rest = rest →
      Notes about (declarations inDefinition budget) c' things behind)
    (hb : c.remaining ≤ budget) (hc : c.rest = tokens ++ rest) :
    Notes about (declarations inDefinition budget) c things behind := by
  generalize hks : tokens.map Token.kind = ks at hl
  -- By induction on the sections in front.
  induction hl generalizing tokens budget c with
  | none =>
    obtain rfl := List.map_eq_nil_iff.1 hks
    exact hrest budget c hb hc
  | more hs hmore ih =>
    obtain ⟨us, vs, rfl, rfl, rfl⟩ := List.map_eq_append_iff.1 hks
    obtain ⟨k, ks, hkinds, -⟩ := isSection_begins hs
    have hlen := congrArg List.length hkinds
    rw [List.length_map, List.length_cons] at hlen
    rw [List.append_assoc] at hc
    rw [Cursor.remaining, hc, List.length_append] at hb
    obtain ⟨budget, rfl⟩ : ∃ budget', budget = budget' + 1 := ⟨budget - 1, by omega⟩
    -- A section ends where the next one begins.
    obtain ⟨hname, -⟩ := endsItems_of_sections hmore hnext
    rw [← List.map_append] at hname
    refine declarations_section_notes hs hname hc fun c' hc' => ih ?_ hc' rfl
    rw [Cursor.remaining, hc']
    omega

end

variable {c : Cursor} {e : SyntaxError} {item behind : List Token}

/-- Where a declaration begins behind the one that goes wrong, reading goes on there. -/
theorem tryItems_of_goesWrong {errors : List SyntaxError} {rest : List Token} {budget : Nat}
    (h : GoesWrong e item rest)
    (hrest : ∀ budget d, d.remaining ≤ budget → d.rest = rest →
      NotesOnly (tryItems (fun k => k.isName = true) .typeDeclaration Parser.typeItem Cursor.resume
        budget) d errors behind)
    (hb : c.remaining ≤ budget) (hc : c.rest = item ++ rest) :
    NotesOnly (tryItems (fun k => k.isName = true) .typeDeclaration Parser.typeItem Cursor.resume
      budget) c (e :: errors) behind := by
  obtain ⟨c', herror, hc'⟩ := h.error c hc
  obtain ⟨head, tail, rfl⟩ : ∃ head tail, item = head :: tail := by
    cases item with
    | nil => exact absurd h.begins Bool.false_ne_true
    | cons head tail => exact ⟨head, tail, rfl⟩
  -- The item has taken tokens, so reading has come further than where it began.
  have hlt : rest.length < c.remaining := by
    rw [Cursor.remaining, hc, List.length_append, List.length_cons]
    omega
  have hname : c.kind.isName = true := by
    rw [Cursor.kind_of_rest hc]
    exact h.begins
  have hbegins : c'.beginsDeclaration = true :=
    BeginsDeclaration.beginsDeclaration (by rw [Cursor.kinds, hc']; exact h.next)
  -- A declaration begins where the item has failed, and so reading goes on right there.
  have hresume : c.resume c' = c' := by
    refine if_neg ?_
    rintro (heq | hfalse)
    · rw [← heq, Cursor.remaining, hc'] at hlt
      exact Nat.lt_irrefl _ hlt
    · exact Bool.false_ne_true (hfalse.symm.trans hbegins)
  -- That a declaration begins there also means that it is not the end of the source.
  have hend : c'.atEnd = false := by
    refine Cursor.atEnd_of_kind fun heof => ?_
    rw [Cursor.beginsDeclaration, heof] at hbegins
    cases hbegins
  obtain ⟨budget, rfl⟩ : ∃ budget', budget = budget' + 1 := ⟨budget - 1, by omega⟩
  -- One round of the loop: the item is tried, its error is noted, and the others follow.
  rw [tryItems]
  refine .cursor_bind ?_
  rw [if_pos hname]
  refine .congr (fun options log => bind_of_ok (attempt_of_error herror options log)) ?_
  refine .cursor_bind ?_
  rw [hend, if_neg Bool.false_ne_true, hresume]
  refine (Notes.note rfl hc').bind fun _ d hd => hrest budget d ?_ hd
  rw [Cursor.remaining, hd]
  omega

/-- A section of types in which one declaration goes wrong. -/
theorem sectionOf_of_goesWrong {head : Token} {a b : List Token} {items items' : List TypeItem}
    (ha : Repeated IsTypeItem (a.map Token.kind) items) (h : GoesWrong e item (b ++ behind))
    (hb : Repeated IsTypeItem (b.map Token.kind) items')
    (hbehind : EndsItems (upcoming (behind.map Token.kind)))
    (hc : c.rest = head :: (a ++ (item ++ (b ++ behind)))) :
    NotesOnly (sectionOf .typeDeclaration Parser.typeItem .types) c [e] behind := by
  have hadvance : c.advance.rest = a ++ (item ++ (b ++ behind)) := by
    rw [Cursor.rest_advance, hc, List.tail_cons]
  -- Behind the broken item all are sound, and nothing is noted for them.
  have hmore : ∀ budget d, d.remaining ≤ budget → d.rest = b ++ behind →
      NotesOnly (tryItems (fun k => k.isName = true) .typeDeclaration Parser.typeItem Cursor.resume
        budget) d [] behind := by
    intro budget d hlen hd
    exact (tryItems_passes Parser.typeItem_readsAll Parser.typeItem_tracks isTypeItem_begins
      (item_passesBroken endsWithSemicolon_typeItem Parser.typeItem_readsAll Parser.typeItem_tracks)
      hb.pieces (Bool.eq_false_iff.1 hbehind.1) ((Cursor.length_le_of_rest hd).trans hlen) hd).of_nothing
  -- In front of it all are sound too.
  have hitems : NotesOnly (tryItems (fun k => k.isName = true) .typeDeclaration Parser.typeItem
      Cursor.resume c.advance.remaining) c.advance [e] behind :=
    tryItems_of_repeated Parser.typeItem_readsAll Parser.typeItem_tracks isTypeItem_begins ha
      (fun _ _ => tryItems_of_goesWrong h hmore) le_rfl hadvance
  rw [sectionOf]
  refine .run_bind (Parser.advance_apply _ c) (.cursor_bind ?_)
  rw [items_eq_tryItems]
  refine hitems.bind_last fun items c' hc' => ?_
  exact .run_bind (Parser.freshId_apply _ c') (.cursor_bind (.pure _ hc'))

/-- Sections of which one declaration goes wrong. -/
theorem declarations_of_goesWrong {inDefinition : Bool} {before after : List Token} {budget : Nat}
    (haround : SectionsAround before after) (h : GoesWrong e item (after ++ behind))
    (hbehind : EndsSections (upcoming (behind.map Token.kind))) (hb : c.remaining ≤ budget)
    (hc : c.rest = before ++ (item ++ (after ++ behind))) :
    NotesOnly (declarations inDefinition budget) c [e] behind := by
  cases haround with
  | @types s a b s' head _ _ _ _ hs hhead ha hitems hs' =>
    rw [List.append_assoc] at hc
    rw [List.append_assoc] at h hc
    have hnext : EndsItems (upcoming ((s' ++ behind).map Token.kind)) := by
      rw [List.map_append]
      exact endsItems_of_sections hs' (endsItems_of_endsSections hbehind)
    refine declarations_of_sections hs ?_ (fun budget d hlen hd => ?_) hb hc
    · rw [List.cons_append, List.map_cons, upcoming_cons, hhead]
      exact ⟨rfl, nofun, nofun⟩
    -- The round for this section leaves budget for those behind it.
    · have hlong : (s' ++ behind).length < d.remaining := by
        rw [Cursor.remaining, hd]
        simp only [List.length_append, List.length_cons]
        omega
      obtain ⟨budget, rfl⟩ : ∃ budget', budget = budget' + 1 := ⟨budget - 1, by omega⟩
      refine declarations_types_notes ((Cursor.kind_of_rest hd).trans hhead)
        (sectionOf_of_goesWrong ha h hitems hnext hd) fun d' hd' => ?_
      refine declarations_of_sections hs' (endsItems_of_endsSections hbehind)
        (fun _ _ _ => declarations_end_notes hbehind) ?_ hd'
      rw [Cursor.remaining, hd']
      omega

/-- A compilation unit of which one declaration goes wrong. -/
theorem unit_of_goesWrong {before after : List Token} (haround : UnitAround before after)
    (h : GoesWrong e item after) (hc : c.rest = before ++ (item ++ after)) : NotesOnly unit c [e] [] := by
  cases haround with
  | @definition head i s s' f _ _ _ hh hi hs hf =>
    have hend := endsSections_of_isFooter hf
    have himports : EndsItems (upcoming (((s ++ (item ++ s')) ++ f).map Token.kind)) := by
      rw [List.append_assoc]
      exact hs.endsItems _
    have hparts : c.rest = head ++ (i ++ ((s ++ (item ++ s')) ++ f)) := by simp [hc]
    have hunit : NotesOnly unit c ([] ++ [e]) [] := by
      refine unit_notes_of_definition hh (fun _ => allImports_notes hi himports) (fun c hc => ?_) hf
        hparts
      exact .cursor_bind (declarations_of_goesWrong hs h hend le_rfl (by simp [hc]))
    exact hunit
  | @program head i s s' b f _ _ _ _ hh hi hs hb hf =>
    have hend := endsSections_of_isBody hb hf
    -- the sections and the body are one part of the module
    have himports : EndsItems (upcoming (((s ++ (item ++ (s' ++ b))) ++ f).map Token.kind)) := by
      rw [List.append_assoc]
      exact hs.endsItems _
    have hparts : c.rest = head ++ (i ++ ((s ++ (item ++ (s' ++ b))) ++ f)) := by simp [hc]
    have hunit : NotesOnly unit c ([] ++ ([e] ++ [])) [] := by
      refine unit_notes_of_program hh (fun _ => allImports_notes hi himports) (fun c hc => ?_) hf hparts
      refine block_notes_of_parts (declarations_of_goesWrong hs h hend le_rfl (by simp [hc])) ?_
      exact fun c' hc' => .of_readsAll body_readsAll body_steady hc' hb (isFooter_next hf)
    exact hunit

end Recovering

/-! ## Errors of a report -/

/-- Where one declaration goes wrong in front of another one, there is one error. -/
theorem Cursor.syntaxErrors_of_goesWrong {c : Cursor} {e : SyntaxError} {before item behind : List Token}
    (haround : UnitAround before behind) (h : GoesWrong e item behind)
    (hc : c.rest = before ++ (item ++ behind)) : c.syntaxErrors .default = [e] := by
  have hroom : ([] : List Recovery).length + [e].length < Options.default.limit := by
    show 0 + 1 < 20
    decide
  obtain ⟨u, c', log, hrun, -, hlog⟩ := Recovering.unit_of_goesWrong haround h hc .default [] hroom
  rw [syntaxErrors, hrun]
  exact List.forall₂_eq_eq_eq ▸ List.forall₂_map_left_iff.2 hlog

/-- Without one of its `END`s, a declaration of a type goes wrong in front of the next declaration, and
the error is about its first record. -/
theorem GoesWrong.of_lacksEnd {next : Token} {item more : List Token} {whole : List Token.Kind}
    {i : TypeItem} (hi : IsTypeItem whole i) (hcase : word .CASE ∉ whole)
    (hitem : LacksEnd whole (item.map Token.kind))
    (hnext : BeginsDeclaration ((next :: more).map Token.kind)) :
    ∃ opener, firstRecord? item = some opener ∧
      GoesWrong (.ofUnclosed opener next more) item (next :: more) := by
  have herror : ∀ c : Cursor, c.rest = item ++ next :: more → ∃ opener c',
      firstRecord? item = some opener ∧
        Parser.typeItem .typeDeclaration c = .error (.ofUnclosed opener next more) c' ∧
        c'.rest = next :: more := fun _ => Parser.typeItem_of_lacksEnd hi hcase hitem hnext
  -- Which record is blamed is told by the tokens alone, so any cursor on them will do.
  obtain ⟨opener, -, hopener, -⟩ := herror ⟨item ++ next :: more, next, 0, 0⟩ rfl
  refine ⟨opener, hopener, ?_, hnext, fun c hc => ?_⟩
  · obtain ⟨text, x, hkinds, -⟩ := hi.isOpenType hcase hitem
    rw [hkinds]
    rfl
  · obtain ⟨opener', c', hopener', hrun, hc'⟩ := herror c hc
    obtain rfl : opener' = opener := Option.some.inj (hopener'.symm.trans hopener)
    exact ⟨c', hrun, hc'⟩

/-- Let a source be read without errors.  Each declaration of a type in it stands somewhere between the
others.  Now let an `END` be left out of such a declaration.  The type has no variant parts, no semicolon
stands in front of the `END`, and behind the declaration comes another one of a type, a section or the
body.  Then there is one error: the first record of the declaration is not closed where the next
declaration begins. -/
theorem readUnit_forgottenEnd {source : List Token} {t : CompilationUnit}
    (hsource : ((Cursor.ofTokens source).readUnit .default).1.unit = some t) :
    (∀ d ∈ t.declarations, ∀ items, d.kind = .types items → ∀ i ∈ items, ∃ before item behind,
      (Cursor.ofTokens source).rest = before ++ (item ++ behind) ∧ UnitAround before behind ∧
        IsTypeItem (item.map Token.kind) (i.relabel .forget)) ∧
    ∀ before item behind i, (Cursor.ofTokens source).rest = before ++ (item ++ behind) →
      UnitAround before behind → IsTypeItem (item.map Token.kind) i →
      word .CASE ∉ item.map Token.kind → BeginsDeclaration (behind.map Token.kind) →
      ∀ front gone back tokens, item = front ++ gone :: back → gone.kind = word .END →
        (∀ last, front.getLast? = some last → last.kind ≠ symbol .semicolon) →
        (Cursor.ofTokens tokens).rest = before ++ ((front ++ back) ++ behind) →
        ∃ opener next more, firstRecord? item = some opener ∧ behind = next :: more ∧
          ((Cursor.ofTokens tokens).readUnit .default).1.errors =
            [.grammatical (.ofUnclosed opener next more)] := by
  constructor
  · exact fun d hd items hkind i hi => Cursor.exists_unitAround hsource hd hkind hi
  · intro before item behind i _ haround hitem hcase hnext front gone back tokens hgone hend hfront
      htokens
    -- A declaration begins behind the item, so there is a token to stop at.
    obtain ⟨next, more, rfl⟩ : ∃ next more, behind = next :: more := by
      refine List.exists_cons_of_ne_nil ?_
      rintro rfl
      rcases hnext with ⟨_, _, hnil⟩ | ⟨_, _, hnil, -⟩ <;> cases hnil
    -- Without this `END` the item is a declaration that lacks one.
    have hlacks : LacksEnd (item.map Token.kind) ((front ++ back).map Token.kind) := by
      refine ⟨front.map Token.kind, back.map Token.kind, ?_, List.map_append, fun hlast => ?_⟩
      · rw [hgone, List.map_append, List.map_cons, hend]
      · rw [List.getLast?_map] at hlast
        obtain ⟨last, hlast, hkind⟩ := Option.map_eq_some_iff.1 hlast
        exact hfront last hlast hkind
    obtain ⟨opener, hopener, hwrong⟩ := GoesWrong.of_lacksEnd hitem hcase hlacks hnext
    refine ⟨opener, next, more, ?_, rfl, ?_⟩
    · rw [hgone, firstRecord?_leave_out (by rw [hend]; decide)]
      exact hopener
    · rw [Cursor.readUnit_errors, Cursor.syntaxErrors_of_goesWrong haround hwrong htokens]
      rfl

/-- `MODULE m; TYPE A = RECORD x : RECORD y : T END; z : T END; B = T; END m.`, where the first `END` is
left out.  Then the other one closes the inner record, with `z` in it, and the outer one is not closed. -/
theorem readUnit_forgottenEnd_innerRecord :
    let header := Token.Kind.row 0 [word .MODULE, .name "m", symbol .semicolon]
    let head : Token := ⟨word .TYPE, ⟨3, 4⟩, 1, 4⟩
    let name := Token.Kind.row 4 [.name "A", symbol .equal]
    let opener : Token := ⟨word .RECORD, ⟨6, 7⟩, 1, 7⟩
    let fields := Token.Kind.row 7 [.name "x", symbol .colon, word .RECORD, .name "y", symbol .colon,
      .name "T"]
    let gone : Token := ⟨word .END, ⟨13, 14⟩, 1, 14⟩
    let back := Token.Kind.row 14 [symbol .semicolon, .name "z", symbol .colon, .name "T", word .END,
      symbol .semicolon]
    let next : Token := ⟨.name "B", ⟨20, 21⟩, 1, 21⟩
    let type := Token.Kind.row 21 [symbol .equal, .name "T", symbol .semicolon]
    let footer := Token.Kind.row 24 [word .END, .name "m", symbol .period]
    let before := header ++ [head]
    let front := name ++ opener :: fields
    let behind := next :: (type ++ footer)
    let source := before ++ ((front ++ gone :: back) ++ behind)
    (∃ t, ((Cursor.ofTokens source).readUnit .default).1.unit = some t) ∧ UnitAround before behind ∧
      (∃ i, IsTypeItem ((front ++ gone :: back).map Token.kind) i) ∧
      ((Cursor.ofTokens (before ++ ((front ++ back) ++ behind))).readUnit .default).1.errors =
        [.grammatical (.ofUnclosed opener next (type ++ footer))] := by
  intro header head name opener fields gone back next type footer before front behind source
  have htype : IsType [.name "T"] _ := .simple (.named (.parts (.one (.name "T"))))
  have hinner : IsType [word .RECORD, .name "y", symbol .colon, .name "T", word .END] _ :=
    .record (.one (.fields (.idents (.one (.name "y"))) htype))
  have houter : IsType [word .RECORD, .name "x", symbol .colon, word .RECORD, .name "y", symbol .colon,
      .name "T", word .END, symbol .semicolon, .name "z", symbol .colon, .name "T", word .END] _ :=
    .record (.more (.fields (.idents (.one (.name "x"))) hinner)
      (.one (.fields (.idents (.one (.name "z"))) htype)))
  have hitem : IsTypeItem ((front ++ gone :: back).map Token.kind) _ := .item (.name "A") houter
  have hother : IsTypeItem ((next :: type).map Token.kind) _ := .item (.name "B") htype
  have hsections : SectionsAround ([] ++ head :: []) ((next :: type) ++ []) :=
    .types .none rfl .none (.more hother .none) .none
  have hheader : IsProgramHeader (header.map Token.kind) (false, ⟨"m", .nowhere⟩) :=
    .program (.name (.name "m"))
  have hfooter : IsFooter (footer.map Token.kind) ⟨"m", .nowhere⟩ := .footer (.name "m")
  have haround : UnitAround before behind :=
    .program (i := []) (b := []) hheader .none hsections .none hfooter
  have hfront : ∀ t, front.getLast? = some t → t.kind ≠ symbol .semicolon := by
    rintro t ⟨⟩
    nofun
  have hsource : (Cursor.ofTokens source).rest = before ++ ((front ++ gone :: back) ++ behind) := rfl
  have htokens : (Cursor.ofTokens (before ++ ((front ++ back) ++ behind))).rest =
      before ++ ((front ++ back) ++ behind) := rfl
  obtain ⟨t, ht⟩ := Cursor.exists_unit_of_unitAround haround hitem hsource .default
  obtain ⟨opener', next', more', hopener, hbehind, herrors⟩ :=
    (readUnit_forgottenEnd ht).2 before _ behind _ hsource haround hitem (by decide)
      (Or.inl ⟨"B", _, rfl⟩) front gone back _ rfl rfl hfront htokens
  obtain rfl : opener' = opener := Option.some.inj (hopener.symm.trans rfl)
  obtain ⟨rfl, rfl⟩ := List.cons.inj hbehind
  exact ⟨⟨t, ht⟩, haround, ⟨_, hitem⟩, herrors⟩

end Modula

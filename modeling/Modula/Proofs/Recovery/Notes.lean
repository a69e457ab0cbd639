import Modula.Proofs.Recovery.Unit
/-!
# Notes on the way

  A source that has more than one thing wrong with it is read to its end if the limit allows it, and each
  of these things is noted once.  `Notes about p c things behind` says this for a part of a source: with
  a limit that is large enough the reader `p` comes from `c` to the tokens `behind`, and there is one
  note for each of the things, in their order.  What it takes for an error to be about a thing is left
  open (`about`).

  Readers are put together, and so are the things that they note (`Notes.bind`).  What is noted in a
  compilation unit is what is noted in its imports, and then in what stands between them and the footer
  (`unit_notes_of_definition`, `unit_notes_of_program`).
-/

namespace Modula

/-- The tokens that are left tell a cursor apart from the others on its way. -/
theorem Cursor.rest_eq_of_le {c c' : Cursor} {tokens behind : List Token} (h : c ≤ c')
    (hc : c.rest = tokens ++ behind) (hc' : c'.kinds = behind.map Token.kind) :
    c'.rest = behind := by
  have hsuffix : c'.rest <:+ c.rest := (Cursor.le_iff_suffix.1 h).2
  have hlen : c'.rest.length = behind.length := by
    have hmap := congrArg List.length hc'
    rwa [Cursor.kinds, List.length_map, List.length_map] at hmap
  exact (List.suffix_of_suffix_length_le hsuffix (hc ▸ List.suffix_append tokens behind)
    hlen.le).eq_of_length hlen

/-- The tokens that a parser leaves are known by their kinds. -/
theorem Parser.Tracks.rest_eq {α : Type} {p : Parser α} {L : Language Token.Kind} (hp : p.Tracks L)
    {construct : Construct} {c c' : Cursor} {a : α} {tokens behind : List Token}
    (h : p construct c = .ok a c') (hc : c.rest = tokens ++ behind)
    (hc' : c'.kinds = behind.map Token.kind) : c'.rest = behind := by
  obtain ⟨w, -, hw⟩ := (hp construct c).reaches h
  exact Cursor.rest_eq_of_le hw.le hc hc'

/-- A budget of all unread tokens covers the first ones of them. -/
theorem Cursor.length_le_of_rest {c : Cursor} {us vs : List Token} (hc : c.rest = us ++ vs) :
    us.length ≤ c.remaining := by
  rw [remaining, hc, List.length_append]
  exact Nat.le_add_right _ _

namespace Recovering

open Token.Kind (word symbol)

variable {α β γ φ ψ : Type}

/-- The reading at `c` makes one note about each of these things, and comes to these tokens. -/
def Notes (about : SyntaxError → φ → Prop) (p : Recovering α) (c : Cursor) (things : List φ)
    (behind : List Token) : Prop :=
  ∀ (options : Options) (log : List Recovery), log.length + things.length < options.limit →
    ∃ a c' new, p options ⟨c, log⟩ = .ok a ⟨c', log ++ new⟩ ∧ c'.rest = behind ∧
      List.Forall₂ (fun r thing => about r.error thing) new things

namespace Notes

variable {about : SyntaxError → φ → Prop} {p : Recovering α} {c : Cursor} {things first more : List φ}
  {between behind : List Token}

theorem of_ok {a : α} {c' : Cursor} (h : ∀ options log, p options ⟨c, log⟩ = .ok a ⟨c', log⟩)
    (hc' : c'.rest = behind) : Notes about p c [] behind :=
  fun options log _ => ⟨a, c', [], by rw [h, List.append_nil], hc', .nil⟩

theorem pure (a : α) (hc : c.rest = behind) : Notes about (Pure.pure a) c [] behind :=
  of_ok (fun _ _ => rfl) hc

/-- Only the runs matter. -/
theorem congr {q : Recovering α} {c' : Cursor}
    (heq : ∀ options log, p options ⟨c, log⟩ = q options ⟨c', log⟩) (h : Notes about q c' things behind) :
    Notes about p c things behind := by
  intro options log hlimit
  rw [heq]
  exact h options log hlimit

theorem cursor_bind {g : Cursor → Recovering β} (h : Notes about (g c) c things behind) :
    Notes about (cursor >>= g) c things behind := congr (fun _ _ => rfl) h

theorem bind {g : α → Recovering β} (hp : Notes about p c first between)
    (hg : ∀ a c', c'.rest = between → Notes about (g a) c' more behind) :
    Notes about (p >>= g) c (first ++ more) behind := by
  intro options log hlimit
  rw [List.length_append] at hlimit
  obtain ⟨a, c₁, new₁, hrun₁, hc₁, habout₁⟩ := hp options log (by omega)
  have hlen := habout₁.length_eq
  obtain ⟨b, c₂, new₂, hrun₂, hc₂, habout₂⟩ := hg a c₁ hc₁ options (log ++ new₁) (by
    rw [List.length_append]
    omega)
  refine ⟨b, c₂, new₁ ++ new₂, ?_, hc₂, List.rel_append habout₁ habout₂⟩
  rw [bind_of_ok hrun₁, hrun₂, List.append_assoc]

/-- What is done with the value at the end notes nothing. -/
theorem bind_last {g : α → Recovering β} (hp : Notes about p c things between)
    (hg : ∀ a c', c'.rest = between → Notes about (g a) c' [] behind) :
    Notes about (p >>= g) c things behind := by
  have h := hp.bind hg
  rwa [List.append_nil] at h

/-- A parser that does not fail notes nothing. -/
theorem run_bind {construct : Construct} {q : Parser α} {a : α} {c' : Cursor} {g : α → Recovering β}
    (hq : q construct c = .ok a c') (h : Notes about (g a) c' things behind) :
    Notes about (run construct q >>= g) c things behind :=
  congr (fun options log => bind_of_ok (run_of_ok hq options log)) h

theorem inside (moduleName : Ident) (hp : Notes about p c things behind) :
    Notes about (inside moduleName p) c things behind := by
  intro options log hlimit
  obtain ⟨a, c', new, hrun, hnew⟩ := hp options log hlimit
  exact ⟨a, c', new, inside_of_ok hrun, hnew⟩

theorem note {e : SyntaxError} {thing : φ} {resumption : Cursor} (he : about e thing)
    (hres : resumption.rest = behind) : Notes about (note e resumption) c [thing] behind := by
  intro options log hlimit
  exact ⟨(), _, [_], note_of_lt_limit hlimit e resumption, hres, .cons he .nil⟩

/-- Where nothing is noted it does not matter what notes would be about. -/
theorem of_nothing {about' : SyntaxError → ψ → Prop} (h : Notes about p c [] behind) :
    Notes about' p c [] behind := by
  intro options log hlimit
  obtain ⟨a, c', new, hrun, hc', habout⟩ := h options log hlimit
  cases habout with
  | nil => exact ⟨a, c', [], hrun, hc', .nil⟩

/-- On a sentence there is nothing to note. -/
theorem of_readsAll {f : α → β} {phrase : Phrase β} {follow : Token.Kind → Prop}
    {g : SyntaxError → SyntaxError} {w : List Token} {b : β} (hreads : ReadsAll p f phrase follow)
    (hsteady : Steady g p) (hc : c.rest = w ++ behind) (hw : phrase (w.map Token.kind) b)
    (hfollow : follow (upcoming (behind.map Token.kind))) : Notes about p c [] behind := by
  obtain ⟨a, c', hrun, -, hc'⟩ := hreads (Cursor.kinds_of_rest hc) hw hfollow
  refine of_ok hrun (Cursor.rest_eq_of_le ?_ hc hc')
  have hfollows := (hsteady ⟨c, []⟩).follows .default
  rw [hrun] at hfollows
  obtain ⟨new, -, htrail⟩ := hfollows
  exact htrail.le

end Notes

/-! ## Sections -/

section

variable {about : SyntaxError → φ → Prop} {inDefinition : Bool} {budget : Nat} {c : Cursor}
  {first more : List φ} {between behind : List Token}

/-- Behind the last section there is nothing to note. -/
theorem declarations_end_notes (hend : EndsSections (upcoming (behind.map Token.kind)))
    (hc : c.rest = behind) : Notes about (declarations inDefinition budget) c [] behind := by
  cases budget with
  | zero => exact .pure [] hc
  | succ budget =>
    have hk : EndsSections c.kind := by
      rwa [Cursor.kind_eq_upcoming, Cursor.kinds, hc]
    rw [declarations]
    refine .cursor_bind ?_
    rcases hk with hk | hk <;> rw [hk] <;> exact .pure [] hc

theorem declarations_constants_notes (hk : c.kind = word .CONST)
    (hfirst : Notes about (sectionOf .constDeclaration Parser.constItem .constants) c first between)
    (hmore : ∀ c', c'.rest = between →
      Notes about (declarations inDefinition budget) c' more behind) :
    Notes about (declarations inDefinition (budget + 1)) c (first ++ more) behind := by
  rw [declarations]
  refine .cursor_bind ?_
  rw [hk]
  exact hfirst.bind fun d c' hc' => (hmore c' hc').bind_last fun l c'' hc'' => .pure _ hc''

theorem declarations_types_notes (hk : c.kind = word .TYPE)
    (hfirst : Notes about (sectionOf .typeDeclaration Parser.typeItem .types) c first between)
    (hmore : ∀ c', c'.rest = between →
      Notes about (declarations inDefinition budget) c' more behind) :
    Notes about (declarations inDefinition (budget + 1)) c (first ++ more) behind := by
  rw [declarations]
  refine .cursor_bind ?_
  rw [hk]
  exact hfirst.bind fun d c' hc' => (hmore c' hc').bind_last fun l c'' hc'' => .pure _ hc''

end

/-! ## Modules -/

/-- A block notes what its sections do, and then what its body does. -/
theorem block_notes_of_parts {about : SyntaxError → φ → Prop} {c : Cursor} {first more : List φ}
    {between behind : List Token} (hs : Notes about (declarations false c.remaining) c first between)
    (hb : ∀ c', c'.rest = between → Notes about body c' more behind) :
    Notes about block c (first ++ more) behind := by
  rw [block]
  refine .cursor_bind (hs.bind fun declarations c₁ hc₁ => ?_)
  exact (hb c₁ hc₁).bind_last fun body c₂ hc₂ => .cursor_bind (.pure _ hc₂)

/-- A module notes what its imports do, and then what stands between them and its footer. -/
theorem moduleOf_notes {δ : Type} {about : SyntaxError → φ → Prop} {header : Parser α}
    {name : α → Ident} {middle : Recovering β} {make : α → List Import → β → Ident → Span → γ}
    {view : α → δ} {phrase : Phrase δ} (hreads : ∀ n, header.ReadsAll n view phrase fun _ => True)
    (htracks : header.Tracks phrase.words) {h i f m : List Token} {first more : List φ} {d : δ}
    {foot : Ident} (hh : phrase (h.map Token.kind) d)
    (hi : ∀ c : Cursor, c.rest = i ++ (m ++ f) → Notes about allImports c first (m ++ f))
    (hm : ∀ c : Cursor, c.rest = m ++ f → Notes about middle c more f)
    (hf : IsFooter (f.map Token.kind) foot) {c : Cursor} (hc : c.rest = h ++ (i ++ (m ++ f))) :
    Notes about (moduleOf header name middle make) c (first ++ more) [] := by
  have hheader : Notes about (run .moduleHeader header) c [] (i ++ (m ++ f)) :=
    .of_readsAll (run_readsAll .moduleHeader hreads) (run_steady htracks) hc hh trivial
  rw [moduleOf]
  refine .cursor_bind (hheader.bind fun a c₁ hc₁ => ?_)
  refine ((hi c₁ hc₁).inside (name a)).bind fun imports c₂ hc₂ => ?_
  refine ((hm c₂ hc₂).inside (name a)).bind_last fun middle c₃ hc₃ => ?_
  have hfooter : Notes about footer c₃ [] [] :=
    .of_readsAll (run_readsAll .moduleFooter Parser.footer_readsAll) footer_steady
      (hc₃.trans (List.append_nil f).symm) hf trivial
  exact (hfooter.inside (name a)).bind fun foot c₄ hc₄ => .cursor_bind (.pure _ hc₄)

/-! ## Compilation units -/

theorem kind_of_definitionHeader {c : Cursor} {w rest : List Token} {name : Ident}
    (hw : IsDefinitionHeader (w.map Token.kind) name) (hc : c.rest = w ++ rest) :
    c.kind = word .DEFINITION := by
  rw [Cursor.kind_eq_upcoming, Cursor.kinds_of_rest hc]
  generalize w.map Token.kind = ks at hw
  cases hw
  rfl

theorem kind_of_programHeader {c : Cursor} {w rest : List Token} {header : Bool × Ident}
    (hw : IsProgramHeader (w.map Token.kind) header) (hc : c.rest = w ++ rest) :
    c.kind = word .IMPLEMENTATION ∨ c.kind = word .MODULE := by
  rw [Cursor.kind_eq_upcoming, Cursor.kinds_of_rest hc]
  generalize w.map Token.kind = ks at hw
  cases hw with
  | program hn =>
    cases hn
    exact Or.inr rfl
  | implementation _ => exact Or.inl rfl

section

variable {about : SyntaxError → φ → Prop} {c : Cursor} {things first more : List φ}
  {h i m f : List Token} {foot : Ident}

/-- Behind a module there is nothing to note. -/
theorem unit_notes (hm : Notes about anyModule c things []) : Notes about unit c things [] := by
  rw [unit]
  refine hm.bind_last fun u c' hc' => ?_
  have hkinds : c'.kinds = [] := by rw [Cursor.kinds, hc', List.map_nil]
  exact .congr (fun options log => bind_of_ok (endOfSource_of_kinds hkinds options log)) (.pure u hc')

/-- What is noted in a definition module. -/
theorem unit_notes_of_definition {name : Ident} (hh : IsDefinitionHeader (h.map Token.kind) name)
    (hi : ∀ c : Cursor, c.rest = i ++ (m ++ f) → Notes about allImports c first (m ++ f))
    (hm : ∀ c : Cursor, c.rest = m ++ f → Notes about allDeclarations c more f)
    (hf : IsFooter (f.map Token.kind) foot) (hc : c.rest = h ++ (i ++ (m ++ f))) :
    Notes about unit c (first ++ more) [] := by
  have hmodule : Notes about definitionModule c (first ++ more) [] := by
    rw [definitionModule_eq_moduleOf]
    exact moduleOf_notes Parser.definitionHeader_readsAll Parser.definitionHeader_tracks hh hi hm hf hc
  refine unit_notes ?_
  rw [anyModule]
  refine .cursor_bind ?_
  rw [kind_of_definitionHeader hh hc]
  exact hmodule.bind_last fun m c' hc' => .pure _ hc'

/-- What is noted in a program module. -/
theorem unit_notes_of_program {header : Bool × Ident}
    (hh : IsProgramHeader (h.map Token.kind) header)
    (hi : ∀ c : Cursor, c.rest = i ++ (m ++ f) → Notes about allImports c first (m ++ f))
    (hm : ∀ c : Cursor, c.rest = m ++ f → Notes about block c more f)
    (hf : IsFooter (f.map Token.kind) foot) (hc : c.rest = h ++ (i ++ (m ++ f))) :
    Notes about unit c (first ++ more) [] := by
  have hmodule : Notes about programModule c (first ++ more) [] := by
    rw [programModule_eq_moduleOf]
    exact moduleOf_notes Parser.programHeader_readsAll Parser.programHeader_tracks hh hi hm hf hc
  refine unit_notes ?_
  rw [anyModule]
  refine .cursor_bind ?_
  rcases kind_of_programHeader hh hc with hk | hk
  · rw [hk]
    exact hmodule.bind_last fun m c' hc' => .pure _ hc'
  · rw [hk]
    exact hmodule.bind_last fun m c' hc' => .pure _ hc'

end

end Recovering

end Modula

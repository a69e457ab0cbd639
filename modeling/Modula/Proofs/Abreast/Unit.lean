import Modula.Proofs.Abreast.TypeExpr
import Modula.Proofs.Recovery.Unit
/-!
# Readers of compilation units abreast

  Reading goes on behind an error at a place that is found by looking at the tokens there, and so the two
  readers go on at the same place (`Cursor.Retold.resume`).  The errors after which they went on are the
  same ones, retold, and there are equally many, so that a limit is reached by both or by neither
  (`note_abreast`).

  Behind the header of a module some token has been read, and whatever looks back at the end of one
  stands there.
-/

namespace Modula

open Token.Kind (word symbol)

variable {r : Retelling} {begun eats : Bool}

/-! ## Skips

  A skip counts tokens.  It asks for kinds that no retelling changes, and for the texts of names, so it
  counts the same number in both lists. -/

namespace Retelling

variable (r : Retelling)

/-- None of the questions that a skip asks about a token tells the spellings of an operator apart. -/
theorem isName_kind (k : Token.Kind) : (r.kind k).isName = k.isName :=
  r.apply_kind Token.Kind.isName rfl rfl k

theorem isOpener_kind (k : Token.Kind) : (r.kind k).isOpener = k.isOpener :=
  r.apply_kind Token.Kind.isOpener rfl rfl k

theorem isBracketCloser_kind (k : Token.Kind) : (r.kind k).isBracketCloser = k.isBracketCloser :=
  r.apply_kind Token.Kind.isBracketCloser rfl rfl k

theorem endsImport_kind (k : Token.Kind) : (r.kind k).endsImport = k.endsImport :=
  r.apply_kind Token.Kind.endsImport rfl rfl k

theorem endsDeclaration_kind (k : Token.Kind) : (r.kind k).endsDeclaration = k.endsDeclaration :=
  r.apply_kind Token.Kind.endsDeclaration rfl rfl k

theorem endsVariables_kind (k : Token.Kind) : (r.kind k).endsVariables = k.endsVariables :=
  r.apply_kind Token.Kind.endsVariables rfl rfl k

/-- To compare with a plain kind gives the same answer before and behind a retelling. -/
theorem kind_beq {wanted : Token.Kind} (h : IsPlain wanted) (k : Token.Kind) :
    (r.kind k == wanted) = (k == wanted) := by
  rw [Bool.eq_iff_iff, beq_iff_eq, beq_iff_eq, r.kind_eq_iff h]

/-- Names are not operators. -/
theorem isPlain_name (text : String) : IsPlain (.name text) := ⟨nofun, nofun, nofun, nofun⟩

end Retelling

namespace Skip

open Retelling (IsPlain)

variable (r : Retelling)

/-- So many tokens up to a semicolon or to a word that ends the imports. -/
theorem importRest_map (ts : List Token) : importRest (ts.map r.token) = importRest ts := by
  induction ts with
  | nil => rfl
  | cons t ts ih =>
    rw [List.map_cons, importRest, importRest, r.token_kind, r.endsImport_kind, ih]
    simp only [r.kind_eq_iff (by decide : IsPlain (symbol .semicolon))]

/-- The depth of brackets is counted alike, since openers and closers are plain. -/
theorem declarationRest_map (depth : Nat) (ts : List Token) :
    declarationRest depth (ts.map r.token) = declarationRest depth ts := by
  induction ts generalizing depth with
  | nil => rfl
  | cons t ts ih =>
    -- Only outside of all brackets does a semicolon end the declaration.
    cases depth <;>
      simp only [List.map_cons, declarationRest, ih, r.token_kind, r.isOpener_kind,
        r.isBracketCloser_kind, r.endsDeclaration_kind, r.kind_eq_iff (by decide : IsPlain (word .END)),
        r.kind_eq_iff (by decide : IsPlain (symbol .semicolon))]

/-- The name behind its word tells a procedure from a procedure type. -/
theorem nextIsName_map (ts : List Token) : nextIsName (ts.map r.token) = nextIsName ts := by
  cases ts with
  | nil => rfl
  | cons t ts => rw [List.map_cons, nextIsName, nextIsName, r.token_kind, r.isName_kind]

/-- The same for variables, where the look at the next token is taken at a `PROCEDURE`. -/
theorem variablesRest_map (depth : Nat) (ts : List Token) :
    variablesRest depth (ts.map r.token) = variablesRest depth ts := by
  induction ts generalizing depth with
  | nil => rfl
  | cons t ts ih =>
    cases depth <;>
      simp only [List.map_cons, variablesRest, ih, r.token_kind, r.isOpener_kind,
        r.isBracketCloser_kind, r.endsVariables_kind, nextIsName_map,
        r.kind_eq_iff (by decide : IsPlain (word .END)),
        r.kind_eq_iff (by decide : IsPlain (word .PROCEDURE))]

/-- The heading of a procedure ends at a semicolon outside of its parentheses. -/
theorem headingRest_map (depth : Nat) (ts : List Token) :
    headingRest depth (ts.map r.token) = headingRest depth ts := by
  induction ts generalizing depth with
  | nil => rfl
  | cons t ts ih =>
    rw [List.map_cons, headingRest, headingRest, r.token_kind]
    simp only [ih, r.kind_eq_iff (by decide : IsPlain (symbol .openParen)),
      r.kind_eq_iff (by decide : IsPlain (symbol .closeParen)),
      r.kind_eq_iff (by decide : IsPlain (symbol .semicolon))]

/-- A footer is seen from three tokens with nothing behind them: `END`, a name and a period. -/
theorem isFooter_map (ts : List Token) : isFooter (ts.map r.token) = isFooter ts := by
  rcases ts with _ | ⟨e, _ | ⟨n, _ | ⟨p, _ | ⟨t, ts⟩⟩⟩⟩ <;> try rfl
  simp only [List.map_cons, List.map_nil, isFooter, r.token_kind, r.isName_kind,
    r.kind_beq (by decide : IsPlain (word .END)), r.kind_beq (by decide : IsPlain (symbol .period))]

/-- The end of a procedure repeats its name, and the text of a name is never retold. -/
theorem isProcedureEnd_map (name : Option String) (ts : List Token) :
    isProcedureEnd name (ts.map r.token) = isProcedureEnd name ts := by
  rcases ts with _ | ⟨e, _ | ⟨n, _ | ⟨s, ts⟩⟩⟩ <;> try rfl
  simp only [List.map_cons, isProcedureEnd, r.token_kind, r.kind_beq (Retelling.isPlain_name _),
    r.kind_beq (by decide : IsPlain (word .END)), r.kind_beq (by decide : IsPlain (symbol .semicolon))]

/-- A body ends at its own `END` or in front of the footer, whichever is first. -/
theorem procedureBody_map (name : Option String) (ts : List Token) :
    procedureBody name (ts.map r.token) = procedureBody name ts := by
  induction ts with
  | nil => rfl
  | cons t ts ih =>
    have hfooter := isFooter_map r (t :: ts)
    have hend := isProcedureEnd_map r name (t :: ts)
    rw [List.map_cons] at hfooter hend ⊢
    rw [procedureBody, procedureBody, hfooter, hend, ih]

/-- A statement sequence is passed over up to the footer. -/
theorem beforeFooter_map (ts : List Token) : beforeFooter (ts.map r.token) = beforeFooter ts := by
  induction ts with
  | nil => rfl
  | cons t ts ih =>
    have hfooter := isFooter_map r (t :: ts)
    rw [List.map_cons] at hfooter ⊢
    rw [beforeFooter, beforeFooter, hfooter, ih]

end Skip

namespace Cursor.Retold

variable {c c' d d' : Cursor}

/-- As many tokens are passed over on both sides. -/
theorem skip_rest (h : Retold r begun c c') {count : List Token → Nat}
    (hcount : ∀ ts, count (ts.map r.token) = count ts) :
    Retold r begun (c.skip (count c.rest)) (c'.skip (count c'.rest)) := by
  rw [h.rest, hcount]
  exact h.skip _

/-- The skip behind a faulty import comes to the same place on both sides. -/
theorem afterImport (h : Retold r begun c c') : Retold r begun c.afterImport c'.afterImport :=
  h.advance.skip_rest (Skip.importRest_map r)

/-- The skip behind a faulty declaration, which counts brackets from its beginning on. -/
theorem afterDeclaration (h : Retold r begun c c') :
    Retold r begun c.afterDeclaration c'.afterDeclaration :=
  h.advance.skip_rest (Skip.declarationRest_map r 0)

/-- The skip over a section of variables. -/
theorem afterVariables (h : Retold r begun c c') :
    Retold r begun c.afterVariables c'.afterVariables :=
  h.advance.skip_rest (Skip.variablesRest_map r 0)

/-- The name of a procedure is the text of the token behind its word. -/
theorem nameHere_eq (h : Retold r begun c c') : c'.nameHere = c.nameHere := by
  unfold nameHere
  rw [h.kind_eq]
  generalize c.kind = k
  rcases r.kind_eq k with hk | ⟨rfl, hk⟩ | ⟨rfl, hk⟩ <;> rw [hk]

/-- The skip over a procedure: its heading, and behind it the body if one is expected. -/
theorem afterProcedure (h : Retold r begun c c') (headingOnly : Bool) :
    Retold r begun (c.afterProcedure headingOnly) (c'.afterProcedure headingOnly) := by
  have hheading := h.advance.skip_rest (Skip.headingRest_map r 0)
  unfold Cursor.afterProcedure
  dsimp only
  rw [h.advance.nameHere_eq]
  -- A definition module has headings only.
  split
  · exact hheading
  · exact hheading.skip_rest (Skip.procedureBody_map r _)

/-- The skip over statements. -/
theorem atFooter (h : Retold r begun c c') : Retold r begun c.atFooter c'.atFooter :=
  h.skip_rest (Skip.beforeFooter_map r)

/-- Where reading goes on after an error: right there if a declaration begins there, and else behind the
broken one.  Whether the reader has moved at all is told by counts of tokens, which are the same. -/
theorem resume (h : Retold r begun c c') (hd : Retold r begun d d') :
    Retold r begun (c.resume d) (c'.resume d') := by
  unfold Cursor.resume
  rw [hd.remaining_eq, h.remaining_eq, hd.beginsDeclaration_eq]
  split
  · exact h.afterDeclaration
  · exact hd

end Cursor.Retold

/-! ## Items

  An item is read by parsers for which it has been shown already, and it is given a span. -/

namespace Parser

/-- The word `FROM` tells the two kinds of import apart. -/
theorem importKind_abreast :
    Abreast r begun true (ImportKind.relabel r.toRelabeling) importKind importKind := by
  refine .bind (accept_abreast (by decide)) fun _ => .ite Iff.rfl ?_ ?_
  · refine ident_abreast.and_then fun source =>
      .bind (expect_abreast (by decide) (by nofun)).weaken fun _ =>
      .bind identList_abreast.weaken fun names => .pure_begun rfl
  · exact (expect_abreast (by decide) (by nofun)).and_then fun _ =>
      .bind identList_abreast.weaken fun modules => .pure_begun rfl

/-- An import starts at its first word and ends at its semicolon. -/
theorem importClause_abreast :
    Abreast r begun true (Import.relabel r.toRelabeling) importClause importClause := by
  refine get_bind_abreast fun c c' hc => ?_
  rw [hc.token_eq, r.token_start]
  refine importKind_abreast.and_then fun kind =>
    .bind (expect_abreast (by decide) (by nofun)).weaken fun _ => .bind lastEnd_abreast fun stop => ?_
  exact .pure_begun (by simp [Import.relabel])

/-- A constant: the span joins its name and its value, without the semicolon. -/
theorem constItem_abreast :
    Abreast r begun true (ConstItem.relabel r.toRelabeling) constItem constItem := by
  refine ident_abreast.and_then fun name => .bind (expect_abreast (by decide) (by nofun)).weaken
    fun _ => .bind expr_abreast.weaken fun value =>
    .bind (expect_abreast (by decide) (by nofun)).weaken fun _ => ?_
  exact .pure_begun (by simp [ConstItem.relabel, Ident.relabel, r.span_join])

/-- A type and its name, like a constant. -/
theorem typeItem_abreast :
    Abreast r begun true (TypeItem.relabel r.toRelabeling) typeItem typeItem := by
  refine ident_abreast.and_then fun name => .bind (expect_abreast (by decide) (by nofun)).weaken
    fun _ => .bind type_abreast.weaken fun type =>
    .bind (expect_abreast (by decide) (by nofun)).weaken fun _ => ?_
  exact .pure_begun (by simp [TypeItem.relabel, Ident.relabel, r.span_join])

/-- The name of a module, between `MODULE` and a semicolon. -/
theorem moduleName_abreast :
    Abreast r begun true (Ident.relabel r.toRelabeling) moduleName moduleName :=
  (expect_abreast (by decide) (by nofun)).and_then fun _ => .bind ident_abreast.weaken fun name =>
    .bind (expect_abreast (by decide) (by nofun)).weaken fun _ => .pure_begun rfl

/-- A definition module begins with a word more. -/
theorem definitionHeader_abreast :
    Abreast r begun true (Ident.relabel r.toRelabeling) definitionHeader definitionHeader :=
  (expect_abreast (by decide) (by nofun)).and_then fun _ => moduleName_abreast

/-- Whether there is an `IMPLEMENTATION` is kept as it is. -/
theorem programHeader_abreast :
    Abreast r begun true (Prod.map id (Ident.relabel r.toRelabeling)) programHeader programHeader :=
  .bind (accept_abreast (by decide)) fun _ => moduleName_abreast.and_then fun name => .pure_begun rfl

/-- The footer: `END`, a name and a period. -/
theorem footer_abreast : Abreast r begun true (Ident.relabel r.toRelabeling) footer footer :=
  (expect_abreast (by decide) (by nofun)).and_then fun _ => .bind ident_abreast.weaken fun name =>
    .bind (expect_abreast (by decide) (by nofun)).weaken fun _ => .pure_begun rfl

end Parser

/-! ## Recovery

  Two sessions are compared by their cursors and by their logs.  An error that is noted in one is noted in
  the other, retold, and both go on at the same place. -/

/-- The note about the retold error. -/
def Recovery.retell (r : Retelling) (n : Recovery) : Recovery := ⟨n.error.retell r, n.resumption⟩

/-- A result with its error retold. -/
def SyntaxError.retellExcept {α : Type} (r : Retelling) (f : α → α) :
    Except SyntaxError α → Except SyntaxError α
  | .ok a => .ok (f a)
  | .error e => .error (e.retell r)

/-- The second session has come as far with the retold tokens. -/
structure Session.Retold (r : Retelling) (begun : Bool) (s s' : Session) : Prop where
  cursor : Cursor.Retold r begun s.cursor s'.cursor
  log : s'.log = s.log.map (Recovery.retell r)

/-- The log is compared in any case; what is weakened is what the cursors say. -/
theorem Session.Retold.weaken {s s' : Session} (h : Retold r true s s') (begun : Bool) :
    Retold r begun s s' := ⟨h.cursor.weaken begun, h.log⟩

namespace Recovering

variable {α β γ : Type} {f : α → α} {g : β → β}

/-- An error raised outside of all parsers is about the token at hand, too. -/
theorem outerError_retell {c c' : Cursor} (h : Cursor.Retold r begun c c')
    (cause : SyntaxError.Cause) :
    (outerError c cause).retell r = outerError c' (cause.retell r) := by
  rw [outerError, outerError, h.token_eq, h.remaining_eq, SyntaxError.retell]

/-- The second reader does on retold tokens what the first one does. -/
abbrev Abreast (r : Retelling) (begun eats : Bool) (f : α → α) (p p' : Recovering α) : Prop :=
  Modula.Abreast r (Session.Retold r) begun eats f p p'

namespace Abreast

variable {p p' : Recovering α} {q q' : α → Recovering β}

/-- Behind a reader that eats, some token has been read; the log goes along with the cursor. -/
theorem and_then (hp : Abreast r begun true f p p')
    (hq : ∀ a, Abreast r true true g (q a) (q' (f a))) :
    Abreast r begun true g (p >>= q) (p' >>= q') :=
  fun _ _ _ hs => (hp hs).bind_eating (fun _ _ hs => hs.weaken begun) hq

end Abreast

/-! ### Steps -/

/-- A look at the whole cursor of a session. -/
theorem cursor_bind_abreast {q q' : Cursor → Recovering β}
    (hq : ∀ c c', Cursor.Retold r begun c c' → Abreast r begun eats g (q c) (q' c')) :
    Abreast r begun eats g (cursor >>= q) (cursor >>= q') := fun _ _ _ hs => hq _ _ hs.cursor hs

/-- To raise an error leaves the session as it is. -/
theorem throw_abreast {e e' : SyntaxError} (he : e.retell r = e') :
    Abreast r begun eats f (throw e) (throw e') := fun _ _ _ hs => .error he hs

/-- To note an error and go on.  The logs are equally long, so that both reach the limit at once, and
what is noted about the resumption is a count of tokens. -/
theorem note_abreast {e e' : SyntaxError} {d d' : Cursor} (he : e.retell r = e')
    (hd : Cursor.Retold r begun d d') : Abreast r begun false id (note e d) (note e' d') := by
  intro options s s' hs
  unfold note
  rw [hs.log, List.length_map]
  split
  · exact .error he hs
  · refine .ok rfl ⟨hd.withId hs.cursor.nextId, ?_⟩
    rw [List.map_append, List.map_singleton, Recovery.retell, he, hd.remaining_eq]

/-- A parser without recovery, within a session: the log is not touched. -/
theorem run_abreast {p p' : Parser α} (construct : Construct)
    (hp : Parser.Abreast r begun eats f p p') :
    Abreast r begun eats f (run construct p) (run construct p') := by
  intro options s s' hs
  have hrun := hp hs.cursor (x := construct)
  unfold run
  generalize p construct s.cursor = result at hrun ⊢
  generalize p' construct s'.cursor = result' at hrun ⊢
  cases hrun with
  | ok ha hc => exact .ok ha ⟨hc, hs.log⟩
  | error he hc => exact .error he ⟨hc, hs.log⟩

/-- An attempt always ends with a value, which may be the error.  It is made where a token has been read,
for behind an error no other token is known to have been. -/
theorem attempt_abreast {p p' : Parser α} (construct : Construct)
    (hp : Parser.Abreast r true eats f p p') :
    Abreast r true false (SyntaxError.retellExcept r f) (attempt construct p)
      (attempt construct p') := by
  intro options s s' hs
  have hrun := hp hs.cursor (x := construct)
  unfold attempt
  generalize p construct s.cursor = result at hrun ⊢
  generalize p' construct s'.cursor = result' at hrun ⊢
  cases hrun with
  | ok ha hc => exact .ok (congrArg _ ha) ⟨Bool.or_true eats ▸ hc, hs.log⟩
  | error he hc => exact .ok (congrArg _ he) ⟨hc, hs.log⟩

/-! ### Items

  Whether an item is tried depends on the next token, and whether its error is noted on the end of input
  and the length of the log.  Neither of them is changed. -/

section

variable {item : Parser α} {starts : Token.Kind → Prop} [DecidablePred starts]
  {resume : Cursor → Cursor → Cursor}

/-- Items one after the other.  Whether one begins, whether it failed at the end of input and where to go
on are questions with the same answers on both sides. -/
theorem tryItems_abreast (construct : Construct) (hstarts : ∀ k, starts (r.kind k) ↔ starts k)
    (hi : Parser.Abreast r true true f item item)
    (hresume : ∀ c c' d d', Cursor.Retold r true c c' → Cursor.Retold r true d d' →
      Cursor.Retold r true (resume c d) (resume c' d')) (budget : Nat) :
    Abreast r true false (List.map f) (tryItems starts construct item resume budget)
      (tryItems starts construct item resume budget) := by
  induction budget with
  | zero => exact .pure rfl
  | succ budget ih =>
    rw [tryItems]
    refine cursor_bind_abreast fun start start' hstart =>
      .ite (by rw [hstart.kind_eq, hstarts]) (.bind (attempt_abreast construct hi) ?_) (.pure rfl)
    -- An error is raised again at the end of input, and else noted with the place where both go on.
    rintro (e | a)
    · refine cursor_bind_abreast fun d d' hd => ?_
      refine .ite (by rw [hd.atEnd_eq]) (throw_abreast rfl) ?_
      exact .bind (note_abreast rfl (hresume _ _ _ _ hstart hd)) fun _ => ih
    · exact .bind ih fun more => .pure rfl

/-- A section of declarations: its word, its items and the span up to the last of them. -/
theorem sectionOf_abreast (construct : Construct) {kind : List α → DeclarationKind}
    (hi : Parser.Abreast r true true f item item)
    (hkind : ∀ l, (kind l).relabel r.toRelabeling = kind (l.map f)) :
    Abreast r true false (Declaration.relabel r.toRelabeling) (sectionOf construct item kind)
      (sectionOf construct item kind) := by
  refine .bind (run_abreast _ Parser.advance_abreast) fun head => cursor_bind_abreast fun c c' hc => ?_
  rw [items_eq_tryItems, items_eq_tryItems, hc.remaining_eq]
  refine .bind (tryItems_abreast construct (fun k => by rw [r.isName_kind]) hi
    (fun _ _ _ _ => Cursor.Retold.resume) _) fun items => ?_
  refine .bind (run_abreast _ Parser.freshId_abreast) fun id => cursor_bind_abreast fun d d' hd => ?_
  exact .pure (by simp [Declaration.relabel, hkind, hd.lastEnd rfl])

end

/-- The imports of a module, each of which begins with `FROM` or `IMPORT`. -/
theorem allImports_abreast :
    Abreast r true false (List.map (Import.relabel r.toRelabeling)) allImports allImports := by
  refine cursor_bind_abreast fun c c' hc => ?_
  rw [imports_eq_tryItems, imports_eq_tryItems, hc.remaining_eq]
  refine tryItems_abreast _ (fun k => ?_) Parser.importClause_abreast
    (fun _ _ _ _ h _ => h.afterImport) _
  rw [r.kind_eq_iff (by decide), r.kind_eq_iff (by decide)]

/-! ### Sections

  The branches of the reader are told by the next word, and words are retold as they are. -/

/-- What is done at a look at the token must not depend on the spelling of an operator. -/
theorem kind_match_abreast {q q' : Token.Kind → Recovering α} {k k' : Token.Kind}
    (hk : k' = r.kind k) (hne : q' (symbol .notEqual) = q' (symbol .hash))
    (hand : q' (symbol .ampersand) = q' (word .AND)) (hq : Abreast r begun eats f (q k) (q' k)) :
    Abreast r begun eats f (q k) (q' k') := by
  rwa [hk, r.apply_kind q' hne hand]

/-- By induction on the number of sections.  Variables and procedures are noted as not supported and
passed over, which takes the place of a section. -/
theorem declarations_abreast (inDefinition : Bool) (budget : Nat) :
    Abreast r true false (List.map (Declaration.relabel r.toRelabeling))
      (declarations inDefinition budget) (declarations inDefinition budget) := by
  induction budget with
  | zero => exact .pure rfl
  | succ budget ih =>
    refine cursor_bind_abreast fun c c' hc => ?_
    have hkind := hc.kind_eq
    generalize c.kind = k, c'.kind = k' at hkind ⊢
    -- The choice is by a match on the kind, so that its arms are to be compared for the two spellings of
    -- an operator first.
    apply kind_match_abreast hkind
    · rfl
    · rfl
    split
    · exact .bind (sectionOf_abreast _ Parser.constItem_abreast fun _ => rfl) fun d =>
        .bind ih fun more => .pure rfl
    · exact .bind (sectionOf_abreast _ Parser.typeItem_abreast fun _ => rfl) fun d =>
        .bind ih fun more => .pure rfl
    · exact .bind (note_abreast (outerError_retell hc _) hc.afterVariables) fun _ => ih
    · exact .bind (note_abreast (outerError_retell hc _) (hc.afterProcedure _)) fun _ => ih
    · exact .pure rfl

/-- The declarations of a definition module. -/
theorem allDeclarations_abreast :
    Abreast r true false (List.map (Declaration.relabel r.toRelabeling)) allDeclarations
      allDeclarations := by
  refine cursor_bind_abreast fun c c' hc => ?_
  rw [hc.remaining_eq]
  exact declarations_abreast _ _

/-- The statements of a module are noted as not supported once, at the first of them. -/
theorem body_abreast : Abreast r true false (Option.map r.span) body body := by
  refine cursor_bind_abreast fun c c' hc => ?_
  refine .ite (by rw [hc.kind_eq, r.kind_eq_iff (by decide)]) ?_ (.pure rfl)
  refine .bind (run_abreast _ Parser.advance_abreast) fun head => cursor_bind_abreast fun d d' hd => ?_
  refine .ite (by rw [hd.kind_eq, ne_eq, ne_eq, r.kind_eq_iff (by decide)]) ?_ ?_
  · refine .bind (note_abreast (outerError_retell hd _) hd.atFooter) fun _ => .pure ?_
    rw [Option.map_some, r.token_span]
  · refine .pure ?_
    rw [Option.map_some, r.token_span]

/-- The block of a module.  An empty one ends where it starts; and places keep their order, so that the
later of two is retold as the later one. -/
theorem block_abreast : Abreast r true false (Block.relabel r.toRelabeling) block block := by
  refine cursor_bind_abreast fun c c' hc => ?_
  rw [hc.remaining_eq, hc.token_eq, r.token_start]
  refine .bind (declarations_abreast _ _) fun declarations => .bind body_abreast fun body =>
    cursor_bind_abreast fun d d' hd => .pure ?_
  rw [Block.relabel, r.span_mk, hd.lastEnd rfl, r.mono.map_max]

/-! ### Modules

  A missing footer is reported at the end of input with the name of the module, and names are retold as
  they are. -/

/-- Which errors count as a missing footer depends on the place and on the cause only. -/
theorem asMissingFooter_retell {c c' : Cursor} (hc : Cursor.Retold r begun c c') (name : Ident)
    (e : SyntaxError) : (asMissingFooter name e c).retell r =
      asMissingFooter (name.relabel r.toRelabeling) (e.retell r) c' := by
  have hopen : (e.retell r).cause.isUnterminated = e.cause.isUnterminated := by
    rw [SyntaxError.retell]
    cases e.cause <;> rfl
  rw [asMissingFooter, asMissingFooter, hc.atEnd_eq, hopen]
  split
  · rfl
  · exact outerError_retell hc _

/-- Behind the header of a module, an error at the end of input is reported as a missing footer. -/
theorem inside_abreast {p p' : Recovering α} (name : Ident) (hp : Abreast r begun eats f p p') :
    Abreast r begun eats f (inside name p) (inside (name.relabel r.toRelabeling) p') := by
  intro options s s' hs
  have hrun := hp hs (x := options)
  unfold inside
  generalize p options s = result at hrun ⊢
  generalize p' options s' = result' at hrun ⊢
  cases hrun with
  | ok ha hs => exact .ok ha hs
  -- The rewritten error names the module, whose name is retold as well.
  | error he hs =>
    subst he
    exact .error (asMissingFooter_retell hs.cursor _ _) hs

/-- What the two kinds of module have in common: a header, imports, a part of their own and a footer,
with a span from the first token to the last. -/
theorem moduleOf_abreast {φ : α → α} {ψ : β → β} {f : γ → γ} {header : Parser α} {name : α → Ident}
    {middle : Recovering β} {make : α → List Import → β → Ident → Span → γ}
    (hh : Parser.Abreast r begun true φ header header)
    (hname : ∀ a, name (φ a) = (name a).relabel r.toRelabeling)
    (hm : Abreast r true false ψ middle middle)
    (hmake : ∀ a l b foot span, f (make a l b foot span) =
      make (φ a) (l.map (Import.relabel r.toRelabeling)) (ψ b) (foot.relabel r.toRelabeling)
        (r.span span)) :
    Abreast r begun true f (moduleOf header name middle make) (moduleOf header name middle make) := by
  refine cursor_bind_abreast fun c c' hc => ?_
  rw [hc.token_eq, r.token_start]
  refine (run_abreast _ hh).and_then fun h => ?_
  rw [hname]
  refine .bind (inside_abreast _ allImports_abreast) fun imports => .bind (inside_abreast _ hm)
    fun m => .bind (inside_abreast _ (run_abreast _ Parser.footer_abreast.weaken)) fun foot =>
    cursor_bind_abreast fun d d' hd => .pure_begun ?_
  rw [hmake, r.span_mk, hd.lastEnd rfl]

/-- In a definition module the part of its own is a list of declarations. -/
theorem definitionModule_abreast :
    Abreast r begun true (DefinitionModule.relabel r.toRelabeling) definitionModule
      definitionModule := by
  rw [definitionModule_eq_moduleOf]
  exact moduleOf_abreast Parser.definitionHeader_abreast (fun _ => rfl) allDeclarations_abreast
    fun _ _ _ _ _ => rfl

/-- In a program module it is a block. -/
theorem programModule_abreast :
    Abreast r begun true (ProgramModule.relabel r.toRelabeling) programModule programModule := by
  rw [programModule_eq_moduleOf]
  exact moduleOf_abreast Parser.programHeader_abreast (fun _ => rfl) block_abreast
    fun _ _ _ _ _ => rfl

/-- The first token tells which kind of module it is, or that there is none. -/
theorem anyModule_abreast :
    Abreast r begun true (CompilationUnit.relabel r.toRelabeling) anyModule anyModule := by
  refine cursor_bind_abreast fun c c' hc => ?_
  have hkind := hc.kind_eq
  generalize c.kind = k, c'.kind = k' at hkind ⊢
  apply kind_match_abreast hkind
  · rfl
  · rfl
  split
  · exact definitionModule_abreast.and_then fun m => .pure_begun rfl
  · exact programModule_abreast.and_then fun m => .pure_begun rfl
  · exact programModule_abreast.and_then fun m => .pure_begun rfl
  · exact run_abreast _ (Parser.fail_abreast fun _ => rfl)

/-- Behind the unit nothing may follow. -/
theorem endOfSource_abreast : Abreast r begun false id endOfSource endOfSource := by
  refine cursor_bind_abreast fun c c' hc => .ite (by rw [hc.atEnd_eq]) ?_ (.pure rfl)
  refine run_abreast _ (Parser.fail_abreast fun k => ?_)
  rw [SyntaxError.Cause.retell]

/-- Compilation units are read abreast. -/
theorem unit_abreast :
    Abreast r begun true (CompilationUnit.relabel r.toRelabeling) unit unit :=
  anyModule_abreast.and_then fun _ => .bind endOfSource_abreast fun _ => .pure_begun rfl

end Recovering

end Modula

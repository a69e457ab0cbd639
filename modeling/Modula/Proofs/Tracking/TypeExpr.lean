import Modula.Parser.TypeExpr
import Modula.Proofs.Reading.SimpleType
import Modula.Proofs.Tracking.Expr
/-!
# How far the parsers of types come

  Types and entries of records track the sentences that they read, again over parsers of what is inside
  (`typeAt_tracks`).

  Two places need more than the calculus of languages.  Whether a name with a colon behind it is a tag
  depends on the name and not only on its tokens (`tag_tracksFrom`); and it is the only place where an
  error is left behind.  The entries of a record end before a declaration, and then the closer of the record
  is missing there (`moreEntries_tracks`); what was read up to there still begins a record.
-/

namespace Modula

open Token.Kind (word symbol)

namespace Parser

/-! ## Simple types -/

/-- A node is made without taking tokens. -/
theorem typeNode_tracks (kind : TypeKind) (start : Nat) : (typeNode kind start).Tracks 1 :=
  freshId_tracks.bind_one fun _ => lastEnd_tracks.bind_one fun _ => pure_tracks _

section

variable {construct : Construct} {c : Cursor}

/-- Where a parenthesis stands, an enumeration begins. -/
theorem enumeration_tracksFrom (hc : c.kind = symbol .openParen) :
    enumeration.TracksFrom IsSimpleType.words construct c := by
  have hopener : advance.TracksFrom _ .enumeration c := advance_tracksFrom hc nofun
  refine .mono (hopener.bind (fun opener => identList_tracks.bind (fun names =>
      (close_tracks .enumeration opener).bind_one fun _ => pure_tracks _) rfl)
    (Language.append_mem_mul ⟨_, .idents (.one (.name ""))⟩ rfl)) ?_
  rintro _ ⟨_, rfl, _, ⟨w, ⟨names, hw⟩, _, rfl, rfl⟩, rfl⟩
  exact ⟨_, .enumeration hw⟩

/-- Where a bracket stands, a subrange begins. -/
theorem subrange_tracksFrom (hc : c.kind = symbol .openBracket) :
    subrange.TracksFrom IsSimpleType.words construct c := by
  have hhigh := Language.append_mem_mul isExpr_nonempty (mem_oneToken (symbol .closeBracket))
  have hsep := Language.append_mem_mul (mem_oneToken (symbol .ellipsis)) hhigh
  have hopener : advance.TracksFrom _ .subrangeType c := advance_tracksFrom hc nofun
  refine .mono (hopener.bind (fun opener => expr_tracks.bind (fun low =>
      (expect_tracks (by nofun)).bind (fun _ => expr_tracks.bind (fun high =>
        (close_tracks .subrange opener).bind_one fun _ => pure_tracks _) (mem_oneToken _)) hhigh) hsep)
    (Language.append_mem_mul isExpr_nonempty hsep)) ?_
  rintro _ ⟨_, rfl, _, ⟨u, ⟨low, hu⟩, _, ⟨_, rfl, _, ⟨v, ⟨high, hv⟩, _, rfl, rfl⟩, rfl⟩, rfl⟩, rfl⟩
  exact ⟨_, .subrange hu hv⟩

end

/-- A name is a simple type. -/
theorem isSimpleType_nonempty : [.name ""] ∈ IsSimpleType.words :=
  ⟨_, .named (.parts (.one (.name "")))⟩

/-- Any other token is an error in front of a simple type, which might have been a name. -/
theorem simpleType_tracks : simpleType.Tracks IsSimpleType.words := by
  intro construct c
  refine get_bind_tracksFrom (kind_bind_tracksFrom fun k hk => ?_)
  split
  · exact .mono (qualident_tracks.bind_one (fun _ => typeNode_tracks _ _) construct c)
      fun _ ⟨_, hw⟩ => ⟨_, .named hw⟩
  · exact .bind_one (enumeration_tracksFrom hk) fun _ => typeNode_tracks _ _
  · exact .bind_one (subrange_tracksFrom hk) fun _ => typeNode_tracks _ _
  · exact fail_tracksFrom isSimpleType_nonempty nofun

/-! ## Procedure types

  An optional part adds to the language, and nothing that was a beginning ceases to be one. -/

/-- A name is a qualified name. -/
theorem isQualident_nonempty : [.name ""] ∈ IsQualident.words := ⟨_, .parts (.one (.name ""))⟩

/-- The marks of a formal type are optional, so the language is a sum of products first. -/
theorem formal_tracks : formal.Tracks IsFormal.words := by
  -- each of the two words in front may be missing
  have htype : ∀ (isVar isOpenArray : Bool) (start : Nat), (do
      let type ← qualident
      return ⟨isVar, isOpenArray, type, ⟨start, ← lastEnd⟩⟩ : Parser FormalType).Tracks
        IsQualident.words :=
    fun _ _ _ => qualident_tracks.bind_one fun _ => lastEnd_tracks.bind_one fun _ => pure_tracks _
  let mode := oneToken (word .ARRAY) * (oneToken (word .OF) * IsQualident.words) + IsQualident.words
  intro construct c
  refine get_bind_tracksFrom (.mono (accept_bind_tracks (M := mode) (N := mode) (by nofun) ?_ ?_
    construct c) ?_)
  rotate_left 2
  · rintro _ (⟨_, rfl, _, ⟨_, rfl, _, ⟨_, rfl, w, ⟨q, hw⟩, rfl⟩, rfl⟩ | ⟨q, hw⟩, rfl⟩ |
      ⟨_, rfl, _, ⟨_, rfl, w, ⟨q, hw⟩, rfl⟩, rfl⟩ | ⟨q, hw⟩)
    · exact ⟨_, .formal true true hw⟩
    · exact ⟨_, .formal true false hw⟩
    · exact ⟨_, .formal false true hw⟩
    · exact ⟨_, .formal false false hw⟩
  all_goals
    exact accept_bind_tracks (by nofun)
      ((expect_tracks (by nofun)).bind (fun _ => htype _ _ _) isQualident_nonempty) (htype _ _ _)

/-- In front of the closing parenthesis nothing is taken. -/
theorem formalParams_tracks : formalParams.Tracks IsFormalParams.words := by
  intro construct c
  refine kind_bind_tracksFrom fun k _ => ?_
  split
  · exact (pure_tracks _ construct c).mono (by rintro _ rfl; exact ⟨_, .none⟩)
  · exact .mono ((sepBy_tracks (by nofun) formal_tracks).bind_one (fun _ => pure_tracks _)
      construct c) fun _ ⟨_, hw⟩ => ⟨_, .some hw⟩

theorem formalResult_tracks : formalResult.Tracks IsFormalResult.words := by
  refine .mono (accept_bind_tracks (by nofun) (qualident_tracks.bind_one fun _ => pure_tracks _)
    (pure_tracks _)) ?_
  rintro _ (⟨_, rfl, w, ⟨q, hw⟩, rfl⟩ | rfl)
  · exact ⟨_, .some hw⟩
  · exact ⟨_, .none⟩

/-- Parameters in parentheses, and a result that may be missing. -/
theorem formals_tracks : formals.Tracks IsFormals.words := by
  have hresult : [] ∈ IsFormalResult.words := ⟨_, .none⟩
  have hclose := Language.append_mem_mul (mem_oneToken (symbol .closeParen)) hresult
  refine .mono (within_tracks _ ((expect_tracks (by nofun)).bind (fun opener =>
    formalParams_tracks.bind (fun params => (close_tracks .formalParameters opener).bind (fun _ =>
      formalResult_tracks.bind_one fun _ => lastEnd_tracks.bind_one fun _ => pure_tracks _)
      hresult) hclose) (Language.append_mem_mul ⟨_, .none⟩ hclose))) ?_
  rintro _ ⟨_, rfl, _, ⟨u, ⟨params, hu⟩, _, ⟨_, rfl, v, ⟨result, hv⟩, rfl⟩, rfl⟩, rfl⟩
  exact ⟨_, .formals hu hv⟩

/-- The word alone is a type, so formal types may be missing. -/
theorem procedureType_tracks : procedureType.Tracks IsType.words := by
  refine .mono (within_tracks _ ((expect_tracks (by nofun)).bind (M := IsFormals.words + 1)
    (fun head construct c => ?_) (Or.inr rfl))) ?_
  · refine kind_bind_tracksFrom fun k _ => ?_
    split
    · exact (formals_tracks.bind_one (fun _ => typeNode_tracks _ _) construct c).mono le_self_add
    · exact (typeNode_tracks _ _ construct c).mono le_add_self
  · rintro _ ⟨_, rfl, w, ⟨f, hw⟩ | rfl, rfl⟩
    · exact ⟨_, .procedureWith hw⟩
    · exact ⟨_, .procedure⟩

/-! ## Array, set and pointer types

  The element type is tracked by assumption. -/

/-- The shortest type of all is a word. -/
theorem isType_nonempty : [word .PROCEDURE] ∈ IsType.words := ⟨_, .procedure⟩

theorem arrayNode_tracks (start : Nat) (index element : TypeExpr) :
    (arrayNode start index element).Tracks 1 :=
  freshId_tracks.bind_one fun _ => pure_tracks _

/-- The nodes of nested arrays are made without taking tokens. -/
theorem nestedArrays_tracks (element : TypeExpr) (l : List TypeExpr) :
    (nestedArrays l element).Tracks 1 := by
  induction l with
  | nil => exact pure_tracks _
  | cons index more ih => exact ih.bind_one fun _ => arrayNode_tracks _ _ _

/-- Two words and a simple type. -/
theorem setType_tracks : setType.Tracks IsType.words := by
  refine .mono (within_tracks _ ((expect_tracks (by nofun)).bind (fun _ =>
    (expect_tracks (by nofun)).bind (fun _ => simpleType_tracks.bind_one fun _ =>
      freshId_tracks.bind_one fun _ => pure_tracks _) isSimpleType_nonempty)
    (Language.append_mem_mul (mem_oneToken _) isSimpleType_nonempty))) ?_
  rintro _ ⟨_, rfl, _, ⟨_, rfl, w, ⟨t, hw⟩, rfl⟩, rfl⟩
  exact ⟨_, .set hw⟩

section

variable {type : Parser TypeExpr} {entry : Parser FieldList}

/-- Index types, `OF`, and an element type. -/
theorem arrayTypeWith_tracks (ht : type.Tracks IsType.words) :
    (arrayTypeWith type).Tracks IsType.words := by
  have hof := Language.append_mem_mul (mem_oneToken (word .OF)) isType_nonempty
  refine .mono (within_tracks _ ((expect_tracks (by nofun)).bind (fun _ =>
    (sepBy_tracks (by nofun) simpleType_tracks).bind (fun _ => (expect_tracks (by nofun)).bind
      (fun _ => ht.bind_one fun element => (nestedArrays_tracks element _).bind_one fun _ =>
        arrayNode_tracks _ _ _) isType_nonempty) hof)
    (Language.append_mem_mul ⟨_, .one (.named (.parts (.one (.name ""))))⟩ hof))) ?_
  rintro _ ⟨_, rfl, _, ⟨u, ⟨indexes, hu⟩, _, ⟨_, rfl, v, ⟨t, hv⟩, rfl⟩, rfl⟩, rfl⟩
  exact ⟨_, .array hu hv⟩

/-- Two words and a type. -/
theorem pointerTypeWith_tracks (ht : type.Tracks IsType.words) :
    (pointerTypeWith type).Tracks IsType.words := by
  refine .mono (within_tracks _ ((expect_tracks (by nofun)).bind (fun _ =>
    (expect_tracks (by nofun)).bind (fun _ => ht.bind_one fun _ =>
      freshId_tracks.bind_one fun _ => pure_tracks _) isType_nonempty)
    (Language.append_mem_mul (mem_oneToken _) isType_nonempty))) ?_
  rintro _ ⟨_, rfl, _, ⟨_, rfl, w, ⟨t, hw⟩, rfl⟩, rfl⟩
  exact ⟨_, .pointer hw⟩

/-! ## Records

  A variant part is the one phrase whose parser may be late: it has read a name and a colon before it
  finds out that the name must not be qualified. -/

/-- A name, a colon and the shortest type make an entry. -/
theorem isEntry_nonempty : [.name "", symbol .colon, word .PROCEDURE] ∈ IsEntry.words :=
  ⟨_, .fields (.idents (.one (.name ""))) .procedure⟩

theorem isEntries_nonempty : [.name "", symbol .colon, word .PROCEDURE] ∈ IsEntries.words :=
  ⟨_, .one (.fields (.idents (.one (.name ""))) .procedure)⟩

section

variable (he : entry.Tracks IsEntry.words)

include he

/-- By induction on the budget: what is read so far is a list of entries at every stop. -/
theorem moreEntries_tracks (budget : Nat) :
    (moreEntries entry budget).Tracks FurtherEntries.words := by
  have hnone : ([] : List Token.Kind) ∈ FurtherEntries.words := ⟨[], Or.inl ⟨rfl, rfl⟩⟩
  -- where a declaration begins the parser stops with a value, and the caller finds that the `END` is
  -- missing
  induction budget with
  | zero => exact (pure_tracks _).mono (by rintro _ rfl; exact hnone)
  | succ budget ih =>
    rw [moreEntries]
    refine .mono (accept_bind_tracks (M := IsEntry.words * FurtherEntries.words + 1) (by nofun)
      (fun construct c => get_bind_tracksFrom ?_) (pure_tracks _)) ?_
    · split
      · exact (pure_tracks _ construct c).mono le_add_self
      · exact (he.bind (fun e => ih.bind_one fun more => pure_tracks _) hnone construct c).mono
          le_self_add
    · rintro _ (⟨_, rfl, _, ⟨u, ⟨e, hu⟩, v, ⟨l, hv⟩, rfl⟩ | rfl, rfl⟩ | rfl)
      · exact ⟨e :: l, Or.inr (Or.inr ⟨u ++ v, rfl, isEntries_cons_iff.2 ⟨u, v, rfl, hu, hv⟩⟩)⟩
      · exact ⟨[], Or.inr (Or.inl ⟨rfl, rfl⟩)⟩
      · exact hnone

theorem entriesWith_tracks : (entriesWith entry).Tracks IsEntries.words := by
  have hmore : ∀ first : FieldList, (do
      let more ← moreEntries entry (← remaining)
      return first :: more : Parser _).Tracks FurtherEntries.words :=
    fun first construct c => remaining_bind_tracksFrom
      ((moreEntries_tracks he _).bind_one (fun more => pure_tracks _) construct c)
  refine .mono (he.bind hmore ⟨[], Or.inl ⟨rfl, rfl⟩⟩) ?_
  rintro _ ⟨u, ⟨e, hu⟩, v, ⟨l, hv⟩, rfl⟩
  exact ⟨e :: l, isEntries_cons_iff.2 ⟨u, v, rfl, hu, hv⟩⟩

/-- The error about a missing `END` stands behind entries, and so in time. -/
theorem recordTypeWith_tracks : (recordTypeWith entry).Tracks IsType.words := by
  refine .mono (within_tracks _ ((expect_tracks (by nofun)).bind (fun opener =>
    (entriesWith_tracks he).bind (fun _ => (close_tracks .record opener).bind_one fun _ =>
      typeNode_tracks _ _) (mem_oneToken _))
    (Language.append_mem_mul isEntries_nonempty (mem_oneToken _)))) ?_
  rintro _ ⟨_, rfl, _, ⟨w, ⟨l, hw⟩, _, rfl, rfl⟩, rfl⟩
  exact ⟨_, .record hw⟩

end

end

/-- Whether a name is qualified is seen in its tokens. -/
theorem isIdent_of_isQualident {w : List Token.Kind} {q : Qualident}
    (hw : IsQualident w (q.relabel .forget)) (hq : q.isQualified = false) :
    IsIdent w (q.first.relabel .forget) := by
  obtain ⟨i, more, span⟩ := q
  obtain rfl : more = [] := by simpa [Qualident.isQualified] using hq
  cases hw with
  | parts hs =>
    cases hs with
    | one hi => exact hi
    | more _ hl => cases hl

/-- The parser was at a qualified name with a colon behind it, and went on over both with an error about
the name. -/
def Overran {α : Type} (p : Parser α) (construct : Construct) (c : Cursor) : Prop :=
  ∃ e c' w q, p construct c = .error e c' ∧ e.StandsAt c ∧ c.Reaches (w ++ [symbol .colon]) c' ∧
    IsQualident w q ∧ q.isQualified = true ∧ e.IsOfGrammar

/-- A tag that begins with a name. -/
def namedTag : Parser (Option Ident × Qualident) := do
  let before ← get
  let first ← qualident
  if ← accept (symbol .colon) then
    if first.isQualified then failAt before .qualifiedTag
    else return (some first.name, ← qualident)
  else return (none, first)

/-- What a tag without a colon in front is, has a name of its own. -/
theorem tag_eq : tag = (do
    if ← accept (symbol .colon) then return (none, ← qualident) else namedTag) := rfl

/-- If the name is qualified and a colon follows, the error stands in front of both. -/
theorem namedTag_tracksFrom (construct : Construct) (c : Cursor) :
    namedTag.TracksFrom IsTag.words construct c ∨ namedTag.Overran construct c := by
  have htypeOnly : IsQualident.words ≤ IsTag.words := fun _ ⟨_, hw⟩ => ⟨_, .typeOnly hw⟩
  have hname := qualident_tracks construct c
  cases h : qualident construct c with
  | error e c' =>
    have hnamed : namedTag construct c = .error e c' := bind_of_error h _
    exact Or.inl (.of_error hnamed ((hname.fails h).mono htypeOnly))
  | ok first d =>
    obtain ⟨w, ⟨q, hw⟩, hc⟩ := hname.reaches h
    obtain ⟨w', hkinds, hfirst⟩ := qualident_readsOnly h
    obtain rfl : w = w' := List.append_cancel_right (hc.kinds_eq.symm.trans hkinds)
    have hnamed : namedTag construct c = (do
        if ← accept (symbol .colon) then
          if first.isQualified then failAt c .qualifiedTag
          else return (some first.name, ← qualident)
        else return (none, first) : Parser (Option Ident × Qualident)) construct d := bind_of_ok h
    by_cases hk : d.kind = symbol .colon
    · have hcolon := Cursor.reaches_advance hk (by decide)
      rw [bind_of_ok (accept_of_kind hk), if_pos rfl] at hnamed
      by_cases hq : first.isQualified = true
      · rw [if_pos hq] at hnamed
        have hqualified : (first.relabel .forget).isQualified = true := by
          rw [← hq]
          simp [Qualident.isQualified, Qualident.relabel]
        refine Or.inr ⟨_, _, w, _, hnamed, ⟨rfl, rfl⟩, hc.trans hcolon, hfirst, hqualified, ?_⟩
        rintro feature ⟨⟩
      · rw [if_neg hq] at hnamed
        have hident := isIdent_of_isQualident hfirst (Bool.not_eq_true _ ▸ hq)
        -- behind the colon, the type of the tag is read as any other name
        have htype : (do return (some first.name, ← qualident) :
            Parser (Option Ident × Qualident)).Tracks IsQualident.words :=
          qualident_tracks.bind_one fun _ => pure_tracks _
        refine Or.inl (.of_reaches hnamed (hc.trans hcolon) (htype construct d.advance) ?_)
        rintro v ⟨type, hv⟩
        rw [List.append_assoc]
        exact ⟨_, .named hident hv⟩
    · rw [bind_of_ok (accept_of_kind_ne hk)] at hnamed
      exact Or.inl (.of_ok hnamed (htypeOnly ⟨q, hw⟩) hc)

/-- A tag is tracked, or it is the qualified name with a colon that is found too late. -/
theorem tag_tracksFrom (construct : Construct) (c : Cursor) :
    tag.TracksFrom IsTag.words construct c ∨ tag.Overran construct c := by
  by_cases hk : c.kind = symbol .colon
  · have hunnamed : (do return (none, ← qualident) :
        Parser (Option Ident × Qualident)).Tracks IsQualident.words :=
      qualident_tracks.bind_one fun _ => pure_tracks _
    refine Or.inl (.of_reaches (bind_of_ok (accept_of_kind hk)) (Cursor.reaches_advance hk nofun)
      (hunnamed construct c.advance) ?_)
    rintro v ⟨q, hv⟩
    exact ⟨_, .unnamed hv⟩
  · have heq : tag construct c = namedTag construct c := by
      rw [tag_eq, bind_of_ok (accept_of_kind_ne hk)]
      rfl
    rcases namedTag_tracksFrom construct c with htracks | ⟨e, c', w, q, hrun, h⟩
    · exact Or.inl (.of_reaches heq (.refl c) htracks fun _ hw => hw)
    · exact Or.inr ⟨e, c', w, q, heq.trans hrun, h⟩

/-- Behind the `CASE` of a variant part a tag may be overrun. -/
theorem caseTag_tracks {β : Type} {M : Language Token.Kind} {w : List Token.Kind}
    {g : Token → Option Ident × Qualident → Parser β} (hg : ∀ opener t, (g opener t).Tracks M)
    (hw : w ∈ M) : (do
      let opener ← expect (word .CASE)
      let t ← tag
      g opener t).Tracks (oneToken (word .CASE) * (IsTag.words * M)) := by
  have htag : [.name ""] ∈ IsTag.words := ⟨_, .typeOnly (.parts (.one (.name "")))⟩
  have hword := Language.append_mem_mul (mem_oneToken (word .CASE)) (Language.append_mem_mul htag hw)
  intro construct c
  by_cases hc : c.kind = word .CASE
  · have hcase := Cursor.reaches_advance hc nofun
    rcases tag_tracksFrom construct c.advance with
      htracks | ⟨e, c', v, q, hrun, he, hreach, hv, hq, hcause⟩
    · exact .of_reaches (bind_of_ok (expect_of_kind hc)) hcase (htracks.bind (hg _) hw)
        fun v hv => Language.append_mem_mul (mem_oneToken _) hv
    · refine .of_error ((bind_of_ok (expect_of_kind hc)).trans (bind_of_error hrun _))
        ⟨[word .CASE], c.advance, v ++ [symbol .colon], hcase, ⟨_, hword⟩, he, hreach, ?_, hcause⟩
      exact Or.inr ⟨List.suffix_refl _, v, q, rfl, hv, hq⟩
  · exact .of_error (bind_of_error (if_neg hc) _) (.here hword ⟨rfl, rfl⟩ nofun)

section

variable {type : Parser TypeExpr} {entry : Parser FieldList}

/-- Names, a colon and a type. -/
theorem fieldsWith_tracks (ht : type.Tracks IsType.words) :
    (fieldsWith type).Tracks IsEntry.words := by
  refine .mono (identList_tracks.bind (fun _ => (expect_tracks (by nofun)).bind (fun _ =>
    ht.bind_one fun _ => pure_tracks _) isType_nonempty)
    (Language.append_mem_mul (mem_oneToken _) isType_nonempty)) ?_
  rintro _ ⟨u, ⟨names, hu⟩, _, ⟨_, rfl, v, ⟨t, hv⟩, rfl⟩, rfl⟩
  exact ⟨_, .fields hu hv⟩

section

variable (he : entry.Tracks IsEntry.words)

include he

/-- Labels, a colon and entries. -/
theorem armWith_tracks : (armWith entry).Tracks IsArm.words := by
  intro construct c
  refine get_bind_tracksFrom (.mono ((sepBy_tracks (by nofun) rangeItem_tracks).bind (fun _ =>
    (expect_tracks (by nofun)).bind (fun _ => (entriesWith_tracks he).bind_one fun _ =>
      lastEnd_tracks.bind_one fun _ => pure_tracks _) isEntries_nonempty)
    (Language.append_mem_mul (mem_oneToken _) isEntries_nonempty) construct c) ?_)
  rintro _ ⟨u, ⟨labels, hu⟩, _, ⟨_, rfl, v, ⟨l, hv⟩, rfl⟩, rfl⟩
  exact ⟨_, .arm hu hv⟩

/-- Nothing is taken where `ELSE` is missing. -/
theorem otherwiseWith_tracks : (otherwiseWith entry).Tracks IsOtherwise.words := by
  refine .mono (accept_bind_tracks (by nofun) ((entriesWith_tracks he).bind_one fun _ =>
    pure_tracks _) (pure_tracks _)) ?_
  rintro _ (⟨_, rfl, w, ⟨l, hw⟩, rfl⟩ | rfl)
  · exact ⟨_, .some hw⟩
  · exact ⟨_, .none⟩

/-- If the tag was overrun, the `CASE` in front of it is what the exception asks for. -/
theorem variantPartWith_tracks : (variantPartWith entry).Tracks IsEntry.words := by
  obtain ⟨arm, harm⟩ : ∃ w, w ∈ Phrase.words (Separated (symbol .bar) IsArm) :=
    ⟨_, _, .one (.arm (.one (.one (IsFactor.string "").isExpr)) isEntries_nonempty.choose_spec)⟩
  have hotherwise : [] ∈ IsOtherwise.words := ⟨_, .none⟩
  have hend := Language.append_mem_mul hotherwise (mem_oneToken (word .END))
  have hof := Language.append_mem_mul (mem_oneToken (word .OF)) (Language.append_mem_mul harm hend)
  refine .mono (within_tracks _ (caseTag_tracks (fun opener _ =>
    (expect_tracks (by nofun)).bind (fun _ =>
      (sepBy_tracks (by nofun) (armWith_tracks he)).bind (fun _ => (otherwiseWith_tracks he).bind
        (fun _ => (close_tracks .variantPart opener).bind_one fun _ =>
          lastEnd_tracks.bind_one fun _ => pure_tracks _) (mem_oneToken _)) hend)
      (Language.append_mem_mul harm hend)) hof)) ?_
  rintro _ ⟨_, rfl, _, ⟨t, ⟨⟨name, type⟩, ht⟩, _, ⟨_, rfl, _, ⟨u, ⟨arms, hu⟩, _,
    ⟨v, ⟨otherwise, hv⟩, _, rfl, rfl⟩, rfl⟩, rfl⟩, rfl⟩, rfl⟩
  exact ⟨_, .variants ht hu hv⟩

end

/-! ## Types -/

/-- The first token is the first one of a phrase, or an error in front of a simple type. -/
theorem typeWith_tracks (ht : type.Tracks IsType.words) (he : entry.Tracks IsEntry.words) :
    (typeWith type entry).Tracks IsType.words := by
  intro construct c
  refine kind_bind_tracksFrom fun k _ => ?_
  split
  · exact arrayTypeWith_tracks ht construct c
  · exact recordTypeWith_tracks he construct c
  · exact setType_tracks construct c
  · exact pointerTypeWith_tracks ht construct c
  · exact procedureType_tracks construct c
  · exact (simpleType_tracks construct c).mono fun _ ⟨_, hw⟩ => ⟨_, .simple hw⟩

/-- Either kind of entry. -/
theorem entryWith_tracks (ht : type.Tracks IsType.words) (he : entry.Tracks IsEntry.words) :
    (entryWith type entry).Tracks IsEntry.words := by
  intro construct c
  refine kind_bind_tracksFrom fun k _ => ?_
  split
  · exact variantPartWith_tracks he construct c
  · exact fieldsWith_tracks ht construct c

end

/-- With no budget left there is an error, which is in time as nothing has been taken. -/
theorem typeAt_tracks (budget : Nat) :
    (typeAt budget).Tracks IsType.words ∧ (entryAt budget).Tracks IsEntry.words := by
  induction budget with
  | zero => exact ⟨fail_tracks isType_nonempty nofun, fail_tracks isEntry_nonempty nofun⟩
  | succ budget ih =>
    obtain ⟨ht, he⟩ := ih
    exact ⟨typeWith_tracks ht he, entryWith_tracks ht he⟩

/-- Types are tracked, with the budget of all tokens left. -/
theorem type_tracks : type.Tracks IsType.words :=
  fun construct c => remaining_bind_tracksFrom ((typeAt_tracks _).1 construct c)

end Parser

end Modula

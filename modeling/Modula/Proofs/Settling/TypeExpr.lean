import Modula.Proofs.Settling.Expr
import Modula.Proofs.Tracking.TypeExpr
/-!
# The repetitions in types settle

  Types and entries of records are nested in each other, so they settle together: a turn makes a reader
  of types and a reader of entries out of two such readers.  Every nested type or entry stands behind a
  token of its own, a keyword or the colon of a field.

  With that, all repetitions of the parsers settle (`repetitions_settle`).  Most of the lists are lists
  with separators, of identifiers, indexes, parameters, labels, arms and elements of sets.
-/

namespace Modula.Parser

open Token.Kind (word symbol)

variable {n : Nat}

/-! ## Entries of records -/

/-- One further entry, and more of them. -/
def moreEntriesTurn (entry : Parser FieldList) (more : Parser (List FieldList)) :
    Parser (List FieldList) := do
  if ← accept (.symbol .semicolon) then
    if (← get).endsEntries then return []
    else
      let e ← entry
      let more ← more
      return e :: more
  else return []

section

variable {entry entry' : Parser FieldList}

/-- A semicolon is taken in each turn. -/
theorem moreEntries_settles (he : entry.Forward) :
    Settles AgreeBelow (moreEntriesTurn entry) (moreEntries entry) := by
  refine .of_turn (fun n => rfl) AgreeBelow.zero (fun q construct c hc => ?_) fun n budget q h => ?_
  · have hne : c.kind ≠ .symbol .semicolon := by
      rw [Cursor.kind_eq_eof hc]
      nofun
    rw [moreEntriesTurn, bind_of_ok (accept_of_kind_ne hne)]
    rfl
  · refine .after_accept (by nofun) (.get_bind fun c => ?_) rfl
    split
    · exact .refl _
    · exact .then_bind he fun e => h.bind_same _

/-- Entries that agree make rows that do. -/
theorem moreEntries_agree (he : entry.Forward) (h : AgreeBelow n entry entry') (budget : Nat) :
    AgreeBelow n (moreEntries entry budget) (moreEntries entry' budget) := by
  induction budget with
  | zero => exact .refl _
  | succ budget ih =>
    refine .accept_bind fun taken => ?_
    split
    · refine .get_bind fun c => ?_
      split
      · exact .refl _
      · exact h.bind he fun e => ih.bind_same _
    · exact .refl _

end

/-! ## Types

  Each phrase takes a token before it asks for the types inside of it. -/

/-- A tag moves forward, although it may fail for a name that it has passed. -/
theorem tag_forward : tag.Forward := by
  intro construct c
  rcases tag_tracksFrom construct c with htracks | ⟨e, c', w, q, hrun, -, hreach, -⟩
  · exact TracksFrom.forwardFrom htracks
  · rw [ForwardFrom, hrun]
    exact hreach.le

section

variable {type type' : Parser TypeExpr} (ht : AgreeBelow n type type')

include ht

/-- An array takes its word before it asks for a type, and so a level is gained. -/
theorem arrayTypeWith_agree : AgreeBelow (n + 1) (arrayTypeWith type) (arrayTypeWith type') :=
  .within _ (.after (expect_tracks (by nofun)) (nil_not_mem_oneToken _) fun head =>
    .then_bind (sepBy_tracks (by nofun) simpleType_tracks).forward fun indexes =>
      .then_bind (expect_forward _) fun of => ht.bind_same _)

theorem pointerTypeWith_agree : AgreeBelow (n + 1) (pointerTypeWith type) (pointerTypeWith type') :=
  .within _ (.after (expect_tracks (by nofun)) (nil_not_mem_oneToken _) fun head =>
    .then_bind (expect_forward _) fun _ => ht.bind_same _)

/-- A line of fields takes a name and a colon first. -/
theorem fieldsWith_agree : AgreeBelow (n + 1) (fieldsWith type) (fieldsWith type') :=
  .then_bind identList_tracks.forward fun names =>
    .after (expect_tracks (by nofun)) (nil_not_mem_oneToken _) fun colon => ht.bind_same _

end

section

variable {entry entry' : Parser FieldList} (hforward : entry.Tracks IsEntry.words)
  (he : AgreeBelow n entry entry')

include hforward he

/-- An entry may come at once, so no level is gained here. -/
theorem entriesWith_agree : AgreeBelow n (entriesWith entry) (entriesWith entry') :=
  he.bind hforward.forward fun _ => .remaining_bind fun r =>
    (moreEntries_agree hforward.forward he r).bind_same _

/-- `RECORD` is taken in front of the entries. -/
theorem recordTypeWith_agree : AgreeBelow (n + 1) (recordTypeWith entry) (recordTypeWith entry') :=
  .within _ (.after (expect_tracks (by nofun)) (nil_not_mem_oneToken _) fun opener =>
    (entriesWith_agree hforward he).bind_same _)

theorem armWith_agree : AgreeBelow n (armWith entry) (armWith entry') :=
  .get_bind fun c => .then_bind (sepBy_tracks (by nofun) rangeItem_tracks).forward fun labels =>
    .then_bind (expect_forward _) fun colon =>
      (entriesWith_agree hforward he).bind_same _

/-- The same for `ELSE`, though it may be missing. -/
theorem otherwiseWith_agree : AgreeBelow n (otherwiseWith entry) (otherwiseWith entry') := by
  refine .accept_bind fun taken => ?_
  split
  · exact (entriesWith_agree hforward he).bind_same _
  · exact .refl _

/-- `CASE` is taken in front of all arms. -/
theorem variantPartWith_agree : AgreeBelow (n + 1) (variantPartWith entry) (variantPartWith entry') :=
  .within _ (.after (expect_tracks (by nofun)) (nil_not_mem_oneToken _) fun opener =>
    .then_bind tag_forward fun tag => .then_bind (expect_forward _) fun of =>
      (sepBy_agree (armWith_tracks hforward).forward (armWith_agree hforward he)).bind
        (sepBy_tracks (by nofun) (armWith_tracks hforward)).forward fun arms =>
          (otherwiseWith_agree hforward he).bind_same _)

end

section

variable {type type' : Parser TypeExpr} {entry entry' : Parser FieldList}
  (hforward : entry.Tracks IsEntry.words) (ht : AgreeBelow n type type') (he : AgreeBelow n entry entry')

include hforward ht he

/-- Types that ask for others have taken a token by then. -/
theorem typeWith_agree : AgreeBelow (n + 1) (typeWith type entry) (typeWith type' entry') := by
  refine .kind_bind fun k => ?_
  split
  · exact arrayTypeWith_agree ht
  · exact recordTypeWith_agree hforward he
  · exact .refl _
  · exact pointerTypeWith_agree ht
  · exact .refl _
  · exact .refl _

theorem entryWith_agree : AgreeBelow (n + 1) (entryWith type entry) (entryWith type' entry') := by
  refine .kind_bind fun k => ?_
  split
  · exact variantPartWith_agree hforward he
  · exact fieldsWith_agree ht

end

/-! ## Nesting

  Types and entries ask for each other, so that they are unrolled as a pair. -/

section

variable {type : Parser TypeExpr} {entry : Parser FieldList} {construct : Construct} {c : Cursor}
  (hc : c.kind = .eof)

include hc

/-- At the end of the source there is no type, whatever types within would be. -/
theorem typeWith_of_eof :
    typeWith type entry construct c = fail .expectedType construct c := by
  rw [typeWith, kind_bind_of_kind hc]
  dsimp only
  rw [simpleType, bind_of_ok (get_apply construct c), kind_bind_of_kind hc]

/-- Nor is there an entry. -/
theorem entryWith_of_eof :
    entryWith type entry construct c = fail (.expected .name) construct c := by
  have hident : ident construct c =
      .error ⟨.expected .name c.kind, c.token, c.remaining, construct⟩ c := by
    unfold ident
    split
    · next text hname => cases hname.symm.trans hc
    · rfl
  rw [entryWith, kind_bind_of_kind hc, if_neg (by nofun)]
  exact bind_of_error (bind_of_error (bind_of_error hident _) _) _

end

/-- Readers of types and of entries. -/
abbrev Nested := Parser TypeExpr × Parser FieldList

/-- Both readers agree. -/
def NestedAgreeBelow (n : Nat) (p q : Nested) : Prop :=
  AgreeBelow n p.1 q.1 ∧ AgreeBelow n p.2 q.2

/-- Readers of types and of entries, given those of what is inside them. -/
def nestedTurn (inner : Nested) : Nested := (typeWith inner.1 inner.2, entryWith inner.1 inner.2)

/-- The readers of types and of entries that are nested no deeper than a budget. -/
def nestedAt (budget : Nat) : Nested := (typeAt budget, entryAt budget)

/-- Types and entries settle together, as one repetition over pairs of readers. -/
theorem nestedAt_settles : Settles NestedAgreeBelow nestedTurn nestedAt := by
  refine .of_turn (fun n => rfl) (fun p q => ⟨.zero _ _, .zero _ _⟩) (fun q => ⟨?_, ?_⟩)
    fun n budget q h => ?_
  · exact fun construct c hc => (typeWith_of_eof (Cursor.kind_eq_eof hc)).symm
  · exact fun construct c hc => (entryWith_of_eof (Cursor.kind_eq_eof hc)).symm
  · obtain ⟨-, hforward⟩ := typeAt_tracks budget
    exact ⟨typeWith_agree hforward h.1 h.2, entryWith_agree hforward h.1 h.2⟩

/-- However deep the readers of types and entries are stacked, a type is read as with a budget. -/
theorem type_settles (bottom : Nested) {construct : Construct} {c : Cursor} {n : Nat}
    (hn : c.remaining < n) : type construct c = (nestedTurn^[n] bottom).1 construct c :=
  (nestedAt_settles.of_lt bottom hn).1 construct c (Nat.lt_succ_self _)

/-! ## All together -/

/-- No repetition of the parsers has to be ended by its budget.  Lists are told with their items as these
are read on any budget, and nesting is told for factors, and for types and entries together. -/
structure RepetitionsSettle : Prop where
  expressions : ∀ bottom construct c n, c.remaining < n →
    expr construct c = exprWith (factorWith^[n] bottom) construct c
  types : ∀ bottom construct c n, c.remaining < n →
    type construct c = (nestedTurn^[n] bottom).1 construct c
  factors : Settles AgreeBelow factorWith factorAt
  nested : Settles NestedAgreeBelow nestedTurn nestedAt
  identifiers : Settles AgreeBelow (moreAfterTurn (symbol .comma) ident)
    (moreAfter (symbol .comma) ident)
  segments : Settles AgreeBelow segmentsTurn segments
  multiplications : ∀ budget, Settles OperationsAgreeBelow
    (operationsTurn .multiplicative (factorAt budget)) (operations .multiplicative (factorAt budget))
  additions : ∀ budget, Settles OperationsAgreeBelow
    (operationsTurn .additive (termWith (factorAt budget)))
    (operations .additive (termWith (factorAt budget)))
  elements : ∀ budget, Settles AgreeBelow
    (moreAfterTurn (symbol .comma) (rangeItemWith (factorAt budget)))
    (moreAfter (symbol .comma) (rangeItemWith (factorAt budget)))
  labels : Settles AgreeBelow (moreAfterTurn (symbol .comma) rangeItem)
    (moreAfter (symbol .comma) rangeItem)
  indexes : Settles AgreeBelow (moreAfterTurn (symbol .comma) simpleType)
    (moreAfter (symbol .comma) simpleType)
  formals : Settles AgreeBelow (moreAfterTurn (symbol .comma) formal)
    (moreAfter (symbol .comma) formal)
  entries : ∀ budget, Settles AgreeBelow (moreEntriesTurn (entryAt budget))
    (moreEntries (entryAt budget))
  arms : ∀ budget, Settles AgreeBelow (moreAfterTurn (symbol .bar) (armWith (entryAt budget)))
    (moreAfter (symbol .bar) (armWith (entryAt budget)))

/-- All repetitions of the parsers end by themselves. -/
theorem repetitions_settle : RepetitionsSettle where
  expressions bottom _ _ _ hn := expr_settles bottom hn
  types bottom _ _ _ hn := type_settles bottom hn
  factors := factorAt_settles
  nested := nestedAt_settles
  identifiers := moreAfter_settles (by nofun) ident_tracks.forward
  segments := segments_settle
  multiplications budget := operations_settle _ (factorAt_tracks budget).forward
  additions budget := operations_settle _ (termWith_tracks (factorAt_tracks budget)).forward
  elements budget := moreAfter_settles (by nofun)
    (rangeItemWith_tracks (factorAt_tracks budget)).forward
  labels := moreAfter_settles (by nofun) rangeItem_tracks.forward
  indexes := moreAfter_settles (by nofun) simpleType_tracks.forward
  formals := moreAfter_settles (by nofun) formal_tracks.forward
  entries budget := moreEntries_settles (typeAt_tracks budget).2.forward
  arms budget := moreAfter_settles (by nofun) (armWith_tracks (typeAt_tracks budget).2).forward

end Modula.Parser

import Modula.Parser.TypeExpr
import Modula.Proofs.Abreast.Expr
/-!
# Readers of types abreast

  The only looks at tokens that are not of the kind that expressions take are those at the end of the
  entries of a record: whether a declaration begins behind them (`Cursor.Retold.endsEntries_eq`).
-/

namespace Modula

open Token.Kind (word symbol)

variable {r : Retelling} {begun : Bool}

/-! ## Looking at declarations

  The parsers of types look at more than one token where entries end.  What they look for is plain. -/

namespace Cursor.Retold

variable {c c' : Cursor}

/-- A name and an equal sign, or one of the words that open a section, are plain tokens. -/
theorem beginsDeclaration_eq (h : Retold r begun c c') : c'.beginsDeclaration = c.beginsDeclaration := by
  have hequal : (c'.kindAfter == symbol .equal) = (c.kindAfter == symbol .equal) := by
    rw [h.kindAfter_eq, Bool.eq_iff_iff, beq_iff_eq, beq_iff_eq]
    exact r.kind_eq_iff (by decide) _
  unfold beginsDeclaration
  rw [hequal, h.kind_eq]
  -- The operators with two spellings begin no declaration.
  generalize c.kind = k
  rcases r.kind_eq k with hk | ⟨rfl, hk⟩ | ⟨rfl, hk⟩ <;> rw [hk]

/-- What ends the entries of a record is plain too: none of it is an operator. -/
theorem endsEntries_eq (h : Retold r begun c c') : c'.endsEntries = c.endsEntries := by
  unfold endsEntries
  rw [h.beginsDeclaration_eq, h.kind_eq]
  generalize c.kind = k
  rcases r.kind_eq k with hk | ⟨rfl, hk⟩ | ⟨rfl, hk⟩ <;> rw [hk]

end Cursor.Retold

/-- Whether there is a module in front of a name is not a matter of places. -/
theorem Qualident.relabel_isQualified (r : Relabeling) (q : Qualident) :
    (q.relabel r).isQualified = q.isQualified := by
  rw [isQualified, isQualified, relabel, List.isEmpty_map]

/-- The last segment of a name is retold as the last segment. -/
theorem Qualident.relabel_name (r : Relabeling) (q : Qualident) :
    (q.relabel r).name = q.name.relabel r :=
  List.getLast_map (f := Ident.relabel r) (l := q.parts) (List.cons_ne_nil _ _)

namespace Parser

/-! ## Simple types

  A type starts where the cursor stands and ends with the last token that was read, and both are retold. -/

/-- The node of a type, from where it starts to the end of the last token read. -/
theorem typeNode_abreast (kind : TypeKind) (start : Nat) :
    Abreast r true true (TypeExpr.relabel r.toRelabeling) (typeNode kind start)
      (typeNode (kind.relabel r.toRelabeling) (r.point start)) :=
  .bind freshId_abreast fun id => .bind lastEnd_abreast fun stop =>
    .pure_begun (by simp [TypeExpr.relabel])

/-- Its names, in parentheses.  It is asked for at the parenthesis only. -/
theorem enumeration_abreast : AbreastAt (symbol .openParen) r begun true
    (TypeKind.relabel r.toRelabeling) enumeration enumeration := by
  refine AbreastAt.within _ ((advance_abreastAt (by nofun)).and_then fun opener => ?_)
  refine .bind identList_abreast.weaken fun names => .bind (close_abreast _ _).weaken fun _ => ?_
  exact .pure_begun (by simp [TypeKind.relabel])

/-- Its two bounds are expressions, and the two periods between them are one plain token. -/
theorem subrange_abreast : AbreastAt (symbol .openBracket) r begun true
    (TypeKind.relabel r.toRelabeling) subrange subrange := by
  refine AbreastAt.within _ ((advance_abreastAt (by nofun)).and_then fun opener => ?_)
  refine .bind expr_abreast.weaken fun low =>
    .bind (expect_abreast (by decide) (by nofun)).weaken fun _ => .bind expr_abreast.weaken fun high =>
    .bind (close_abreast _ _).weaken fun _ => ?_
  exact .pure_begun (by simp [TypeKind.relabel])

/-- The first token decides: a name, a parenthesis, a bracket or an error. -/
theorem simpleType_abreast : Abreast r begun true (TypeExpr.relabel r.toRelabeling) simpleType
    simpleType := by
  refine get_bind_abreast fun c c' hc => ?_
  rw [hc.token_eq, r.token_start]
  refine kind_bind_abreast rfl rfl fun k => ?_
  split
  · exact .of_abreast (qualident_abreast.and_then fun name => typeNode_abreast _ _)
  · exact enumeration_abreast.and_then fun kind => typeNode_abreast _ _
  · exact subrange_abreast.and_then fun kind => typeNode_abreast _ _
  · exact .of_abreast (fail_abreast fun _ => rfl)

/-! ## Procedure types

  Optional parts are asked for by a token each, and the answer is the same on both sides. -/

/-- A formal type has three optional words in front of its name.  It starts at the first one. -/
theorem formal_abreast : Abreast r begun true (FormalType.relabel r.toRelabeling) formal formal := by
  refine get_bind_abreast fun c c' hc => ?_
  rw [hc.token_eq, r.token_start]
  refine .bind (accept_abreast (by decide)) fun isVar => .bind (accept_abreast (by decide))
    fun isOpenArray => ?_
  -- After `ARRAY OF` and without it the name and the span are read alike.
  have hrest : ∀ begun, Abreast r begun true (FormalType.relabel r.toRelabeling)
      (do
        let type ← qualident
        return ⟨isVar, isOpenArray, type, ⟨c.token.span.start, ← lastEnd⟩⟩)
      (do
        let type ← qualident
        return ⟨isVar, isOpenArray, type, ⟨r.point c.token.span.start, ← lastEnd⟩⟩) :=
    fun _ => qualident_abreast.and_then fun type => .bind lastEnd_abreast fun stop =>
      .pure_begun (by simp [FormalType.relabel])
  refine .ite Iff.rfl ?_ (hrest _)
  exact (expect_abreast (by decide) (by nofun)).and_then fun _ => hrest _

/-- There may be no parameters, so nothing is eaten for certain. -/
theorem formalParams_abreast : Abreast r begun false (List.map (FormalType.relabel r.toRelabeling))
    formalParams formalParams := by
  refine kind_ite_abreast (by decide) (.of_abreast (.pure rfl)) ?_
  refine (sepBy_abreast (by decide) fun _ => formal_abreast).weaken.bind ?_
  exact fun ⟨first, more⟩ => .pure rfl

/-- The type of the result is optional. -/
theorem formalResult_abreast : Abreast r begun false (Option.map (Qualident.relabel r.toRelabeling))
    formalResult formalResult :=
  .bind (accept_abreast (by decide)) fun _ => .ite Iff.rfl
    (.bind qualident_abreast.weaken fun name => .pure rfl) (.pure rfl)

/-- The formal types of a procedure, which are there if the parenthesis is. -/
theorem formals_abreast : Abreast r begun true (FormalTypes.relabel r.toRelabeling) formals formals := by
  refine Abreast.within _ ((expect_abreast (by decide) (by nofun)).and_then fun opener => ?_)
  refine .bind formalParams_abreast fun params => .bind (close_abreast _ _).weaken fun _ =>
    .bind formalResult_abreast fun result => .bind lastEnd_abreast fun stop => ?_
  exact .pure_begun (by simp [FormalTypes.relabel])

/-- The word alone is a procedure type without parameters and without a list of them. -/
theorem procedureType_abreast : Abreast r begun true (TypeExpr.relabel r.toRelabeling) procedureType
    procedureType := by
  refine Abreast.within _ ((expect_abreast (by decide) (by nofun)).and_then fun head => ?_)
  rw [r.token_start]
  refine kind_ite_abreast (by decide) (.of_abreast ?_) (typeNode_abreast _ _)
  exact .bind formals_abreast.weaken fun formals => typeNode_abreast (.procedure (some formals)) _

/-! ## Array, set and pointer types

  The types inside are read by a parameter, which goes abreast by assumption. -/

/-- An array ends where its element type does; no token is looked back at. -/
theorem arrayNode_abreast (start : Nat) (index element : TypeExpr) :
    Abreast r true true (TypeExpr.relabel r.toRelabeling) (arrayNode start index element)
      (arrayNode (r.point start) (index.relabel r.toRelabeling) (element.relabel r.toRelabeling)) :=
  .bind freshId_abreast fun id => .pure_begun (by simp [TypeExpr.relabel, TypeKind.relabel])

/-- An array of several index types is as many nodes, one within the other, from the last index type on;
each is numbered behind the one within. -/
theorem nestedArrays_abreast (indexes : List TypeExpr) (element : TypeExpr) :
    Abreast r true true (TypeExpr.relabel r.toRelabeling) (nestedArrays indexes element)
      (nestedArrays (indexes.map (TypeExpr.relabel r.toRelabeling))
        (element.relabel r.toRelabeling)) := by
  induction indexes with
  | nil => exact .pure_begun rfl
  | cons index more ih =>
    refine ih.weaken.bind fun inner => ?_
    rw [TypeExpr.relabel_span, r.span_start]
    exact arrayNode_abreast _ _ _

/-- A set ends with its base type. -/
theorem setType_abreast : Abreast r begun true (TypeExpr.relabel r.toRelabeling) setType setType := by
  refine Abreast.within _ ((expect_abreast (by decide) (by nofun)).and_then fun head => ?_)
  refine .bind (expect_abreast (by decide) (by nofun)).weaken fun _ =>
    .bind simpleType_abreast.weaken fun base => .bind freshId_abreast fun id => ?_
  exact .pure_begun (by simp [TypeExpr.relabel, TypeKind.relabel])

section

variable {type type' : Parser TypeExpr}
  (ht : ∀ begun, Abreast r begun true (TypeExpr.relabel r.toRelabeling) type type')

include ht

/-- The outermost node starts at `ARRAY`, and the nested ones at their index types. -/
theorem arrayTypeWith_abreast : Abreast r begun true (TypeExpr.relabel r.toRelabeling)
    (arrayTypeWith type) (arrayTypeWith type') := by
  refine Abreast.within _ ((expect_abreast (by decide) (by nofun)).and_then fun head => ?_)
  refine (sepBy_abreast (by decide) fun _ => simpleType_abreast).weaken.bind fun ⟨index, more⟩ => ?_
  refine .bind (expect_abreast (by decide) (by nofun)).weaken fun _ => .bind (ht _).weaken
    fun element => .bind (nestedArrays_abreast _ _).weaken fun inner => ?_
  rw [r.token_start]
  exact arrayNode_abreast _ _ _

/-- A pointer ends with the type it points to. -/
theorem pointerTypeWith_abreast : Abreast r begun true (TypeExpr.relabel r.toRelabeling)
    (pointerTypeWith type) (pointerTypeWith type') := by
  refine Abreast.within _ ((expect_abreast (by decide) (by nofun)).and_then fun head => ?_)
  refine .bind (expect_abreast (by decide) (by nofun)).weaken fun _ => .bind (ht _).weaken
    fun target => .bind freshId_abreast fun id => ?_
  exact .pure_begun (by simp [TypeExpr.relabel, TypeKind.relabel])

/-- A line of fields: its names, and one type for them all. -/
theorem fieldsWith_abreast : Abreast r begun true (FieldList.relabel r.toRelabeling)
    (fieldsWith type) (fieldsWith type') := by
  refine identList_abreast.and_then fun names =>
    .bind (expect_abreast (by decide) (by nofun)).weaken fun _ => .bind (ht _).weaken fun type => ?_
  exact .pure_begun (by simp [FieldList.relabel, FieldKind.relabel, IdentList.relabel, r.span_join])

end

/-! ## Records

  The same for entries, which contain types and are contained in them. -/

/-- The tag of a variant part: with a name and a type, with a type alone, or with a colon in front.  The
name is read as a qualified one first, and an error about it is placed at its beginning. -/
theorem tag_abreast :
    Abreast r begun true (Prod.map (Option.map (Ident.relabel r.toRelabeling))
      (Qualident.relabel r.toRelabeling)) tag tag := by
  -- It is read in three places, each time as the same qualified name.
  have hname : Abreast r begun true (Qualident.relabel r.toRelabeling) qualident qualident :=
    qualident_abreast
  refine .bind (accept_abreast (by decide)) fun _ => .ite Iff.rfl
    (hname.and_then fun name => .pure_begun rfl) (get_bind_abreast fun before before' hbefore => ?_)
  refine hname.and_then fun first => .bind (accept_abreast (by decide)) fun _ =>
    .ite Iff.rfl (.ite ?_ (failAt_abreast hbefore rfl) ?_) (.pure_begun rfl)
  -- Both sides find the name qualified, or neither does.
  · rw [Qualident.relabel_isQualified]
  · refine .bind qualident_abreast.weaken fun name => .pure_begun ?_
    rw [Qualident.relabel_name]
    rfl

section

variable {entry entry' : Parser FieldList}
  (he : ∀ begun, Abreast r begun true (FieldList.relabel r.toRelabeling) entry entry')

include he

/-- An entry may be missing behind a semicolon, which is seen from the token there. -/
theorem moreEntries_abreast (budget : Nat) : Abreast r begun false
    (List.map (FieldList.relabel r.toRelabeling)) (moreEntries entry budget)
    (moreEntries entry' budget) := by
  induction budget with
  | zero => exact .pure rfl
  | succ budget ih =>
    refine .bind (accept_abreast (by decide)) fun _ => .ite Iff.rfl ?_ (.pure rfl)
    refine get_bind_abreast fun c c' hc => .ite (by rw [hc.endsEntries_eq]) (.pure rfl) ?_
    exact .bind (he _).weaken fun e => .bind ih fun more => .pure rfl

/-- The first entry is always read. -/
theorem entriesWith_abreast : Abreast r begun true (List.map (FieldList.relabel r.toRelabeling))
    (entriesWith entry) (entriesWith entry') :=
  (he _).and_then fun _ => .bind remaining_abreast fun _ =>
    .bind (moreEntries_abreast he _) fun _ => .pure_begun rfl

/-- A record ends at its `END`, whose opener is the word `RECORD`. -/
theorem recordTypeWith_abreast : Abreast r begun true (TypeExpr.relabel r.toRelabeling)
    (recordTypeWith entry) (recordTypeWith entry') := by
  refine Abreast.within _ ((expect_abreast (by decide) (by nofun)).and_then fun opener => ?_)
  refine .bind (entriesWith_abreast he).weaken fun entries =>
    .bind (close_abreast _ _).weaken fun _ => ?_
  have hnode := typeNode_abreast (r := r) (.record entries) opener.span.start
  rwa [TypeKind.relabel, FieldList.relabelAll_eq_map, ← r.token_start] at hnode

/-- An arm of a variant part starts at its first label. -/
theorem armWith_abreast : Abreast r begun true (Variant.relabel r.toRelabeling) (armWith entry)
    (armWith entry') := by
  refine get_bind_abreast fun c c' hc => ?_
  rw [hc.token_eq, r.token_start]
  refine (sepBy_abreast (by decide) fun _ => rangeItem_abreast).and_then fun ⟨label, more⟩ => ?_
  refine .bind (expect_abreast (by decide) (by nofun)).weaken fun _ =>
    .bind (entriesWith_abreast he).weaken fun entries => .bind lastEnd_abreast fun stop => ?_
  exact .pure_begun (by simp [Variant.relabel])

/-- The part behind `ELSE`, if there is one. -/
theorem otherwiseWith_abreast : Abreast r begun false
    (Option.map (List.map (FieldList.relabel r.toRelabeling))) (otherwiseWith entry)
    (otherwiseWith entry') :=
  .bind (accept_abreast (by decide)) fun _ => .ite Iff.rfl
    (.bind (entriesWith_abreast he).weaken fun entries => .pure rfl) (.pure rfl)

/-- A variant part: the tag, at least one arm, perhaps an `ELSE`, and its own `END`. -/
theorem variantPartWith_abreast : Abreast r begun true (FieldList.relabel r.toRelabeling)
    (variantPartWith entry) (variantPartWith entry') := by
  refine Abreast.within _ ((expect_abreast (by decide) (by nofun)).and_then fun opener => ?_)
  refine tag_abreast.weaken.bind fun ⟨tag, tagType⟩ => ?_
  refine .bind (expect_abreast (by decide) (by nofun)).weaken fun _ => ?_
  refine (sepBy_abreast (by decide) fun _ => armWith_abreast he).weaken.bind fun ⟨arm, more⟩ => ?_
  refine .bind (otherwiseWith_abreast he) fun otherwise => .bind (close_abreast _ _).weaken fun _ =>
    .bind lastEnd_abreast fun stop => .pure_begun ?_
  simp [FieldList.relabel, FieldKind.relabel]

end

/-! ## Types -/

section

variable {type type' : Parser TypeExpr} {entry entry' : Parser FieldList}
  (ht : ∀ begun, Abreast r begun true (TypeExpr.relabel r.toRelabeling) type type')
  (he : ∀ begun, Abreast r begun true (FieldList.relabel r.toRelabeling) entry entry')

include ht he

/-- The first token tells which type it is; what no word begins is left to the simple types. -/
theorem typeWith_abreast : Abreast r begun true (TypeExpr.relabel r.toRelabeling)
    (typeWith type entry) (typeWith type' entry') := by
  refine kind_bind_abreast rfl rfl fun k => .of_abreast ?_
  split
  · exact arrayTypeWith_abreast ht
  · exact recordTypeWith_abreast he
  · exact setType_abreast
  · exact pointerTypeWith_abreast ht
  · exact procedureType_abreast
  · exact simpleType_abreast

/-- An entry of a record is a variant part at `CASE`, and else a line of fields. -/
theorem entryWith_abreast : Abreast r begun true (FieldList.relabel r.toRelabeling)
    (entryWith type entry) (entryWith type' entry') :=
  kind_ite_abreast (by decide) (.of_abreast (variantPartWith_abreast he)) (fieldsWith_abreast ht)

end

/-- Types contain entries and entries contain types, so that the induction on the budget carries both. -/
theorem typeAt_abreast (budget : Nat) :
    (∀ begun, Abreast r begun true (TypeExpr.relabel r.toRelabeling) (typeAt budget) (typeAt budget)) ∧
    ∀ begun, Abreast r begun true (FieldList.relabel r.toRelabeling) (entryAt budget)
      (entryAt budget) := by
  induction budget with
  | zero =>
    exact ⟨fun _ => fail_abreast fun _ => rfl, fun _ => fail_abreast fun _ => rfl⟩
  | succ budget ih =>
    exact ⟨fun _ => typeWith_abreast ih.1 ih.2, fun _ => entryWith_abreast ih.1 ih.2⟩

/-- Types go abreast, with as many tokens left as budget on either side. -/
theorem type_abreast : Abreast r begun true (TypeExpr.relabel r.toRelabeling) type type :=
  .bind remaining_abreast fun budget => (typeAt_abreast budget).1 begun

end Parser

end Modula

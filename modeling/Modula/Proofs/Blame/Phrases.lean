import Modula.Parser.Item
import Modula.Proofs.Blame
import Modula.Proofs.Reading.Expr
/-!
# The parsers of all phrases blame the innermost open bracket

  What is left to be done is to go through the definitions.  Seven of them open a bracket: sets, expressions
  in parentheses, enumerations, subranges, lists of parameters, records and variant parts.  Each of them
  remembers its opening token by itself, and each of them is read as a sequence inside of the bracket.
-/

namespace Modula.Parser

open Token.Kind (word symbol)

variable {α : Type}

/-! ## Names

  Names and the separators between them are matched tokens without any bracket. -/

/-- Names and commas. -/
theorem identList_blames : identList.Blames :=
  (sepBy_blames (by nofun) rfl rfl ident_blames).bind fun _ => pure_blames _

/-- A further segment of a name is a period and a name, and no bracket. -/
theorem segments_blames (budget : Nat) : (segments budget).Blames := by
  induction budget with
  | zero => exact pure_blames _
  | succ budget ih =>
    intro construct c
    rw [segments]
    refine get_bind_blamesFrom ?_
    split
    · next hk =>
      exact (advance_blamesFrom hk.1 (by decide) rfl rfl).bind fun _ => ident_blames.bind fun _ =>
        ih.bind fun _ => pure_blames _
    · exact pure_blames _ construct c

theorem qualident_blames : qualident.Blames :=
  ident_blames.bind fun _ => remaining_bind_blames fun n =>
    (segments_blames n).bind fun _ => pure_blames _

/-! ## Expressions

  Two of the seven phrases in brackets are expressions: sets and parentheses. -/

/-- An operator is no bracket. -/
theorem plain_of_operator {level : Operator.Level} {k : Token.Kind} {op : Operator}
    (h : Operator.ofKindAt? level k = some op) : k.isOpener = false ∧ k.isCloser = false := by
  have hop := (Option.filter_eq_some_iff.1 h).1
  unfold Operator.ofKind? at hop
  split at hop <;> first | exact ⟨rfl, rfl⟩ | cases hop

/-- The two signs are no brackets. -/
theorem plain_of_sign {k : Token.Kind} {sign : Sign} (h : Sign.ofKind? k = some sign) :
    k.isOpener = false ∧ k.isCloser = false := by
  unfold Sign.ofKind? at h
  split at h <;> first | exact ⟨rfl, rfl⟩ | cases h

section

variable {factor : Parser Expr} (hf : factor.Blames)

/-- By induction on the budget: operators and operands, each with matched tokens. -/
theorem operations_blames {level : Operator.Level} {operand : Parser Expr} (ho : operand.Blames)
    (budget : Nat) : ∀ lhs, (operations level operand budget lhs).Blames := by
  induction budget with
  | zero => exact pure_blames
  | succ budget ih =>
    intro lhs construct c
    rw [operations]
    refine kind_bind_blamesFrom fun k hk => ?_
    split
    · exact pure_blames lhs construct c
    · next op hop =>
      obtain ⟨hopen, hclose⟩ := plain_of_operator hop
      exact (advance_blamesFrom hk (ne_eof_of_operator hop) hopen hclose).bind fun _ =>
        ho.bind fun _ => freshId_blames.bind fun _ => ih _

include hf

/-- The levels of an expression add operators to it, so that only factors open brackets. -/
theorem termWith_blames : (termWith factor).Blames :=
  hf.bind fun _ => remaining_bind_blames fun n => operations_blames hf n _

theorem signedTermWith_blames : (signedTermWith factor).Blames := by
  intro construct c
  refine kind_bind_blamesFrom fun k hk => ?_
  split
  · exact termWith_blames hf construct c
  · next sign hs =>
    obtain ⟨hopen, hclose⟩ := plain_of_sign hs
    exact (advance_blamesFrom hk (ne_eof_of_sign hs) hopen hclose).bind fun _ =>
      (termWith_blames hf).bind fun _ => freshId_blames.bind fun _ => pure_blames _

theorem simpleWith_blames : (simpleWith factor).Blames :=
  (signedTermWith_blames hf).bind fun _ => remaining_bind_blames fun n =>
    operations_blames (termWith_blames hf) n _

omit hf in
/-- A second relation is an error of its own kind. -/
theorem noRelation_blames : noRelation.Blames := by
  intro construct c
  refine kind_bind_blamesFrom fun k _ => ?_
  split
  · exact fail_blames (fun _ => rfl) construct c
  · exact pure_blames _ construct c

theorem exprWith_blames : (exprWith factor).Blames := by
  refine (simpleWith_blames hf).bind fun lhs construct c => kind_bind_blamesFrom fun k hk => ?_
  split
  · exact pure_blames _ construct c
  · next op hop =>
    obtain ⟨hopen, hclose⟩ := plain_of_operator hop
    exact (advance_blamesFrom hk (ne_eof_of_operator hop) hopen hclose).bind fun _ =>
      (simpleWith_blames hf).bind fun _ => freshId_blames.bind fun _ =>
        noRelation_blames.bind fun _ => pure_blames _

theorem rangeItemWith_blames : (rangeItemWith factor).Blames := by
  refine (exprWith_blames hf).bind fun lhs => (accept_blames (by nofun) rfl rfl).bind fun taken => ?_
  split
  · exact (exprWith_blames hf).bind fun _ => pure_blames _
  · exact pure_blames _

/-- The elements of a set, or nothing in front of its closing brace. -/
theorem elementsWith_blames : (elementsWith factor).Blames := by
  intro construct c
  refine kind_bind_blamesFrom fun k _ => ?_
  split
  · exact pure_blames _ construct c
  · exact ((sepBy_blames (by nofun) rfl rfl (rangeItemWith_blames hf)).bind fun _ =>
      pure_blames _) construct c

/-- The first of the seven: a set, with its opening brace. -/
theorem setWith_blames (base : Option Qualident) (start : Nat) :
    (setWith factor base start).Blames :=
  within_blames _ <| expect_bind_blames .setConstructor fun _ =>
    .bind_left (elementsWith_blames hf) fun _ => close_bind_blamesInside <|
      freshId_blames.bind fun _ => lastEnd_blames.bind fun _ => pure_blames _

/-- The second one: an expression in parentheses. -/
theorem parenthesesWith_blamesFrom {construct : Construct} {c : Cursor}
    (hc : c.kind = symbol .openParen) : (parenthesesWith factor).BlamesFrom construct c :=
  advance_bind_blamesFrom .parentheses hc fun _ => within_blamesInside _ <|
    .bind_left (exprWith_blames hf) fun _ => close_bind_blamesInside <|
      lastEnd_blames.bind fun _ => pure_blames _

omit hf in
theorem node_blames (kind : ExprKind) (start : Nat) : (node kind start).Blames :=
  freshId_blames.bind fun _ => lastEnd_blames.bind fun _ => pure_blames _

/-- One case for each beginning of a factor. -/
theorem factorWith_blames : (factorWith factor).Blames := by
  intro construct c
  refine get_bind_blamesFrom (kind_bind_blamesFrom fun k hk => ?_)
  split
  · exact (advance_blamesFrom hk nofun rfl rfl).bind fun _ => node_blames _ _
  · exact (advance_blamesFrom hk nofun rfl rfl).bind fun _ => node_blames _ _
  · exact (advance_blamesFrom hk nofun rfl rfl).bind fun _ => node_blames _ _
  · refine (qualident_blames construct c).bind fun name construct c => kind_bind_blamesFrom fun k _ => ?_
    split
    · exact setWith_blames hf _ _ construct c
    · exact node_blames _ _ construct c
  · exact setWith_blames hf _ _ construct c
  · exact parenthesesWith_blamesFrom hf hk
  · exact (advance_blamesFrom hk nofun rfl rfl).bind fun _ => hf.bind fun _ => node_blames _ _
  · exact fail_blames (fun _ => rfl) construct c

end

/-- By induction on the budget, for factors that are nested in each other. -/
theorem factorAt_blames (budget : Nat) : (factorAt budget).Blames := by
  induction budget with
  | zero => exact fail_blames fun _ => rfl
  | succ budget ih => exact factorWith_blames ih

/-- Expressions blame the innermost open bracket. -/
theorem expr_blames : expr.Blames :=
  remaining_bind_blames fun n => exprWith_blames (factorAt_blames n)

theorem rangeItem_blames : rangeItem.Blames :=
  remaining_bind_blames fun n => rangeItemWith_blames (factorAt_blames n)

/-! ## Simple types and procedure types

  Three more: enumerations, subranges and formal types. -/

theorem typeNode_blames (kind : TypeKind) (start : Nat) : (typeNode kind start).Blames :=
  freshId_blames.bind fun _ => lastEnd_blames.bind fun _ => pure_blames _

section

variable {construct : Construct} {c : Cursor}

/-- The third one: an enumeration. -/
theorem enumeration_blamesFrom (hc : c.kind = symbol .openParen) :
    enumeration.BlamesFrom construct c :=
  within_blamesFrom <| advance_bind_blamesFrom .enumeration hc fun _ =>
    .bind_left identList_blames fun _ => close_bind_blamesInside <| pure_blames _

/-- The fourth one: a subrange, whose bounds may have brackets of their own. -/
theorem subrange_blamesFrom (hc : c.kind = symbol .openBracket) : subrange.BlamesFrom construct c :=
  within_blamesFrom <| advance_bind_blamesFrom .subrange hc fun _ =>
    .bind_left expr_blames fun _ => .bind_left (expect_blames (by nofun) rfl rfl) fun _ =>
      .bind_left expr_blames fun _ => close_bind_blamesInside <| pure_blames _

end

/-- A simple type opens a bracket or is a name. -/
theorem simpleType_blames : simpleType.Blames := by
  intro construct c
  refine get_bind_blamesFrom (kind_bind_blamesFrom fun k hk => ?_)
  split
  · exact (qualident_blames construct c).bind fun _ => typeNode_blames _ _
  · exact (enumeration_blamesFrom hk).bind fun _ => typeNode_blames _ _
  · exact (subrange_blamesFrom hk).bind fun _ => typeNode_blames _ _
  · exact fail_blames (fun _ => rfl) construct c

theorem formal_blames : formal.Blames := by
  have hname : ∀ isVar isOpenArray start, (do
      let type ← qualident
      return ⟨isVar, isOpenArray, type, ⟨start, ← lastEnd⟩⟩ : Parser FormalType).Blames :=
    fun _ _ _ => qualident_blames.bind fun _ => lastEnd_blames.bind fun _ => pure_blames _
  intro construct c
  refine get_bind_blamesFrom (((accept_blames (by nofun) rfl rfl).bind fun isVar =>
    (accept_blames (by nofun) rfl rfl).bind fun isOpenArray => ?_) construct c)
  dsimp only
  split
  · exact (expect_blames (by nofun) rfl rfl).bind fun _ => hname _ _ _
  · exact hname _ _ _

/-- A list of formal types, or nothing in front of the closing parenthesis. -/
theorem formalParams_blames : formalParams.Blames := by
  intro construct c
  refine kind_bind_blamesFrom fun k _ => ?_
  split
  · exact pure_blames _ construct c
  · exact ((sepBy_blames (by nofun) rfl rfl formal_blames).bind fun _ => pure_blames _) construct c

theorem formalResult_blames : formalResult.Blames := by
  refine (accept_blames (by nofun) rfl rfl).bind fun taken => ?_
  split
  · exact qualident_blames.bind fun _ => pure_blames _
  · exact pure_blames _

/-- The fifth one: the formal types of a procedure. -/
theorem formals_blames : formals.Blames :=
  within_blames _ <| expect_bind_blames .formalParameters fun _ =>
    .bind_left formalParams_blames fun _ => close_bind_blamesInside <|
      formalResult_blames.bind fun _ => lastEnd_blames.bind fun _ => pure_blames _

theorem procedureType_blames : procedureType.Blames := by
  refine within_blames _ ((expect_blames (by nofun) rfl rfl).bind fun head construct c =>
    kind_bind_blamesFrom fun k _ => ?_)
  split
  · exact (formals_blames.bind fun _ => typeNode_blames _ _) construct c
  · exact typeNode_blames _ _ construct c

/-! ## Array, set and pointer types -/

theorem arrayNode_blames (start : Nat) (index element : TypeExpr) :
    (arrayNode start index element).Blames :=
  freshId_blames.bind fun _ => pure_blames _

theorem nestedArrays_blames (element : TypeExpr) (l : List TypeExpr) :
    (nestedArrays l element).Blames := by
  induction l with
  | nil => exact pure_blames _
  | cons index more ih => exact ih.bind fun _ => arrayNode_blames _ _ _

/-- The word `SET` opens nothing, its base type may. -/
theorem setType_blames : setType.Blames :=
  within_blames _ <| (expect_blames (by nofun) rfl rfl).bind fun _ =>
    (expect_blames (by nofun) rfl rfl).bind fun _ => simpleType_blames.bind fun _ =>
      freshId_blames.bind fun _ => pure_blames _

section

variable {type : Parser TypeExpr} {entry : Parser FieldList}

/-- The index types may open brackets, which are closed in front of `OF`. -/
theorem arrayTypeWith_blames (ht : type.Blames) : (arrayTypeWith type).Blames :=
  within_blames _ <| (expect_blames (by nofun) rfl rfl).bind fun _ =>
    (sepBy_blames (by nofun) rfl rfl simpleType_blames).bind fun _ =>
      (expect_blames (by nofun) rfl rfl).bind fun _ => ht.bind fun element =>
        (nestedArrays_blames element _).bind fun _ => arrayNode_blames _ _ _

theorem pointerTypeWith_blames (ht : type.Blames) : (pointerTypeWith type).Blames :=
  within_blames _ <| (expect_blames (by nofun) rfl rfl).bind fun _ =>
    (expect_blames (by nofun) rfl rfl).bind fun _ => ht.bind fun _ =>
      freshId_blames.bind fun _ => pure_blames _

/-! ## Records

  The last two: records and variant parts, with the same closing word. -/

/-- That a name is qualified is not a matter of brackets, though the error stands in front of the cursor.
-/
theorem tag_blames : tag.Blames := by
  refine (accept_blames (by nofun) rfl rfl).bind fun taken => ?_
  split
  · exact qualident_blames.bind fun _ => pure_blames _
  · refine fun construct c => get_bind_blamesFrom ((qualident_blames construct c).bind fun first => ?_)
    refine (accept_blames (by nofun) rfl rfl).bind fun taken => ?_
    split
    · split
      · exact failAt_blames rfl
      · exact qualident_blames.bind fun _ => pure_blames _
    · exact pure_blames _

section

variable (he : entry.Blames)

include he

/-- Entries one after the other; none of them takes the `END` of the record. -/
theorem moreEntries_blames (budget : Nat) : (moreEntries entry budget).Blames := by
  induction budget with
  | zero => exact pure_blames _
  | succ budget ih =>
    rw [moreEntries]
    refine (accept_blames (by nofun) rfl rfl).bind fun taken => ?_
    split
    · refine fun construct c => get_bind_blamesFrom ?_
      split
      · exact pure_blames _ construct c
      · exact (he construct c).bind fun _ => ih.bind fun _ => pure_blames _
    · exact pure_blames _

theorem entriesWith_blames : (entriesWith entry).Blames :=
  he.bind fun _ => remaining_bind_blames fun n =>
    (moreEntries_blames he n).bind fun _ => pure_blames _

/-- The sixth one: a record, from its word to its `END`. -/
theorem recordTypeWith_blames : (recordTypeWith entry).Blames :=
  within_blames _ <| expect_bind_blames .record fun _ =>
    .bind_left (entriesWith_blames he) fun _ => close_bind_blamesInside <| typeNode_blames _ _

theorem armWith_blames : (armWith entry).Blames :=
  fun construct c => get_bind_blamesFrom
    (((sepBy_blames (by nofun) rfl rfl rangeItem_blames).bind fun _ =>
      (expect_blames (by nofun) rfl rfl).bind fun _ => (entriesWith_blames he).bind fun _ =>
        lastEnd_blames.bind fun _ => pure_blames _) construct c)

theorem otherwiseWith_blames : (otherwiseWith entry).Blames := by
  refine (accept_blames (by nofun) rfl rfl).bind fun taken => ?_
  split
  · exact (entriesWith_blames he).bind fun _ => pure_blames _
  · exact pure_blames _

/-- The last one: a variant part, which has an `END` of its own. -/
theorem variantPartWith_blames : (variantPartWith entry).Blames :=
  within_blames _ <| expect_bind_blames .variantPart fun _ =>
    .bind_left tag_blames fun _ => .bind_left (expect_blames (by nofun) rfl rfl) fun _ =>
      .bind_left (sepBy_blames (by nofun) rfl rfl (armWith_blames he)) fun _ =>
        .bind_left (otherwiseWith_blames he) fun _ => close_bind_blamesInside <|
          lastEnd_blames.bind fun _ => pure_blames _

end

theorem fieldsWith_blames (ht : type.Blames) : (fieldsWith type).Blames :=
  identList_blames.bind fun _ => (expect_blames (by nofun) rfl rfl).bind fun _ =>
    ht.bind fun _ => pure_blames _

/-! ## Types -/

/-- The first token tells the types apart, and each of them was looked at above. -/
theorem typeWith_blames (ht : type.Blames) (he : entry.Blames) : (typeWith type entry).Blames := by
  intro construct c
  refine kind_bind_blamesFrom fun k _ => ?_
  split
  · exact arrayTypeWith_blames ht construct c
  · exact recordTypeWith_blames he construct c
  · exact setType_blames construct c
  · exact pointerTypeWith_blames ht construct c
  · exact procedureType_blames construct c
  · exact simpleType_blames construct c

theorem entryWith_blames (ht : type.Blames) (he : entry.Blames) :
    (entryWith type entry).Blames := by
  intro construct c
  refine kind_bind_blamesFrom fun k _ => ?_
  split
  · exact variantPartWith_blames he construct c
  · exact fieldsWith_blames ht construct c

end

/-- Types and entries contain each other, so the budget carries both. -/
theorem typeAt_blames (budget : Nat) : (typeAt budget).Blames ∧ (entryAt budget).Blames := by
  induction budget with
  | zero => exact ⟨fail_blames fun _ => rfl, fail_blames fun _ => rfl⟩
  | succ budget ih =>
    obtain ⟨ht, he⟩ := ih
    exact ⟨typeWith_blames ht he, entryWith_blames ht he⟩

/-- Types blame the innermost open bracket. -/
theorem type_blames : type.Blames := remaining_bind_blames fun n => (typeAt_blames n).1

/-! ## Imports, declarations, headers and footers

  No bracket reaches over the end of an item. -/

/-- No item of a module opens a bracket outside of its expression or type. -/
theorem importClause_blames : importClause.Blames := by
  have hkind : importKind.Blames := by
    refine (accept_blames (by nofun) rfl rfl).bind fun taken => ?_
    split
    · exact ident_blames.bind fun _ => (expect_blames (by nofun) rfl rfl).bind fun _ =>
        identList_blames.bind fun _ => pure_blames _
    · exact (expect_blames (by nofun) rfl rfl).bind fun _ =>
        identList_blames.bind fun _ => pure_blames _
  exact fun construct c => get_bind_blamesFrom ((hkind.bind fun _ =>
    (expect_blames (by nofun) rfl rfl).bind fun _ => lastEnd_blames.bind fun _ => pure_blames _)
    construct c)

theorem constItem_blames : constItem.Blames :=
  ident_blames.bind fun _ => (expect_blames (by nofun) rfl rfl).bind fun _ =>
    expr_blames.bind fun _ => (expect_blames (by nofun) rfl rfl).bind fun _ => pure_blames _

theorem typeItem_blames : typeItem.Blames :=
  ident_blames.bind fun _ => (expect_blames (by nofun) rfl rfl).bind fun _ =>
    type_blames.bind fun _ => (expect_blames (by nofun) rfl rfl).bind fun _ => pure_blames _

theorem moduleName_blames : moduleName.Blames :=
  (expect_blames (by nofun) rfl rfl).bind fun _ => ident_blames.bind fun _ =>
    (expect_blames (by nofun) rfl rfl).bind fun _ => pure_blames _

/-- Headers and footers have names and words only. -/
theorem definitionHeader_blames : definitionHeader.Blames :=
  (expect_blames (by nofun) rfl rfl).bind fun _ => moduleName_blames

theorem programHeader_blames : programHeader.Blames :=
  (accept_blames (by nofun) rfl rfl).bind fun _ => moduleName_blames.bind fun _ => pure_blames _

/-- The `END` of a footer closes no bracket. -/
theorem footer_onward : footer.Onward :=
  (expect_onward _).bind fun _ => (ident_blames.bind fun _ =>
    (expect_blames (by nofun) rfl rfl).bind fun _ => pure_blames _).onward

end Modula.Parser

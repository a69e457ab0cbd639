import Modula.Proofs.Machine
import Modula.Proofs.Reading.Unit
/-!
# Every phrase is enacted

  For each parser there is a program that is written like it, and so there is for each reader of a module.
  The definitions are gone through in their order; what is shown about one of them follows its text, from
  what has been shown about the parsers that it runs.

  Phrases are entered at eleven places in types and in factors, and for the parts of a module that errors
  are reported in: its header, its imports, its declarations and its footer.
-/

namespace Modula

namespace Parser

/-! ## Names -/

theorem identList_enacted : identList.Enacted := (sepBy_enacted ident_enacted).bind fun _ => .pure _

/-- By induction on the budget, as the parser is defined. -/
theorem segments_enacted (budget : Nat) : (segments budget).Enacted := by
  induction budget with
  | zero => exact .pure _
  | succ budget ih =>
    rw [segments]
    refine get_enacted.bind fun c => .ite ?_ (.pure _)
    exact advance_enacted.bind fun _ => ident_enacted.bind fun _ => ih.bind fun _ => .pure _

theorem qualident_enacted : qualident.Enacted :=
  ident_enacted.bind fun _ => remaining_enacted.bind fun budget =>
    (segments_enacted budget).bind fun _ => .pure _

/-! ## Expressions

  There is one program for each parser, found along its definition. -/

section

variable {factor : Parser Expr} (hf : factor.Enacted)

/-- By induction on the budget; what is read so far goes from one round to the next. -/
theorem operations_enacted {level : Operator.Level} {operand : Parser Expr} (ho : operand.Enacted)
    (budget : Nat) : ∀ lhs, (operations level operand budget lhs).Enacted := by
  induction budget with
  | zero => exact .pure
  | succ budget ih =>
    intro lhs
    rw [operations]
    refine kind_enacted.bind fun k => ?_
    split
    · exact .pure _
    · exact advance_enacted.bind fun _ => ho.bind fun _ => freshId_enacted.bind fun _ => ih _

/-- A look, and a failure if there is a second relation. -/
theorem noRelation_enacted : noRelation.Enacted :=
  kind_enacted.bind fun _ => .ite (fail_enacted _) (.pure _)

theorem node_enacted (kind : ExprKind) (start : Nat) : (node kind start).Enacted :=
  freshId_enacted.bind fun _ => lastEnd_enacted.bind fun _ => .pure _

include hf

/-- The levels of an expression enter no phrase. -/
theorem termWith_enacted : (termWith factor).Enacted :=
  hf.bind fun first => remaining_enacted.bind fun budget => operations_enacted hf budget first

/-- Whether there is a sign is seen before it is taken. -/
theorem signedTermWith_enacted : (signedTermWith factor).Enacted := by
  refine kind_enacted.bind fun k => ?_
  split
  · exact termWith_enacted hf
  · exact advance_enacted.bind fun _ => (termWith_enacted hf).bind fun _ =>
      freshId_enacted.bind fun _ => .pure _

theorem simpleWith_enacted : (simpleWith factor).Enacted :=
  (signedTermWith_enacted hf).bind fun first => remaining_enacted.bind fun budget =>
    operations_enacted (termWith_enacted hf) budget first

/-- The second relation is looked for behind the node of the first one. -/
theorem exprWith_enacted : (exprWith factor).Enacted := by
  refine (simpleWith_enacted hf).bind fun lhs => kind_enacted.bind fun k => ?_
  split
  · exact .pure _
  · exact advance_enacted.bind fun _ => (simpleWith_enacted hf).bind fun _ =>
      freshId_enacted.bind fun _ => noRelation_enacted.bind fun _ => .pure _

theorem rangeItemWith_enacted : (rangeItemWith factor).Enacted := by
  refine (exprWith_enacted hf).bind fun lhs => (accept_enacted _).bind fun taken => .ite ?_ (.pure _)
  exact (exprWith_enacted hf).bind fun _ => .pure _

theorem elementsWith_enacted : (elementsWith factor).Enacted :=
  kind_enacted.bind fun _ => .ite (.pure _) <|
    (sepBy_enacted (rangeItemWith_enacted hf)).bind fun _ => .pure _

/-- A set is entered at its brace, behind the name of its type. -/
theorem setWith_enacted (base : Option Qualident) (start : Nat) : (setWith factor base start).Enacted :=
  .within _ <| (expect_enacted _).bind fun _ => (elementsWith_enacted hf).bind fun _ =>
    (close_enacted _ _).bind fun _ => freshId_enacted.bind fun _ => lastEnd_enacted.bind fun _ => .pure _

/-- The parenthesis is taken before the phrase is entered. -/
theorem parenthesesWith_enacted : (parenthesesWith factor).Enacted :=
  advance_enacted.bind fun _ => .within _ <| (exprWith_enacted hf).bind fun _ =>
    (close_enacted _ _).bind fun _ => lastEnd_enacted.bind fun _ => .pure _

/-- Each beginning of a factor has its own program; sets and parentheses enter a phrase. -/
theorem factorWith_enacted : (factorWith factor).Enacted := by
  refine get_enacted.bind fun c => kind_enacted.bind fun k => ?_
  split
  · exact advance_enacted.bind fun _ => node_enacted _ _
  · exact advance_enacted.bind fun _ => node_enacted _ _
  · exact advance_enacted.bind fun _ => node_enacted _ _
  · exact qualident_enacted.bind fun _ => kind_enacted.bind fun _ =>
      .ite (setWith_enacted hf _ _) (node_enacted _ _)
  · exact setWith_enacted hf _ _
  · exact parenthesesWith_enacted hf
  · exact advance_enacted.bind fun _ => hf.bind fun _ => node_enacted _ _
  · exact fail_enacted _

end

/-- By induction on the budget: a phrase within a phrase is entered on top of it. -/
theorem factorAt_enacted (budget : Nat) : (factorAt budget).Enacted := by
  induction budget with
  | zero => exact fail_enacted _
  | succ budget ih => exact factorWith_enacted ih

/-- There is a program for expressions. -/
theorem expr_enacted : expr.Enacted :=
  remaining_enacted.bind fun budget => exprWith_enacted (factorAt_enacted budget)

theorem rangeItem_enacted : rangeItem.Enacted :=
  remaining_enacted.bind fun budget => rangeItemWith_enacted (factorAt_enacted budget)

/-! ## Simple types and procedure types -/

theorem typeNode_enacted (kind : TypeKind) (start : Nat) : (typeNode kind start).Enacted :=
  freshId_enacted.bind fun _ => lastEnd_enacted.bind fun _ => .pure _

/-- An enumeration is entered at its parenthesis. -/
theorem enumeration_enacted : enumeration.Enacted :=
  .within _ <| advance_enacted.bind fun _ => identList_enacted.bind fun _ =>
    (close_enacted _ _).bind fun _ => .pure _

/-- A subrange is entered, with expressions within that enter phrases of their own. -/
theorem subrange_enacted : subrange.Enacted :=
  .within _ <| advance_enacted.bind fun _ => expr_enacted.bind fun _ => (expect_enacted _).bind fun _ =>
    expr_enacted.bind fun _ => (close_enacted _ _).bind fun _ => .pure _

theorem simpleType_enacted : simpleType.Enacted := by
  refine get_enacted.bind fun c => kind_enacted.bind fun k => ?_
  split
  · exact qualident_enacted.bind fun _ => typeNode_enacted _ _
  · exact enumeration_enacted.bind fun _ => typeNode_enacted _ _
  · exact subrange_enacted.bind fun _ => typeNode_enacted _ _
  · exact fail_enacted _

/-- A formal type enters nothing; the list of them has been entered before. -/
theorem formal_enacted : formal.Enacted := by
  have hname : ∀ isVar isOpenArray start, (do
      let type ← qualident
      return ⟨isVar, isOpenArray, type, ⟨start, ← lastEnd⟩⟩ : Parser FormalType).Enacted :=
    fun _ _ _ => qualident_enacted.bind fun _ => lastEnd_enacted.bind fun _ => .pure _
  refine get_enacted.bind fun c => (accept_enacted _).bind fun isVar =>
    (accept_enacted _).bind fun isOpenArray => .ite ?_ (hname _ _ _)
  exact (expect_enacted _).bind fun _ => hname _ _ _

theorem formalParams_enacted : formalParams.Enacted :=
  kind_enacted.bind fun _ => .ite (.pure _) <| (sepBy_enacted formal_enacted).bind fun _ => .pure _

theorem formalResult_enacted : formalResult.Enacted :=
  (accept_enacted _).bind fun _ => .ite (qualident_enacted.bind fun _ => .pure _) (.pure _)

/-- Entered at its parenthesis, and left behind the result. -/
theorem formals_enacted : formals.Enacted :=
  .within _ <| (expect_enacted _).bind fun _ => formalParams_enacted.bind fun _ =>
    (close_enacted _ _).bind fun _ => formalResult_enacted.bind fun _ =>
      lastEnd_enacted.bind fun _ => .pure _

/-- Its formal types are entered on top of it. -/
theorem procedureType_enacted : procedureType.Enacted :=
  .within _ <| (expect_enacted _).bind fun _ => kind_enacted.bind fun _ =>
    .ite (formals_enacted.bind fun _ => typeNode_enacted _ _) (typeNode_enacted _ _)

/-! ## Array, set and pointer types -/

theorem arrayNode_enacted (start : Nat) (index element : TypeExpr) :
    (arrayNode start index element).Enacted := freshId_enacted.bind fun _ => .pure _

/-- Nodes are made without looking at any token. -/
theorem nestedArrays_enacted (element : TypeExpr) (l : List TypeExpr) :
    (nestedArrays l element).Enacted := by
  induction l with
  | nil => exact .pure _
  | cons index more ih => exact ih.bind fun _ => arrayNode_enacted _ _ _

theorem setType_enacted : setType.Enacted :=
  .within _ <| (expect_enacted _).bind fun _ => (expect_enacted _).bind fun _ =>
    simpleType_enacted.bind fun _ => freshId_enacted.bind fun _ => .pure _

section

variable {type : Parser TypeExpr} {entry : Parser FieldList}

/-- An array is left behind the last of its nodes. -/
theorem arrayTypeWith_enacted (ht : type.Enacted) : (arrayTypeWith type).Enacted :=
  .within _ <| (expect_enacted _).bind fun _ => (sepBy_enacted simpleType_enacted).bind fun _ =>
    (expect_enacted _).bind fun _ => ht.bind fun _ => (nestedArrays_enacted _ _).bind fun _ =>
      arrayNode_enacted _ _ _

theorem pointerTypeWith_enacted (ht : type.Enacted) : (pointerTypeWith type).Enacted :=
  .within _ <| (expect_enacted _).bind fun _ => (expect_enacted _).bind fun _ =>
    ht.bind fun _ => freshId_enacted.bind fun _ => .pure _

/-! ## Records -/

/-- The error about a qualified tag is placed at a cursor of before, which the program has kept as a
value. -/
theorem tag_enacted : tag.Enacted := by
  have hname : ∀ name, (do return (name, ← qualident) : Parser (Option Ident × Qualident)).Enacted :=
    fun _ => qualident_enacted.bind fun _ => .pure _
  refine (accept_enacted _).bind fun taken => .ite (hname none) ?_
  refine get_enacted.bind fun place => qualident_enacted.bind fun first => ?_
  exact (accept_enacted _).bind fun taken => .ite (.ite (.failAt _ _) (hname _)) (.pure _)

section

variable (he : entry.Enacted)

include he

/-- By induction on the budget; the entries of a record enter phrases on top of it. -/
theorem moreEntries_enacted (budget : Nat) : (moreEntries entry budget).Enacted := by
  induction budget with
  | zero => exact .pure _
  | succ budget ih =>
    rw [moreEntries]
    refine (accept_enacted _).bind fun taken => .ite ?_ (.pure _)
    exact get_enacted.bind fun c => .ite (.pure _) (he.bind fun _ => ih.bind fun _ => .pure _)

theorem entriesWith_enacted : (entriesWith entry).Enacted :=
  he.bind fun _ => remaining_enacted.bind fun budget =>
    (moreEntries_enacted he budget).bind fun _ => .pure _

/-- A record is left behind its `END`, or by the error about that `END`. -/
theorem recordTypeWith_enacted : (recordTypeWith entry).Enacted :=
  .within _ <| (expect_enacted _).bind fun _ => (entriesWith_enacted he).bind fun _ =>
    (close_enacted _ _).bind fun _ => typeNode_enacted _ _

theorem armWith_enacted : (armWith entry).Enacted :=
  get_enacted.bind fun _ => (sepBy_enacted rangeItem_enacted).bind fun _ =>
    (expect_enacted _).bind fun _ => (entriesWith_enacted he).bind fun _ =>
      lastEnd_enacted.bind fun _ => .pure _

theorem otherwiseWith_enacted : (otherwiseWith entry).Enacted :=
  (accept_enacted _).bind fun _ => .ite ((entriesWith_enacted he).bind fun _ => .pure _) (.pure _)

/-- A variant part is entered inside of a record, and left like it. -/
theorem variantPartWith_enacted : (variantPartWith entry).Enacted :=
  .within _ <| (expect_enacted _).bind fun _ => tag_enacted.bind fun _ => (expect_enacted _).bind fun _ =>
    (sepBy_enacted (armWith_enacted he)).bind fun _ => (otherwiseWith_enacted he).bind fun _ =>
      (close_enacted _ _).bind fun _ => lastEnd_enacted.bind fun _ => .pure _

end

theorem fieldsWith_enacted (ht : type.Enacted) : (fieldsWith type).Enacted :=
  identList_enacted.bind fun _ => (expect_enacted _).bind fun _ => ht.bind fun _ => .pure _

/-! ## Types -/

/-- Each type enters its own phrase. -/
theorem typeWith_enacted (ht : type.Enacted) (he : entry.Enacted) : (typeWith type entry).Enacted := by
  refine kind_enacted.bind fun k => ?_
  split
  · exact arrayTypeWith_enacted ht
  · exact recordTypeWith_enacted he
  · exact setType_enacted
  · exact pointerTypeWith_enacted ht
  · exact procedureType_enacted
  · exact simpleType_enacted

theorem entryWith_enacted (ht : type.Enacted) (he : entry.Enacted) : (entryWith type entry).Enacted :=
  kind_enacted.bind fun _ => .ite (variantPartWith_enacted he) (fieldsWith_enacted ht)

end

/-- Types and entries contain each other, so the budget carries both. -/
theorem typeAt_enacted (budget : Nat) : (typeAt budget).Enacted ∧ (entryAt budget).Enacted := by
  induction budget with
  | zero => exact ⟨fail_enacted _, fail_enacted _⟩
  | succ budget ih =>
    obtain ⟨ht, he⟩ := ih
    exact ⟨typeWith_enacted ht he, entryWith_enacted ht he⟩

/-- There is a program for types. -/
theorem type_enacted : type.Enacted := remaining_enacted.bind fun budget => (typeAt_enacted budget).1

/-! ## Imports, declarations, headers and footers -/

/-- The items of a module are entered by the readers that try them. -/
theorem importClause_enacted : importClause.Enacted := by
  have hkind : importKind.Enacted := by
    refine (accept_enacted _).bind fun taken => .ite ?_ ?_
    · exact ident_enacted.bind fun _ => (expect_enacted _).bind fun _ =>
        identList_enacted.bind fun _ => .pure _
    · exact (expect_enacted _).bind fun _ => identList_enacted.bind fun _ => .pure _
  exact get_enacted.bind fun _ => hkind.bind fun _ => (expect_enacted _).bind fun _ =>
    lastEnd_enacted.bind fun _ => .pure _

theorem constItem_enacted : constItem.Enacted :=
  ident_enacted.bind fun _ => (expect_enacted _).bind fun _ => expr_enacted.bind fun _ =>
    (expect_enacted _).bind fun _ => .pure _

theorem typeItem_enacted : typeItem.Enacted :=
  ident_enacted.bind fun _ => (expect_enacted _).bind fun _ => type_enacted.bind fun _ =>
    (expect_enacted _).bind fun _ => .pure _

theorem moduleName_enacted : moduleName.Enacted :=
  (expect_enacted _).bind fun _ => ident_enacted.bind fun _ => (expect_enacted _).bind fun _ => .pure _

theorem definitionHeader_enacted : definitionHeader.Enacted :=
  (expect_enacted _).bind fun _ => moduleName_enacted

theorem programHeader_enacted : programHeader.Enacted :=
  (accept_enacted _).bind fun _ => moduleName_enacted.bind fun _ => .pure _

theorem footer_enacted : footer.Enacted :=
  (expect_enacted _).bind fun _ => ident_enacted.bind fun _ => (expect_enacted _).bind fun _ => .pure _

end Parser

namespace Recovering

variable {α : Type}

/-! ## Imports and sections -/

/-- By induction on the budget.  A broken item is left before its error is put aside. -/
theorem tryItems_enacted (starts : Token.Kind → Prop) [DecidablePred starts] (construct : Construct)
    {item : Parser α} (hi : item.Enacted) (resume : Cursor → Cursor → Cursor) (budget : Nat) :
    (tryItems starts construct item resume budget).Enacted := by
  induction budget with
  | zero => exact .pure _
  | succ budget ih =>
    rw [tryItems]
    refine Enacted.cursor.bind fun start => .ite ?_ (.pure _)
    refine (Enacted.attempt construct hi).bind fun result => ?_
    cases result with
    | ok a => exact ih.bind fun _ => .pure _
    | error e =>
      refine Enacted.cursor.bind fun c => ?_
      -- the note stands in both branches, though behind a raised error it is never made
      have hnote := (Enacted.note e (resume start c)).bind fun _ => ih
      exact .ite ((Enacted.fail e).bind fun _ => hnote) hnote

theorem imports_enacted (budget : Nat) : (imports budget).Enacted := by
  rw [imports_eq_tryItems]
  exact tryItems_enacted _ _ Parser.importClause_enacted _ budget

theorem items_enacted (construct : Construct) {item : Parser α} (hi : item.Enacted) (budget : Nat) :
    (items construct item budget).Enacted := by
  rw [items_eq_tryItems]
  exact tryItems_enacted _ construct hi _ budget

/-- The word of a section and its number are not part of an item. -/
theorem sectionOf_enacted (construct : Construct) {item : Parser α} (hi : item.Enacted)
    (kind : List α → DeclarationKind) : (sectionOf construct item kind).Enacted :=
  (Enacted.runOutside Parser.advance_enacted).bind fun _ => Enacted.cursor.bind fun _ =>
    (items_enacted construct hi _).bind fun _ =>
      (Enacted.runOutside Parser.freshId_enacted).bind fun _ => Enacted.cursor.bind fun _ => .pure _

/-- What is not supported is noted outside of all phrases, and the machine makes the error itself. -/
theorem declarations_enacted (inDefinition : Bool) (budget : Nat) :
    (declarations inDefinition budget).Enacted := by
  induction budget with
  | zero => exact .pure _
  | succ budget ih =>
    rw [declarations]
    refine Enacted.cursor.bind fun start => ?_
    split
    · exact (sectionOf_enacted _ Parser.constItem_enacted _).bind fun _ => ih.bind fun _ => .pure _
    · exact (sectionOf_enacted _ Parser.typeItem_enacted _).bind fun _ => ih.bind fun _ => .pure _
    · exact (Enacted.noteAt start _ _).bind fun _ => ih
    · exact (Enacted.noteAt start _ _).bind fun _ => ih
    · exact .pure _

/-! ## Modules -/

/-- The same for statements. -/
theorem body_enacted : body.Enacted := by
  refine Enacted.cursor.bind fun start => .ite ?_ (.pure _)
  refine (Enacted.runOutside Parser.advance_enacted).bind fun head => Enacted.cursor.bind fun c => ?_
  exact .ite ((Enacted.noteAt c _ _).bind fun _ => .pure _) (.pure _)

theorem block_enacted : block.Enacted :=
  Enacted.cursor.bind fun _ => (declarations_enacted false _).bind fun _ => body_enacted.bind fun _ =>
    Enacted.cursor.bind fun _ => .pure _

theorem allImports_enacted : allImports.Enacted := Enacted.cursor.bind fun _ => imports_enacted _

theorem allDeclarations_enacted : allDeclarations.Enacted :=
  Enacted.cursor.bind fun _ => declarations_enacted true _

theorem footer_enacted : footer.Enacted := .run _ Parser.footer_enacted

/-- The header and the footer are phrases, the module is none. -/
theorem definitionModule_enacted : definitionModule.Enacted :=
  Enacted.cursor.bind fun _ => (Enacted.run _ Parser.definitionHeader_enacted).bind fun _ =>
    (Enacted.inside _ allImports_enacted).bind fun _ =>
      (Enacted.inside _ allDeclarations_enacted).bind fun _ =>
        (Enacted.inside _ footer_enacted).bind fun _ => Enacted.cursor.bind fun _ => .pure _

theorem programModule_enacted : programModule.Enacted :=
  Enacted.cursor.bind fun _ => (Enacted.run _ Parser.programHeader_enacted).bind fun _ =>
    (Enacted.inside _ allImports_enacted).bind fun _ => (Enacted.inside _ block_enacted).bind fun _ =>
      (Enacted.inside _ footer_enacted).bind fun _ => Enacted.cursor.bind fun _ => .pure _

theorem anyModule_enacted : anyModule.Enacted := by
  refine Enacted.cursor.bind fun c => ?_
  split
  · exact definitionModule_enacted.bind fun _ => .pure _
  · exact programModule_enacted.bind fun _ => .pure _
  · exact programModule_enacted.bind fun _ => .pure _
  · exact .runOutside (Parser.fail_enacted _)

theorem endOfSource_enacted : endOfSource.Enacted :=
  Enacted.cursor.bind fun _ => .ite (.runOutside (Parser.fail_enacted _)) (.pure _)

/-- There is a program for compilation units. -/
theorem unit_enacted : unit.Enacted :=
  anyModule_enacted.bind fun _ => endOfSource_enacted.bind fun _ => .pure _

end Recovering

end Modula

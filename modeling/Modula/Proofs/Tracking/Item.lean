import Modula.Parser.Item
import Modula.Proofs.Grammar.Unit
import Modula.Proofs.Tracking.TypeExpr
/-!
# How far the parsers of imports, declarations, headers and footers come

  These are the phrases that a module consists of, and their parsers track the sentences of the grammar.
-/

namespace Modula.Parser

open Token.Kind (word symbol)

/-! ## Imports and declarations -/

/-- One name is a list of names.  A word is needed wherever an error may come in front of one, for what
has been read must begin a whole sentence. -/
theorem isIdentList_nonempty : [.name ""] ∈ IsIdentList.words := ⟨_, .idents (.one (.name ""))⟩

/-- An import tracks the two kinds of it: an error in front of `IMPORT` may still be about either. -/
theorem importClause_tracks : importClause.Tracks IsImport.words := by
  have himport := Language.append_mem_mul (mem_oneToken (word .IMPORT)) isIdentList_nonempty
  -- The language as the parser has it, a sum with the optional `FROM` first; that each of its words is
  -- an import is seen in the end.
  have hkind : importKind.Tracks
      (oneToken (word .FROM) * (IsIdent.words * (oneToken (word .IMPORT) * IsIdentList.words)) +
        oneToken (word .IMPORT) * IsIdentList.words) := by
    refine accept_bind_tracks (by nofun) ?_ ?_
    · exact ident_tracks.bind (fun _ => (expect_tracks (by nofun)).bind (fun _ =>
        identList_tracks.bind_one fun _ => pure_tracks _) isIdentList_nonempty) himport
    · exact (expect_tracks (by nofun)).bind (fun _ =>
        identList_tracks.bind_one fun _ => pure_tracks _) isIdentList_nonempty
  intro construct c
  refine get_bind_tracksFrom (.mono (hkind.bind (fun _ => (expect_tracks (by nofun)).bind_one fun _ =>
    lastEnd_tracks.bind_one fun _ => pure_tracks _) (mem_oneToken (symbol .semicolon))
    construct c) ?_)
  rintro _ ⟨_, ⟨_, rfl, _, ⟨u, ⟨i, hu⟩, _, ⟨_, rfl, v, ⟨l, hv⟩, rfl⟩, rfl⟩, rfl⟩ |
    ⟨_, rfl, w, ⟨l, hw⟩, rfl⟩, _, rfl, rfl⟩
  · exact ⟨_, by simpa using IsImport.unqualified hu hv⟩
  · exact ⟨_, .qualified hw⟩

/-- In a declaration of a constant nothing is wrong before the token of the error. -/
theorem constItem_tracks : constItem.Tracks IsConstItem.words := by
  have hvalue := Language.append_mem_mul isExpr_nonempty (mem_oneToken (symbol .semicolon))
  refine .mono (ident_tracks.bind (fun _ => (expect_tracks (by nofun)).bind (fun _ =>
    expr_tracks.bind (fun _ => (expect_tracks (by nofun)).bind_one fun _ => pure_tracks _)
      (mem_oneToken _)) hvalue) (Language.append_mem_mul (mem_oneToken (symbol .equal)) hvalue)) ?_
  rintro _ ⟨u, ⟨i, hu⟩, _, ⟨_, rfl, _, ⟨v, ⟨e, hv⟩, _, rfl, rfl⟩, rfl⟩, rfl⟩
  exact ⟨_, .item hu hv⟩

/-- The same for a declaration of a type. -/
theorem typeItem_tracks : typeItem.Tracks IsTypeItem.words := by
  have htype := Language.append_mem_mul isType_nonempty (mem_oneToken (symbol .semicolon))
  refine .mono (ident_tracks.bind (fun _ => (expect_tracks (by nofun)).bind (fun _ =>
    type_tracks.bind (fun _ => (expect_tracks (by nofun)).bind_one fun _ => pure_tracks _)
      (mem_oneToken _)) htype) (Language.append_mem_mul (mem_oneToken (symbol .equal)) htype)) ?_
  rintro _ ⟨u, ⟨i, hu⟩, _, ⟨_, rfl, _, ⟨v, ⟨t, hv⟩, _, rfl, rfl⟩, rfl⟩, rfl⟩
  exact ⟨_, .item hu hv⟩

/-! ## Headers and footers -/

/-- Every name is an identifier, the empty one for instance. -/
theorem isIdent_nonempty : [.name ""] ∈ IsIdent.words := ⟨_, .name ""⟩

/-- There is a sentence to go on with behind `DEFINITION`. -/
theorem moduleName_nonempty :
    [word .MODULE, .name "", symbol .semicolon] ∈ IsModuleName.words := ⟨_, .name (.name "")⟩

/-- The name of a module between its two tokens. -/
theorem moduleName_tracks : moduleName.Tracks IsModuleName.words := by
  have hname := Language.append_mem_mul isIdent_nonempty (mem_oneToken (symbol .semicolon))
  refine .mono ((expect_tracks (by nofun)).bind (fun _ => ident_tracks.bind (fun _ =>
    (expect_tracks (by nofun)).bind_one fun _ => pure_tracks _) (mem_oneToken _)) hname) ?_
  rintro _ ⟨_, rfl, _, ⟨w, ⟨i, hw⟩, _, rfl, rfl⟩, rfl⟩
  exact ⟨_, .name hw⟩

/-- Headers of definition modules. -/
theorem definitionHeader_tracks : definitionHeader.Tracks IsDefinitionHeader.words := by
  refine .mono ((expect_tracks (by nofun)).bind (fun _ => moduleName_tracks)
    moduleName_nonempty) ?_
  rintro _ ⟨_, rfl, w, ⟨i, hw⟩, rfl⟩
  exact ⟨_, .header hw⟩

/-- Headers of the other modules, with `IMPLEMENTATION` or without. -/
theorem programHeader_tracks : programHeader.Tracks IsProgramHeader.words := by
  refine .mono (accept_bind_tracks (by nofun) (moduleName_tracks.bind_one fun _ => pure_tracks _)
    (moduleName_tracks.bind_one fun _ => pure_tracks _)) ?_
  rintro _ (⟨_, rfl, w, ⟨i, hw⟩, rfl⟩ | ⟨i, hw⟩)
  -- the word was taken, or it was not there
  · exact ⟨_, .implementation hw⟩
  · exact ⟨_, .program hw⟩

/-- Footers. -/
theorem footer_tracks : footer.Tracks IsFooter.words := by
  have hname := Language.append_mem_mul isIdent_nonempty (mem_oneToken (symbol .period))
  refine .mono ((expect_tracks (by nofun)).bind (fun _ => ident_tracks.bind (fun _ =>
    (expect_tracks (by nofun)).bind_one fun _ => pure_tracks _) (mem_oneToken _)) hname) ?_
  rintro _ ⟨_, rfl, _, ⟨w, ⟨i, hw⟩, _, rfl, rfl⟩, rfl⟩
  exact ⟨_, .footer hw⟩

end Modula.Parser

import Modula.Proofs.Abreast.Unit
import Modula.Proofs.Calls
/-!
# Answers about retold tokens

  Whatever a cursor is asked for, its answer about retold tokens is the answer about the tokens, retold
  (`Cursor.Retold.answer`).  Afterwards the two cursors stand at the same place again, so that the next
  question can be asked.
-/

namespace Modula

variable {r : Retelling} {begun : Bool}

/-! ## Retold answers -/

def Diagnostic.retell (r : Retelling) : Diagnostic → Diagnostic
  | .lexical e => .lexical e
  | .grammatical e => .grammatical (e.retell r)

def Warning.relabel (r : Relabeling) : Warning → Warning
  | .moduleNameMismatch header footer => .moduleNameMismatch (header.relabel r) (footer.relabel r)

def Report.retell (r : Retelling) (report : Report) : Report :=
  ⟨report.unit.map (CompilationUnit.relabel r.toRelabeling), report.errors.map (Diagnostic.retell r),
    report.warnings.map (Warning.relabel r.toRelabeling)⟩

/-- The answer about retold tokens. -/
def Answer.retell (r : Retelling) : Answer → Answer
  | .expr result => .expr (SyntaxError.retellExcept r (Expr.relabel r.toRelabeling) result)
  | .type result => .type (SyntaxError.retellExcept r (TypeExpr.relabel r.toRelabeling) result)
  | .unit report => .unit (report.retell r)

theorem CompilationUnit.warnings_relabel (r : Relabeling) (u : CompilationUnit) :
    (u.relabel r).warnings = u.warnings.map (Warning.relabel r) := by
  have hname : (u.relabel r).name = u.name.relabel r := by cases u <;> rfl
  have hfooter : (u.relabel r).footer = u.footer.relabel r := by cases u <;> rfl
  rw [warnings, warnings, hname, hfooter, Ident.relabel, Ident.relabel]
  split <;> rfl

theorem Report.retell_ofErrors (errors : List SyntaxError) :
    (ofErrors (errors.map .grammatical)).retell r =
      ofErrors ((errors.map (SyntaxError.retell r)).map .grammatical) := by
  rw [retell, ofErrors, ofErrors, List.map_map, List.map_map]
  rfl

theorem Report.retell_ofLog (u : CompilationUnit) (log : List Recovery) :
    (ofLog u log).retell r = ofLog (u.relabel r.toRelabeling) (log.map (Recovery.retell r)) := by
  cases log with
  | nil =>
    rw [List.map_nil, ofLog, ofLog, ofUnit, ofUnit, retell, CompilationUnit.warnings_relabel]
    rfl
  | cons n log =>
    have herrors := retell_ofErrors (r := r) ((n :: log).map Recovery.error)
    rw [List.map_map, List.map_map, List.map_map] at herrors
    rw [List.map_cons]
    refine herrors.trans ?_
    rw [ofLog, ← List.map_cons, List.map_map]
    · rfl
    · nofun

theorem Session.Retold.errors_eq {s s' : Session} (h : Retold r begun s s') :
    s'.log.map Recovery.error = (s.log.map Recovery.error).map (SyntaxError.retell r) := by
  rw [h.log, List.map_map, List.map_map]
  rfl

/-! ## Asking abreast -/

namespace Cursor.Retold

variable {c c' : Cursor}

theorem readExpr (h : Retold r begun c c') :
    c'.readExpr.1 = SyntaxError.retellExcept r (Expr.relabel r.toRelabeling) c.readExpr.1 ∧
      Retold r begun c.readExpr.2 c'.readExpr.2 := by
  have hrun := Parser.expr_abreast h (x := .compilationUnit)
  unfold Cursor.readExpr
  generalize Parser.expr .compilationUnit c = result at hrun ⊢
  generalize Parser.expr .compilationUnit c' = result' at hrun ⊢
  cases hrun with
  | ok ha hc => exact ⟨congrArg Except.ok ha.symm, hc.weaken begun⟩
  | error he hc => exact ⟨congrArg Except.error he.symm, hc⟩

theorem readType (h : Retold r begun c c') :
    c'.readType.1 = SyntaxError.retellExcept r (TypeExpr.relabel r.toRelabeling) c.readType.1 ∧
      Retold r begun c.readType.2 c'.readType.2 := by
  have hrun := Parser.type_abreast h (x := .compilationUnit)
  unfold Cursor.readType
  generalize Parser.type .compilationUnit c = result at hrun ⊢
  generalize Parser.type .compilationUnit c' = result' at hrun ⊢
  cases hrun with
  | ok ha hc => exact ⟨congrArg Except.ok ha.symm, hc.weaken begun⟩
  | error he hc => exact ⟨congrArg Except.error he.symm, hc⟩

theorem readUnit (h : Retold r begun c c') (options : Options) :
    (c'.readUnit options).1 = (c.readUnit options).1.retell r ∧
      Retold r begun (c.readUnit options).2 (c'.readUnit options).2 := by
  have hsession : Session.Retold r begun ⟨c, []⟩ ⟨c', []⟩ := ⟨h, rfl⟩
  have hrun := Recovering.unit_abreast hsession (x := options)
  unfold Cursor.readUnit
  generalize Recovering.unit options ⟨c, []⟩ = result at hrun ⊢
  generalize Recovering.unit options ⟨c', []⟩ = result' at hrun ⊢
  cases hrun with
  | ok ha hs =>
    refine ⟨?_, hs.cursor.weaken begun⟩
    dsimp only
    rw [Report.retell_ofLog, ha, hs.log]
  | @error e e' s s' he hs =>
    have herrors : s'.log.map Recovery.error ++ [e'] =
        (s.log.map Recovery.error ++ [e]).map (SyntaxError.retell r) := by
      rw [List.map_append, List.map_singleton, he, hs.errors_eq]
    refine ⟨?_, hs.cursor⟩
    dsimp only
    rw [herrors, Report.retell_ofErrors]

/-- Whatever is asked for, the answer is the same one, retold, and reading ends at the same place. -/
theorem answer (h : Retold r begun c c') (options : Options) (request : Request) :
    (c'.answer options request).1 = (c.answer options request).1.retell r ∧
      Retold r begun (c.answer options request).2 (c'.answer options request).2 := by
  cases request with
  | expr => exact ⟨congrArg Answer.expr h.readExpr.1, h.readExpr.2⟩
  | type => exact ⟨congrArg Answer.type h.readType.1, h.readType.2⟩
  | unit => exact ⟨congrArg Answer.unit (h.readUnit options).1, (h.readUnit options).2⟩

end Cursor.Retold

end Modula

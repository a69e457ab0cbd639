import Modula.Report
import Modula.Node
/-!
# Calls

  There are three ways to read at a cursor: it may be asked for an expression, for a type or for a
  compilation unit.  Each of them gives an answer, and a cursor at which the next one can be read.
-/

namespace Modula

/-- What a cursor is asked for. -/
inductive Request where
  | expr
  | type
  | unit
deriving DecidableEq, Repr

/-- What comes back. -/
inductive Answer where
  | expr (result : Except SyntaxError Expr)
  | type (result : Except SyntaxError TypeExpr)
  | unit (report : Report)

/-- What is read at the cursor, and where reading ends. -/
def Cursor.answer (options : Options) (c : Cursor) : Request → Answer × Cursor
  | .expr => (.expr c.readExpr.1, c.readExpr.2)
  | .type => (.type c.readType.1, c.readType.2)
  | .unit => (.unit (c.readUnit options).1, (c.readUnit options).2)

/-- The tree in an answer, if there is one. -/
def Answer.tree? : Answer → Option Node
  | .expr (.ok e) => some (.expr e)
  | .type (.ok t) => some (.type t)
  | .unit report => report.unit.map .unit
  | _ => none

/-! ## Answers with a tree -/

namespace Cursor

variable {options : Options} {c : Cursor} {tree : Node}

theorem exists_expr_of_tree (h : (c.answer options .expr).1.tree? = some tree) :
    ∃ e c', Parser.expr .compilationUnit c = .ok e c' ∧ tree = .expr e ∧
      (c.answer options .expr).2 = c' := by
  rw [answer, readExpr] at h ⊢
  split at h
  · next e c' hrun =>
    cases h
    exact ⟨e, c', hrun, rfl, rfl⟩
  · cases h

theorem exists_type_of_tree (h : (c.answer options .type).1.tree? = some tree) :
    ∃ t c', Parser.type .compilationUnit c = .ok t c' ∧ tree = .type t ∧
      (c.answer options .type).2 = c' := by
  rw [answer, readType] at h ⊢
  split at h
  · next t c' hrun =>
    cases h
    exact ⟨t, c', hrun, rfl, rfl⟩
  · cases h

/-- The tree of a compilation unit is given out only if nothing was noted. -/
theorem exists_unit_of_tree (h : (c.answer options .unit).1.tree? = some tree) :
    ∃ u s, Recovering.unit options ⟨c, []⟩ = .ok u s ∧ s.log = [] ∧ tree = .unit u ∧
      (c.answer options .unit).2 = s.cursor := by
  rw [answer, readUnit] at h ⊢
  split at h
  · next u s hrun =>
    obtain ⟨c', log⟩ := s
    cases log with
    | nil =>
      cases h
      exact ⟨u, ⟨c', []⟩, hrun, rfl, rfl, rfl⟩
    | cons r log => cases h
  · cases h

end Cursor

end Modula

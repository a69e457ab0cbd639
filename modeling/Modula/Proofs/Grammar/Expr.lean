import Modula.Proofs.Grammar.Name
/-!
# The grammar of expressions

      expression  =  simple [relation simple]
      simple      =  signed {addOperator term}
      signed      =  ["+" | "-"] term
      term        =  factor {mulOperator factor}
      factor      =  integer | real | string | qualident | set
                  |  "(" expression ")" | "NOT" factor
      set         =  [qualident] "{" [element {"," element}] "}"
      element     =  expression [".." expression]

  The operators of one level associate to the left, and that is how `Operands` is written: its last
  operator is the root of the tree.  A sign stands over the whole first term, and parentheses make no
  node.
-/

namespace Modula

open Token.Kind (word symbol)

/-- `first {operator operand}`, where the operators are those of one level. -/
inductive Operands (level : Operator.Level) (first operand : Phrase Expr) : Phrase Expr
  | first {w : List Token.Kind} {e : Expr} : first w e → Operands level first operand w e
  | operation {u v : List Token.Kind} {k : Token.Kind} {op : Operator} {lhs rhs : Expr} :
    Operands level first operand u lhs → Operator.ofKindAt? level k = some op → operand v rhs →
      Operands level first operand (u ++ k :: v) ⟨0, .binary op .nowhere lhs rhs, .nowhere⟩

mutual

/-- `simple [relation simple]` -/
inductive IsExpr : Phrase Expr
  | simple {w : List Token.Kind} {e : Expr} : IsSimple w e → IsExpr w e
  | relation {u v : List Token.Kind} {k : Token.Kind} {op : Operator} {lhs rhs : Expr} :
    IsSimple u lhs → Operator.ofKindAt? .relational k = some op → IsSimple v rhs →
      IsExpr (u ++ k :: v) ⟨0, .binary op .nowhere lhs rhs, .nowhere⟩

/-- `signed {addOperator term}` -/
inductive IsSimple : Phrase Expr
  | operands {w : List Token.Kind} {e : Expr} :
    Operands .additive IsSigned IsTerm w e → IsSimple w e

/-- `["+" | "-"] term` -/
inductive IsSigned : Phrase Expr
  | unsigned {w : List Token.Kind} {e : Expr} : IsTerm w e → IsSigned w e
  | signed {w : List Token.Kind} {k : Token.Kind} {sign : Sign} {e : Expr} :
    Sign.ofKind? k = some sign → IsTerm w e → IsSigned (k :: w) ⟨0, .signed sign e, .nowhere⟩

/-- `factor {mulOperator factor}` -/
inductive IsTerm : Phrase Expr
  | operands {w : List Token.Kind} {e : Expr} :
    Operands .multiplicative IsFactor IsFactor w e → IsTerm w e

/-- A literal, a name, a set, an expression in parentheses or a negated factor. -/
inductive IsFactor : Phrase Expr
  | integer (literal : IntLiteral) :
    IsFactor [.integer literal] ⟨0, .integer literal, .nowhere⟩
  | real (text : String) : IsFactor [.real text] ⟨0, .real text, .nowhere⟩
  | string (content : String) : IsFactor [.string content] ⟨0, .string content, .nowhere⟩
  | designator {w : List Token.Kind} {name : Qualident} :
    IsQualident w name → IsFactor w ⟨0, .designator name, .nowhere⟩
  | set {w : List Token.Kind} {elements : List RangeItem} :
    IsElements w elements →
      IsFactor (symbol .openBrace :: (w ++ [symbol .closeBrace]))
        ⟨0, .set none elements, .nowhere⟩
  | typedSet {u w : List Token.Kind} {base : Qualident} {elements : List RangeItem} :
    IsQualident u base → IsElements w elements →
      IsFactor (u ++ symbol .openBrace :: (w ++ [symbol .closeBrace]))
        ⟨0, .set (some base) elements, .nowhere⟩
  | parentheses {w : List Token.Kind} {e : Expr} :
    IsExpr w e → IsFactor (symbol .openParen :: (w ++ [symbol .closeParen])) e
  | not {w : List Token.Kind} {e : Expr} :
    IsFactor w e → IsFactor (word .NOT :: w) ⟨0, .not e, .nowhere⟩

/-- `[element {"," element}]` -/
inductive IsElements : Phrase (List RangeItem)
  | none : IsElements [] []
  | some {w : List Token.Kind} {l : List RangeItem} :
    Separated (symbol .comma) IsElement w l → IsElements w l

/-- `expression [".." expression]` -/
inductive IsElement : Phrase RangeItem
  | one {w : List Token.Kind} {e : Expr} : IsExpr w e → IsElement w ⟨e, none, .nowhere⟩
  | range {u v : List Token.Kind} {low high : Expr} :
    IsExpr u low → IsExpr v high →
      IsElement (u ++ symbol .ellipsis :: v) ⟨low, some high, .nowhere⟩

end

/-! ## Levels

  A sentence of one level is a sentence of every level above it. -/

/-- A factor is a term without operators. -/
theorem IsFactor.isTerm {w : List Token.Kind} {e : Expr} (h : IsFactor w e) : IsTerm w e :=
  .operands (.first h)

/-- A term is a simple expression without a sign and without operators. -/
theorem IsTerm.isSimple {w : List Token.Kind} {e : Expr} (h : IsTerm w e) : IsSimple w e :=
  .operands (.first (.unsigned h))

/-- And a factor is an expression. -/
theorem IsFactor.isExpr {w : List Token.Kind} {e : Expr} (h : IsFactor w e) : IsExpr w e :=
  .simple h.isTerm.isSimple

/-! ## First tokens -/

/-- Whether a factor may begin with the token. -/
def Token.Kind.beginsFactor : Token.Kind → Bool
  | .integer _ | .real _ | .string _ | .name _ => true
  | symbol .openBrace | symbol .openParen | word .NOT => true
  | _ => false

/-- Whether an expression may begin with the token. -/
def Token.Kind.beginsExpr (k : Token.Kind) : Bool := (Sign.ofKind? k).isSome || k.beginsFactor

/-- No factor begins with a sign, so a sign is never part of a term. -/
theorem sign_of_beginsFactor {k : Token.Kind} (h : k.beginsFactor = true) :
    Sign.ofKind? k = none := by
  unfold Sign.ofKind?
  split
  · cases h
  · cases h
  · rfl

/-- With what a factor begins. -/
theorem isFactor_begins : Begins (fun k => k.beginsFactor = true) IsFactor := by
  have hq : ∀ ⦃w q⦄, IsQualident w q → ∃ k v, w = k :: v ∧ k.beginsFactor = true := by
    intro w q hq
    obtain ⟨k, v, rfl, hk⟩ := isQualident_begins hq
    refine ⟨k, v, rfl, ?_⟩
    cases k <;> first | rfl | cases hk
  intro w e hw
  cases hw with
  | integer literal => exact ⟨_, _, rfl, rfl⟩
  | real text => exact ⟨_, _, rfl, rfl⟩
  | string content => exact ⟨_, _, rfl, rfl⟩
  | designator hw => exact hq hw
  | set _ => exact ⟨_, _, rfl, rfl⟩
  | typedSet hu _ =>
    obtain ⟨k, v, rfl, hk⟩ := hq hu
    exact ⟨k, _, List.cons_append, hk⟩
  | parentheses _ => exact ⟨_, _, rfl, rfl⟩
  | not _ => exact ⟨_, _, rfl, rfl⟩

/-- Operands begin as the first of them does. -/
theorem Begins.operands {p : Token.Kind → Prop} {level : Operator.Level}
    {first operand : Phrase Expr} (h : Begins p first) : Begins p (Operands level first operand) := by
  intro w e hw
  induction hw with
  | first hw => exact h hw
  | operation _ _ _ ih =>
    obtain ⟨k, v, rfl, hk⟩ := ih
    exact ⟨k, _, List.cons_append, hk⟩

theorem isTerm_begins : Begins (fun k => k.beginsFactor = true) IsTerm := by
  intro w e hw
  cases hw with
  | operands hw => exact isFactor_begins.operands hw

/-- With a sign, or as a term begins. -/
theorem isSigned_begins : Begins (fun k => k.beginsExpr = true) IsSigned := by
  intro w e hw
  cases hw with
  | unsigned hw =>
    obtain ⟨k, v, rfl, hk⟩ := isTerm_begins hw
    exact ⟨k, v, rfl, by simp [Token.Kind.beginsExpr, hk]⟩
  | signed hs _ => exact ⟨_, _, rfl, by simp [Token.Kind.beginsExpr, hs]⟩

theorem isSimple_begins : Begins (fun k => k.beginsExpr = true) IsSimple := by
  intro w e hw
  cases hw with
  | operands hw => exact isSigned_begins.operands hw

/-- Expressions begin as simple ones do. -/
theorem isExpr_begins : Begins (fun k => k.beginsExpr = true) IsExpr := by
  intro w e hw
  cases hw with
  | simple hw => exact isSimple_begins hw
  | relation hu _ _ =>
    obtain ⟨k, v, rfl, hk⟩ := isSimple_begins hu
    exact ⟨k, _, List.cons_append, hk⟩

/-- And elements as expressions. -/
theorem isElement_begins : Begins (fun k => k.beginsExpr = true) IsElement := by
  intro w r hw
  cases hw with
  | one hw => exact isExpr_begins hw
  | range hu _ =>
    obtain ⟨k, v, rfl, hk⟩ := isExpr_begins hu
    exact ⟨k, _, List.cons_append, hk⟩

/-! ## Following tokens -/

/-- A token that is never part of the factor before it. -/
def EndsFactor (k : Token.Kind) : Prop := k ≠ symbol .period ∧ k ≠ symbol .openBrace

/-- A token that is never part of the term before it. -/
def EndsTerm (k : Token.Kind) : Prop :=
  EndsFactor k ∧ Operator.ofKindAt? .multiplicative k = none

/-- A token that is never part of the simple expression before it. -/
def EndsSimple (k : Token.Kind) : Prop := EndsTerm k ∧ Operator.ofKindAt? .additive k = none

/-- A token that is never part of the expression before it. -/
def EndsExpr (k : Token.Kind) : Prop := EndsSimple k ∧ Operator.ofKindAt? .relational k = none

/-- A token that is never part of the element before it. -/
def EndsElement (k : Token.Kind) : Prop := EndsExpr k ∧ k ≠ symbol .ellipsis

instance : DecidablePred EndsFactor := fun k =>
  inferInstanceAs (Decidable (k ≠ symbol .period ∧ k ≠ symbol .openBrace))

instance : DecidablePred EndsTerm := fun k =>
  inferInstanceAs (Decidable (EndsFactor k ∧ Operator.ofKindAt? .multiplicative k = none))

instance : DecidablePred EndsSimple := fun k =>
  inferInstanceAs (Decidable (EndsTerm k ∧ Operator.ofKindAt? .additive k = none))

instance : DecidablePred EndsExpr := fun k =>
  inferInstanceAs (Decidable (EndsSimple k ∧ Operator.ofKindAt? .relational k = none))

instance : DecidablePred EndsElement := fun k =>
  inferInstanceAs (Decidable (EndsExpr k ∧ k ≠ symbol .ellipsis))

/-- A token stands for an operator of one level only. -/
theorem ofKindAt?_eq_none {level other : Operator.Level} {k : Token.Kind} {op : Operator}
    (h : Operator.ofKindAt? level k = some op) (hne : other ≠ level) :
    Operator.ofKindAt? other k = none := by
  obtain ⟨hk, hl⟩ := Option.filter_eq_some_iff.1 h
  rw [Operator.ofKindAt?, hk, Option.filter_eq_none_iff]
  rintro _ ⟨⟩ ho
  exact hne ((beq_iff_eq.1 ho).symm.trans (beq_iff_eq.1 hl))

/-- No factor goes on with an operator. -/
theorem endsFactor_of_operator {level : Operator.Level} {k : Token.Kind} {op : Operator}
    (h : Operator.ofKindAt? level k = some op) : EndsFactor k := by
  constructor
  · rintro rfl
    cases h
  · rintro rfl
    cases h

/-- An operator is a token that can be read. -/
theorem ne_eof_of_operator {level : Operator.Level} {k : Token.Kind} {op : Operator}
    (h : Operator.ofKindAt? level k = some op) : k ≠ .eof := by
  rintro rfl
  cases h

theorem ne_eof_of_sign {k : Token.Kind} {s : Sign} (h : Sign.ofKind? k = some s) : k ≠ .eof := by
  rintro rfl
  cases h

/-- An operator of a weaker level ends a term. -/
theorem endsTerm_of_additive {k : Token.Kind} {op : Operator}
    (h : Operator.ofKindAt? .additive k = some op) : EndsTerm k :=
  ⟨endsFactor_of_operator h, ofKindAt?_eq_none h nofun⟩

/-- A relation ends a simple expression. -/
theorem endsSimple_of_relational {k : Token.Kind} {op : Operator}
    (h : Operator.ofKindAt? .relational k = some op) : EndsSimple k :=
  ⟨⟨endsFactor_of_operator h, ofKindAt?_eq_none h nofun⟩, ofKindAt?_eq_none h nofun⟩

end Modula

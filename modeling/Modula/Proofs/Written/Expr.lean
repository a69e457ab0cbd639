import Modula.Proofs.Spelling
import Modula.Proofs.Grammar.Expr
/-!
# Expressions written down

  A tree is written down as a sequence of token kinds, its `tokens`.  Every operand of an operator, of
  a sign and of `NOT` gets parentheses, so that nothing is left to how tightly operators bind.

  The tokens of an expression are a sentence of the grammar that stands for this expression, whatever
  the expression is (`Expr.isExpr_tokens`).  They can be spelled as soon as its names and its literals
  can, which is what `isGrammatical` asks for (`Expr.spellable_tokens`).
-/

namespace Modula

open Token.Kind (word symbol)

/-! ## Sequences -/

/-- Sequences of tokens, with a token between two of them. -/
def separatedBy (separator : Token.Kind) (ws : List (List Token.Kind)) : List Token.Kind :=
  [separator].intercalate ws

/-- Every token is one that has a spelling. -/
def Spellable (w : List Token.Kind) : Prop := ∀ k ∈ w, k.isWellFormed = true

theorem separatedBy_singleton (separator : Token.Kind) (w : List Token.Kind) :
    separatedBy separator [w] = w := by
  simp [separatedBy]

/-- The separator stands behind every part but the last one. -/
theorem separatedBy_cons (separator : Token.Kind) (u v : List Token.Kind)
    (ws : List (List Token.Kind)) :
    separatedBy separator (u :: v :: ws) = u ++ separator :: separatedBy separator (v :: ws) := by
  simp [separatedBy, List.intercalate]

/-- Parts that are sentences make a list that is one, if there is a part at all. -/
theorem Separated.of_map {α β : Type} {separator : Token.Kind} {phrase : Phrase β}
    {f : α → List Token.Kind} {g : α → β} {l : List α} (hne : l ≠ [])
    (h : ∀ a ∈ l, phrase (f a) (g a)) :
    Separated separator phrase (separatedBy separator (l.map f)) (l.map g) := by
  -- By induction on the list; a separator is written only if something is left.
  induction l with
  | nil => exact absurd rfl hne
  | cons a l ih =>
    have ha := h a (List.mem_cons_self ..)
    cases l with
    | nil =>
      rw [List.map_singleton, List.map_singleton, separatedBy_singleton]
      exact .one ha
    | cons b l =>
      have hl := ih (List.cons_ne_nil b l) fun c hc => h c (List.mem_cons_of_mem a hc)
      rw [List.map_cons, List.map_cons, separatedBy_cons]
      exact .more ha hl

/-- Parts in a row need not be there. -/
theorem Repeated.of_map {α β : Type} {phrase : Phrase β} {f : α → List Token.Kind} {g : α → β}
    {l : List α} (h : ∀ a ∈ l, phrase (f a) (g a)) :
    Repeated phrase (l.map f).flatten (l.map g) := by
  induction l with
  | nil => exact .none
  | cons a l ih =>
    have ha := h a (List.mem_cons_self ..)
    rw [List.map_cons, List.flatten_cons, List.map_cons]
    exact .more ha (ih fun b hb => h b (List.mem_cons_of_mem a hb))

theorem spellable_nil : Spellable [] := nofun

/-- A row can be spelled if each token can. -/
@[simp] theorem spellable_cons {k : Token.Kind} {w : List Token.Kind} :
    Spellable (k :: w) ↔ k.isWellFormed = true ∧ Spellable w := List.forall_mem_cons

/-- And so can two rows together. -/
@[simp] theorem spellable_append {u v : List Token.Kind} :
    Spellable (u ++ v) ↔ Spellable u ∧ Spellable v := List.forall_mem_append

/-- A list can be spelled if its parts and its separator can. -/
theorem Spellable.separatedBy {separator : Token.Kind} {ws : List (List Token.Kind)}
    (hs : separator.isWellFormed = true) (h : ∀ w ∈ ws, Spellable w) :
    Spellable (separatedBy separator ws) := by
  induction ws with
  | nil => exact spellable_nil
  | cons u ws ih =>
    have hu := h u (List.mem_cons_self ..)
    cases ws with
    | nil =>
      rw [separatedBy_singleton]
      exact hu
    | cons v ws =>
      rw [separatedBy_cons, spellable_append, spellable_cons]
      exact ⟨hu, hs, ih fun w hw => h w (List.mem_cons_of_mem u hw)⟩

theorem Spellable.separatedBy_map {α : Type} {separator : Token.Kind} {f : α → List Token.Kind}
    {l : List α} (hs : separator.isWellFormed = true) (h : ∀ a ∈ l, Spellable (f a)) :
    Spellable (Modula.separatedBy separator (l.map f)) := by
  refine .separatedBy hs fun w hw => ?_
  obtain ⟨a, ha, rfl⟩ := List.mem_map.1 hw
  exact h a ha

/-- Parts without separators, each of which can be spelled. -/
theorem Spellable.flatten {ws : List (List Token.Kind)} (h : ∀ w ∈ ws, Spellable w) :
    Spellable ws.flatten := by
  intro k hk
  obtain ⟨w, hw, hkw⟩ := List.mem_flatten.1 hk
  exact h w hw k hkw

/-! ## Names -/

def Ident.tokens (i : Ident) : List Token.Kind := [.name i.name]

def Qualident.tokens (q : Qualident) : List Token.Kind :=
  separatedBy (symbol .period) (q.parts.map Ident.tokens)

def IdentList.tokens (l : IdentList) : List Token.Kind :=
  separatedBy (symbol .comma) (l.idents.map Ident.tokens)

/-- Whether the name is a word that is not reserved. -/
def Ident.isGrammatical (i : Ident) : Bool := isFreeName i.name

def Qualident.isGrammatical (q : Qualident) : Bool := q.parts.all Ident.isGrammatical

def IdentList.isGrammatical (l : IdentList) : Bool := l.idents.all Ident.isGrammatical

/-- What is written for a name is the name. -/
theorem Ident.isIdent_tokens (i : Ident) : IsIdent i.tokens (i.relabel .forget) := .name i.name

/-- Segments with periods. -/
theorem Qualident.isQualident_tokens (q : Qualident) : IsQualident q.tokens (q.relabel .forget) :=
  .parts (Separated.of_map (List.cons_ne_nil _ _) fun i _ => i.isIdent_tokens)

/-- Names with commas. -/
theorem IdentList.isIdentList_tokens (l : IdentList) : IsIdentList l.tokens (l.relabel .forget) :=
  .idents (Separated.of_map (List.cons_ne_nil _ _) fun i _ => i.isIdent_tokens)

theorem Ident.spellable_tokens {i : Ident} (h : i.isGrammatical = true) : Spellable i.tokens :=
  spellable_cons.2 ⟨h, spellable_nil⟩

/-- A list of names is spelled name by name. -/
theorem spellable_idents {separator : Token.Kind} {l : List Ident}
    (hs : separator.isWellFormed = true) (h : l.all Ident.isGrammatical = true) :
    Spellable (separatedBy separator (l.map Ident.tokens)) :=
  .separatedBy_map hs fun i hi => Ident.spellable_tokens (List.all_eq_true.1 h i hi)

/-- If each segment is a name that can be spelled. -/
theorem Qualident.spellable_tokens {q : Qualident} (h : q.isGrammatical = true) :
    Spellable q.tokens := spellable_idents rfl h

theorem IdentList.spellable_tokens {l : IdentList} (h : l.isGrammatical = true) :
    Spellable l.tokens := spellable_idents rfl h

/-! ## Operators -/

/-- How a sign is written. -/
def Sign.kind : Sign → Token.Kind
  | .plus => symbol .plus
  | .minus => symbol .minus

/-- How an operator is written, in its preferred spelling. -/
def Operator.kind : Operator → Token.Kind
  | .add => symbol .plus
  | .sub => symbol .minus
  | .or => word .OR
  | .mul => symbol .times
  | .divide => symbol .divide
  | .div => word .DIV
  | .mod => word .MOD
  | .and => word .AND
  | .eq => symbol .equal
  | .ne => symbol .hash
  | .lt => symbol .less
  | .le => symbol .lessEqual
  | .gt => symbol .greater
  | .ge => symbol .greaterEqual
  | .isIn => word .IN

/-- The token of a sign stands for the sign. -/
theorem Sign.ofKind?_kind (sign : Sign) : Sign.ofKind? sign.kind = some sign := by
  cases sign <;> rfl

/-- An operator is written by a token that stands for it, at its own level. -/
theorem Operator.ofKindAt?_kind (op : Operator) : ofKindAt? op.level op.kind = some op := by
  cases op <;> rfl

theorem Sign.isWellFormed_kind (sign : Sign) : sign.kind.isWellFormed = true := by
  cases sign <;> rfl

/-- Of two spellings the first one is written. -/
theorem Operator.isWellFormed_kind (op : Operator) : op.kind.isWellFormed = true := by
  cases op <;> rfl

/-! ## Expressions -/

/-- A sequence of tokens in parentheses. -/
def parenthesized (w : List Token.Kind) : List Token.Kind :=
  symbol .openParen :: (w ++ [symbol .closeParen])

mutual

def Expr.tokens : Expr → List Token.Kind
  | ⟨_, kind, _⟩ => kind.tokens

def ExprKind.tokens : ExprKind → List Token.Kind
  | .integer literal => [.integer literal]
  | .real text => [.real text]
  | .string content => [.string content]
  | .designator name => name.tokens
  | .set none elements =>
    symbol .openBrace :: (separatedBy (symbol .comma) (RangeItem.tokensOfAll elements) ++
      [symbol .closeBrace])
  | .set (some base) elements =>
    base.tokens ++ symbol .openBrace ::
      (separatedBy (symbol .comma) (RangeItem.tokensOfAll elements) ++ [symbol .closeBrace])
  | .not operand => word .NOT :: parenthesized operand.tokens
  | .signed sign operand => sign.kind :: parenthesized operand.tokens
  | .binary op _ lhs rhs => parenthesized lhs.tokens ++ op.kind :: parenthesized rhs.tokens

def RangeItem.tokens : RangeItem → List Token.Kind
  | ⟨lhs, rhs, _⟩ => lhs.tokens ++ Expr.tokensOfUpper rhs

def RangeItem.tokensOfAll : List RangeItem → List (List Token.Kind)
  | [] => []
  | i :: is => i.tokens :: RangeItem.tokensOfAll is

/-- The upper end of a range, if there is one. -/
def Expr.tokensOfUpper : Option Expr → List Token.Kind
  | none => []
  | some e => symbol .ellipsis :: e.tokens

end

mutual

/-- Whether names and literals of the expression can be spelled. -/
def Expr.isGrammatical : Expr → Bool
  | ⟨_, kind, _⟩ => kind.isGrammatical

def ExprKind.isGrammatical : ExprKind → Bool
  | .integer literal => (Token.Kind.integer literal).isWellFormed
  | .real text => (Token.Kind.real text).isWellFormed
  | .string content => (Token.Kind.string content).isWellFormed
  | .designator name => name.isGrammatical
  | .set base elements => base.all Qualident.isGrammatical && RangeItem.areGrammatical elements
  | .not operand => operand.isGrammatical
  | .signed _ operand => operand.isGrammatical
  | .binary _ _ lhs rhs => lhs.isGrammatical && rhs.isGrammatical

def RangeItem.isGrammatical : RangeItem → Bool
  | ⟨lhs, rhs, _⟩ => lhs.isGrammatical && Expr.isGrammaticalUpper rhs

def RangeItem.areGrammatical : List RangeItem → Bool
  | [] => true
  | i :: is => i.isGrammatical && RangeItem.areGrammatical is

def Expr.isGrammaticalUpper : Option Expr → Bool
  | none => true
  | some e => e.isGrammatical

end

@[simp] theorem RangeItem.tokensOfAll_eq_map (l : List RangeItem) :
    RangeItem.tokensOfAll l = l.map RangeItem.tokens := by
  induction l with
  | nil => rfl
  | cons i is ih => rw [RangeItem.tokensOfAll, ih, List.map_cons]

/-! ## What the grammar says -/

/-- Between factors, the level of an operator does not matter. -/
theorem IsFactor.isExpr_binary {u v : List Token.Kind} {op : Operator} {lhs rhs : Expr}
    (hu : IsFactor u lhs) (hv : IsFactor v rhs) :
    IsExpr (u ++ op.kind :: v) ⟨0, .binary op .nowhere lhs rhs, .nowhere⟩ := by
  -- a factor stands at every level, so the operator finds its operands at its own
  have hop := op.ofKindAt?_kind
  cases hlevel : op.level with
  | relational =>
    rw [hlevel] at hop
    exact .relation hu.isTerm.isSimple hop hv.isTerm.isSimple
  | additive =>
    rw [hlevel] at hop
    exact .simple (.operands (.operation (.first (.unsigned hu.isTerm)) hop hv.isTerm))
  | multiplicative =>
    rw [hlevel] at hop
    have hterm : IsTerm (u ++ op.kind :: v) _ := .operands (.operation (.first hu) hop hv)
    exact .simple hterm.isSimple

/-- The elements of a set, each of which stands for itself. -/
theorem IsElements.of_map {l : List RangeItem}
    (h : ∀ i ∈ l, IsElement i.tokens (i.relabel .forget)) :
    IsElements (separatedBy (symbol .comma) (RangeItem.tokensOfAll l))
      (RangeItem.relabelAll .forget l) := by
  rw [RangeItem.tokensOfAll_eq_map, RangeItem.relabelAll_eq_map]
  cases l with
  | nil => exact .none
  | cons i is => exact .some (Separated.of_map (List.cons_ne_nil i is) h)

mutual

/-- What is written down for an expression stands for it. -/
theorem Expr.isExpr_tokens : ∀ e : Expr, IsExpr e.tokens (e.relabel .forget)
  | ⟨_, kind, _⟩ => kind.isExpr_tokens

/-- One case for each kind of expression.  Operands are in parentheses, so each of them is a factor. -/
theorem ExprKind.isExpr_tokens :
    ∀ kind : ExprKind, IsExpr kind.tokens ⟨0, kind.relabel .forget, .nowhere⟩
  | .integer literal => (IsFactor.integer literal).isExpr
  | .real text => (IsFactor.real text).isExpr
  | .string content => (IsFactor.string content).isExpr
  | .designator name => (IsFactor.designator name.isQualident_tokens).isExpr
  | .set none elements => (IsFactor.set (.of_map (RangeItem.isElement_tokens_all elements))).isExpr
  | .set (some base) elements =>
    (IsFactor.typedSet base.isQualident_tokens
      (.of_map (RangeItem.isElement_tokens_all elements))).isExpr
  | .not operand => (IsFactor.not (.parentheses operand.isExpr_tokens)).isExpr
  | .signed sign operand =>
    .simple (.operands (.first
      (.signed sign.ofKind?_kind (IsFactor.parentheses operand.isExpr_tokens).isTerm)))
  | .binary _ _ lhs rhs =>
    IsFactor.isExpr_binary (.parentheses lhs.isExpr_tokens) (.parentheses rhs.isExpr_tokens)

/-- One bound or two. -/
theorem RangeItem.isElement_tokens : ∀ i : RangeItem, IsElement i.tokens (i.relabel .forget)
  | ⟨lhs, none, _⟩ => by
    show IsElement (lhs.tokens ++ []) _
    rw [List.append_nil]
    exact .one lhs.isExpr_tokens
  | ⟨lhs, some rhs, _⟩ => .range lhs.isExpr_tokens rhs.isExpr_tokens

/-- All elements of a set, in the recursion of the trees. -/
theorem RangeItem.isElement_tokens_all :
    ∀ l : List RangeItem, ∀ i ∈ l, IsElement i.tokens (i.relabel .forget)
  | [] => List.forall_mem_nil _
  | i :: is => List.forall_mem_cons.2 ⟨i.isElement_tokens, RangeItem.isElement_tokens_all is⟩

end

/-! ## What can be spelled -/

/-- Parentheses can be spelled. -/
theorem Spellable.parenthesized {w : List Token.Kind} (h : Spellable w) :
    Spellable (parenthesized w) := by
  rw [Modula.parenthesized, spellable_cons, spellable_append, spellable_cons]
  exact ⟨rfl, h, rfl, spellable_nil⟩

/-- Tokens between braces. -/
theorem Spellable.elements {l : List RangeItem} (h : ∀ i ∈ l, Spellable i.tokens) :
    Spellable (symbol .openBrace ::
      (Modula.separatedBy (symbol .comma) (RangeItem.tokensOfAll l) ++ [symbol .closeBrace])) := by
  rw [RangeItem.tokensOfAll_eq_map, spellable_cons, spellable_append, spellable_cons]
  exact ⟨rfl, .separatedBy_map rfl h, rfl, spellable_nil⟩

mutual

theorem Expr.spellable_tokens : ∀ e : Expr, e.isGrammatical = true → Spellable e.tokens
  | ⟨_, kind, _⟩, h => kind.spellable_tokens h

/-- One case for each kind of expression; literals and names are where spelling may fail. -/
theorem ExprKind.spellable_tokens :
    ∀ kind : ExprKind, kind.isGrammatical = true → Spellable kind.tokens
  | .integer _, h => spellable_cons.2 ⟨h, spellable_nil⟩
  | .real _, h => spellable_cons.2 ⟨h, spellable_nil⟩
  | .string _, h => spellable_cons.2 ⟨h, spellable_nil⟩
  | .designator _, h => Qualident.spellable_tokens h
  | .set none elements, h => .elements (RangeItem.spellable_tokens_all elements h)
  | .set (some base) elements, h => by
    obtain ⟨hbase, helements⟩ := Bool.and_eq_true_iff.1 h
    exact spellable_append.2 ⟨Qualident.spellable_tokens hbase,
      .elements (RangeItem.spellable_tokens_all elements helements)⟩
  | .not operand, h => spellable_cons.2 ⟨rfl, (operand.spellable_tokens h).parenthesized⟩
  | .signed sign operand, h =>
    spellable_cons.2 ⟨sign.isWellFormed_kind, (operand.spellable_tokens h).parenthesized⟩
  | .binary op _ lhs rhs, h => by
    obtain ⟨hlhs, hrhs⟩ := Bool.and_eq_true_iff.1 h
    exact spellable_append.2 ⟨(lhs.spellable_tokens hlhs).parenthesized,
      spellable_cons.2 ⟨op.isWellFormed_kind, (rhs.spellable_tokens hrhs).parenthesized⟩⟩

/-- If the bounds can be spelled. -/
theorem RangeItem.spellable_tokens :
    ∀ i : RangeItem, i.isGrammatical = true → Spellable i.tokens
  | ⟨lhs, none, _⟩, h =>
    spellable_append.2 ⟨lhs.spellable_tokens (Bool.and_eq_true_iff.1 h).1, spellable_nil⟩
  | ⟨lhs, some rhs, _⟩, h => by
    obtain ⟨hlhs, hrhs⟩ := Bool.and_eq_true_iff.1 h
    exact spellable_append.2 ⟨lhs.spellable_tokens hlhs,
      spellable_cons.2 ⟨rfl, rhs.spellable_tokens hrhs⟩⟩

theorem RangeItem.spellable_tokens_all :
    ∀ l : List RangeItem, RangeItem.areGrammatical l = true → ∀ i ∈ l, Spellable i.tokens
  | [], _ => List.forall_mem_nil _
  | i :: is, h => by
    obtain ⟨hi, his⟩ := Bool.and_eq_true_iff.1 h
    exact List.forall_mem_cons.2 ⟨i.spellable_tokens hi, RangeItem.spellable_tokens_all is his⟩

end

end Modula

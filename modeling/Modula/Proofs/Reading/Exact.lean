import Modula.Lexer
import Modula.Proofs.Pratt
import Modula.Proofs.Reading.TypeExpr
import Modula.Proofs.Tracking.TypeExpr
/-!
# Parsers that read exactly a phrase

  The two sides from which a parser is measured speak about kinds of tokens.  Together with the movement
  of the cursor they say what becomes of the tokens themselves (`ReadsExactly.of_tracks`).

  * **Sound.**  The tokens between the two cursors are a sentence that stands for the value.
  * **Complete.**  A sentence is read up to its last token, if a token that may follow comes next.

  Expressions and types are read in this way.  What may follow an expression is every token that is not
  the beginning of a further operation, of a further part of a name or of a set; what may follow a type
  is still less restricted (`EndsType`), and it includes the semicolon and the end of the source.

  A phrase that is read exactly is not ambiguous, for the parser makes one value of a sentence
  (`ReadsAll.unique`).
-/

namespace Modula

open Token.Kind (word symbol)

variable {α β : Type}

namespace Parser

/-- The parser takes sentences of the phrase, as long as they are, and makes of them what they stand
for. -/
structure ReadsExactly (p : Parser α) (f : α → β) (phrase : Phrase β) (follow : Token.Kind → Prop) :
    Prop where
  /-- The tokens that were taken are a sentence that stands for the value. -/
  sound : ∀ {construct : Construct} {c c' : Cursor} {a : α}, p construct c = .ok a c' →
    ∃ ts, c.rest = ts ++ c'.rest ∧ phrase (ts.map Token.kind) (f a)
  /-- Of a sentence with the right token behind it, all tokens are taken and no others. -/
  complete : ∀ {c : Cursor} {ts rest : List Token} {b : β} (construct : Construct),
    c.rest = ts ++ rest → phrase (ts.map Token.kind) b → follow (upcoming (rest.map Token.kind)) →
      ∃ a c', p construct c = .ok a c' ∧ f a = b ∧ c'.rest = rest

section

variable {p : Parser α} {f : α → β} {phrase : Phrase β} {follow follow' : Token.Kind → Prop}

theorem ReadsExactly.mono (h : ReadsExactly p f phrase follow) (hfollow : ∀ k, follow' k → follow k) :
    ReadsExactly p f phrase follow' where
  sound := h.sound
  complete construct hc hb hf := h.complete construct hc hb (hfollow _ hf)

/-- A parser moves over unread tokens; so their kinds tell which ones it has taken. -/
theorem ReadsExactly.of_tracks {L : Language Token.Kind} (ht : p.Tracks L)
    (honly : ReadsOnly p f phrase) (hall : ∀ n, ReadsAll n p f phrase follow) :
    ReadsExactly p f phrase follow where
  sound := by
    intro construct c c' a hrun
    obtain ⟨_, -, -, ts, hts, -⟩ := (ht construct c).reaches hrun
    obtain ⟨w, hw, ha⟩ := honly hrun
    have hkinds : ts.map Token.kind = w :=
      List.append_cancel_right ((Cursor.kinds_of_rest hts).symm.trans hw)
    exact ⟨ts, hts, hkinds ▸ ha⟩
  complete := by
    intro c ts rest b construct hc hb hf
    obtain ⟨a, c', hrun, ha, hc'⟩ := hall _ construct (Cursor.kinds_of_rest hc) hb le_rfl hf
    obtain ⟨_, -, -, us, hus, -⟩ := (ht construct c).reaches hrun
    have hlength : c'.rest.length = rest.length := by
      rw [← List.length_map Token.kind, ← List.length_map Token.kind]
      exact congrArg List.length hc'
    exact ⟨a, c', hrun, ha, List.append_inj_right' (hus.symm.trans hc) hlength⟩

end

/-! ## Expressions -/

/-- An expression ends in front of a token that is no operator and that neither continues a name nor
opens a set. -/
theorem endsExpr_of_ofKind? {k : Token.Kind}
    (h : Operator.ofKind? k = none ∧ k ≠ symbol .period ∧ k ≠ symbol .openBrace) : EndsExpr k := by
  have hlevel : ∀ level, Operator.ofKindAt? level k = none := by
    intro level
    rw [Operator.ofKindAt?, h.1, Option.filter_none]
  exact ⟨⟨⟨h.2, hlevel _⟩, hlevel _⟩, hlevel _⟩

/-- Binding powers read the expressions of the grammar. -/
theorem prattExpr_readsExactly : prattExpr = expr ∧
    ReadsExactly prattExpr (Expr.relabel .forget) IsExpr fun k =>
      Operator.ofKind? k = none ∧ k ≠ symbol .period ∧ k ≠ symbol .openBrace := by
  have hexpr : ReadsExactly expr (Expr.relabel .forget) IsExpr EndsExpr :=
    .of_tracks expr_tracks expr_readsOnly expr_readsAll
  refine ⟨prattExpr_eq, ?_⟩
  rw [prattExpr_eq]
  exact hexpr.mono fun k => endsExpr_of_ofKind?

/-- A name of one part. -/
def bareName (text : String) : Qualident := .ofIdent ⟨text, .nowhere⟩

theorem isQualident_bareName (text : String) : IsQualident [.name text] (bareName text) :=
  .parts (.one (.name text))

/-- A product of two names. -/
def bareProduct (a b : String) : Expr :=
  ⟨0, .binary .mul .nowhere ⟨0, .designator (bareName a), .nowhere⟩
    ⟨0, .designator (bareName b), .nowhere⟩, .nowhere⟩

/-- A sign, a product and a sum. -/
def negatedProductAndSum : Cursor := .ofTokens (tokenize "-a * b + c;").tokens

/-- The sign stands over the product, and the sum over both. -/
theorem prattExpr_readsExactly_sum : ∃ e c',
    prattExpr .compilationUnit negatedProductAndSum = .ok e c' ∧
      e.relabel .forget = ⟨0, .binary .add .nowhere ⟨0, .signed .minus (bareProduct "a" "b"), .nowhere⟩
        ⟨0, .designator (bareName "c"), .nowhere⟩, .nowhere⟩ ∧
      c'.rest = negatedProductAndSum.rest.drop 6 := by
  have hname : ∀ text, IsFactor [.name text] ⟨0, .designator (bareName text), .nowhere⟩ :=
    fun text => .designator (isQualident_bareName text)
  have hproduct : IsTerm [.name "a", symbol .times, .name "b"] (bareProduct "a" "b") :=
    .operands (.operation (.first (hname "a")) rfl (hname "b"))
  have hsigned : IsSigned [symbol .minus, .name "a", symbol .times, .name "b"]
      ⟨0, .signed .minus (bareProduct "a" "b"), .nowhere⟩ := .signed rfl hproduct
  have hkinds : (negatedProductAndSum.rest.take 6).map Token.kind =
      [symbol .minus, .name "a", symbol .times, .name "b", symbol .plus, .name "c"] := by
    decide +kernel
  refine prattExpr_readsExactly.2.complete .compilationUnit (List.take_append_drop 6 _).symm ?_ ?_
  · rw [hkinds]
    exact .simple (.operands (.operation (.first hsigned) rfl (hname "c").isTerm))
  · decide +kernel

/-! ## Types -/

/-- Types of the grammar are read, in front of a semicolon, at the end of the source, and in front of
every other token that continues none. -/
theorem type_readsExactly :
    ReadsExactly type (TypeExpr.relabel .forget) IsType EndsType ∧
      EndsType (symbol .semicolon) ∧ EndsType .eof :=
  ⟨.of_tracks type_tracks type_readsOnly type_readsAll, by decide, by decide⟩

/-- Two indexes, and elements with a type of more than one token. -/
def arrayOfPointers : Cursor := .ofTokens (tokenize "ARRAY a, b OF POINTER TO c;").tokens

/-- A named type. -/
def bareType (text : String) : TypeExpr := ⟨0, .named (bareName text), .nowhere⟩

/-- The indexes stand for one array within the other. -/
theorem type_readsExactly_array : ∃ t c',
    type .compilationUnit arrayOfPointers = .ok t c' ∧
      t.relabel .forget =
        nested [bareType "a", bareType "b"] ⟨0, .pointer (bareType "c"), .nowhere⟩ ∧
      c'.rest = arrayOfPointers.rest.drop 8 := by
  have hname : ∀ text, IsSimpleType [.name text] (bareType text) :=
    fun text => .named (isQualident_bareName text)
  have hindexes : Separated (symbol .comma) IsSimpleType [.name "a", symbol .comma, .name "b"]
      [bareType "a", bareType "b"] := .more (hname "a") (.one (hname "b"))
  have hkinds : (arrayOfPointers.rest.take 8).map Token.kind =
      [word .ARRAY, .name "a", symbol .comma, .name "b", word .OF, word .POINTER, word .TO,
        .name "c"] := by
    decide +kernel
  refine type_readsExactly.1.complete .compilationUnit (List.take_append_drop 8 _).symm ?_ ?_
  · rw [hkinds]
    exact .array hindexes (.pointer (.simple (hname "c")))
  · decide +kernel

end Parser

end Modula

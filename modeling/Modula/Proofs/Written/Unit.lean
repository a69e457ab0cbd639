import Modula.Proofs.Written.TypeExpr
import Modula.Proofs.Grammar.Unit
/-!
# Compilation units written down

  Imports, items and sections follow each other without anything between them; each ends with a
  token of its own.  Every compilation unit is a sentence of the grammar once its types are
  (`CompilationUnit.isUnit_tokens`), and it can be spelled (`CompilationUnit.spellable_tokens`).
-/

namespace Modula

open Token.Kind (word symbol)

/-! ## What is written -/

def Import.tokens (i : Import) : List Token.Kind :=
  match i.kind with
  | .qualified modules => word .IMPORT :: (modules.tokens ++ [symbol .semicolon])
  | .unqualified source names =>
    word .FROM :: (source.tokens ++ word .IMPORT :: (names.tokens ++ [symbol .semicolon]))

def ConstItem.tokens (c : ConstItem) : List Token.Kind :=
  c.name.tokens ++ symbol .equal :: (c.value.tokens ++ [symbol .semicolon])

def TypeItem.tokens (t : TypeItem) : List Token.Kind :=
  t.name.tokens ++ symbol .equal :: (t.type.tokens ++ [symbol .semicolon])

def Declaration.tokens (d : Declaration) : List Token.Kind :=
  match d.kind with
  | .constants items => word .CONST :: (items.map ConstItem.tokens).flatten
  | .types items => word .TYPE :: (items.map TypeItem.tokens).flatten

/-- `BEGIN`, if there is a body. -/
def bodyTokens : Option Span → List Token.Kind
  | none => []
  | some _ => [word .BEGIN]

def Block.tokens (b : Block) : List Token.Kind :=
  (b.declarations.map Declaration.tokens).flatten ++ bodyTokens b.body

/-- The name of a module, where the module begins. -/
def Ident.headerTokens (i : Ident) : List Token.Kind :=
  word .MODULE :: (i.tokens ++ [symbol .semicolon])

/-- The name of a module, where the module ends. -/
def Ident.footerTokens (i : Ident) : List Token.Kind :=
  word .END :: (i.tokens ++ [symbol .period])

def DefinitionModule.tokens (m : DefinitionModule) : List Token.Kind :=
  word .DEFINITION :: m.name.headerTokens ++ ((m.imports.map Import.tokens).flatten ++
    ((m.declarations.map Declaration.tokens).flatten ++ m.footer.footerTokens))

def ProgramModule.tokens (m : ProgramModule) : List Token.Kind :=
  (if m.isImplementation then word .IMPLEMENTATION :: m.name.headerTokens
    else m.name.headerTokens) ++
    ((m.imports.map Import.tokens).flatten ++ (m.block.tokens ++ m.footer.footerTokens))

def CompilationUnit.tokens : CompilationUnit → List Token.Kind
  | .definition m => m.tokens
  | .program m => m.tokens

/-! ## What can be written -/

def Import.isGrammatical (i : Import) : Bool :=
  match i.kind with
  | .qualified modules => modules.isGrammatical
  | .unqualified source names => source.isGrammatical && names.isGrammatical

def ConstItem.isGrammatical (c : ConstItem) : Bool := c.name.isGrammatical && c.value.isGrammatical

def TypeItem.isGrammatical (t : TypeItem) : Bool := t.name.isGrammatical && t.type.isGrammatical

def Declaration.isGrammatical (d : Declaration) : Bool :=
  match d.kind with
  | .constants items => items.all ConstItem.isGrammatical
  | .types items => items.all TypeItem.isGrammatical

/-- Whether the grammar has a sentence for the unit, of tokens that can be spelled. -/
def CompilationUnit.isGrammatical : CompilationUnit → Bool
  | .definition m =>
    (m.name.isGrammatical && m.footer.isGrammatical) &&
      (m.imports.all Import.isGrammatical && m.declarations.all Declaration.isGrammatical)
  | .program m =>
    (m.name.isGrammatical && m.footer.isGrammatical) &&
      (m.imports.all Import.isGrammatical && m.block.declarations.all Declaration.isGrammatical)

/-! ## What the grammar says -/

/-- Both kinds of import, with the semicolon. -/
theorem Import.isImport_tokens (i : Import) : IsImport i.tokens (i.relabel .forget) := by
  rcases i with ⟨kind, span⟩
  cases kind with
  | qualified modules => exact .qualified modules.isIdentList_tokens
  | unqualified source names => exact .unqualified source.isIdent_tokens names.isIdentList_tokens

/-- A constant with its value. -/
theorem ConstItem.isConstItem_tokens (c : ConstItem) :
    IsConstItem c.tokens (c.relabel .forget) := .item c.name.isIdent_tokens c.value.isExpr_tokens

/-- A type must be one that can be written. -/
theorem TypeItem.isTypeItem_tokens {t : TypeItem} (h : t.isGrammatical = true) :
    IsTypeItem t.tokens (t.relabel .forget) :=
  .item t.name.isIdent_tokens (t.type.isType_tokens (Bool.and_eq_true_iff.1 h).2)

/-- A section may have no items. -/
theorem Declaration.isSection_tokens {d : Declaration} (h : d.isGrammatical = true) :
    IsSection d.tokens (d.relabel .forget) := by
  rcases d with ⟨id, kind, span⟩
  cases kind with
  | constants items => exact .constants (.of_map fun c _ => c.isConstItem_tokens)
  | types items =>
    have hitems : ∀ t ∈ items, t.isGrammatical = true := List.all_eq_true.1 h
    exact .types (.of_map fun t ht => TypeItem.isTypeItem_tokens (hitems t ht))

/-- Grammatical sections are sections of the grammar, one behind the other. -/
theorem Repeated.sections {l : List Declaration} (h : l.all Declaration.isGrammatical = true) :
    Repeated IsSection (l.map Declaration.tokens).flatten (l.map (Declaration.relabel .forget)) :=
  .of_map fun d hd => Declaration.isSection_tokens (List.all_eq_true.1 h d hd)

/-- Statements are not part of a tree, only the place of the `BEGIN` in front of them. -/
theorem Block.isBlock_tokens {b : Block}
    (h : b.declarations.all Declaration.isGrammatical = true) :
    IsBlock b.tokens (b.relabel .forget) := by
  rcases b with ⟨declarations, body, span⟩
  cases body with
  | none => exact .block (.sections h) .none
  | some begins => exact .block (.sections h) .some

/-- What is written down for a grammatical unit stands for it. -/
theorem CompilationUnit.isUnit_tokens {u : CompilationUnit} (h : u.isGrammatical = true) :
    IsUnit u.tokens (u.relabel .forget) := by
  have header : ∀ i : Ident, IsModuleName i.headerTokens (i.relabel .forget) :=
    fun i => .name i.isIdent_tokens
  have footer : ∀ i : Ident, IsFooter i.footerTokens (i.relabel .forget) :=
    fun i => .footer i.isIdent_tokens
  have imports : ∀ l : List Import,
      Repeated IsImport (l.map Import.tokens).flatten (l.map (Import.relabel .forget)) :=
    fun l => .of_map fun i _ => i.isImport_tokens
  cases u with
  | definition m =>
    obtain ⟨-, hparts⟩ := Bool.and_eq_true_iff.1 h
    obtain ⟨-, hdeclarations⟩ := Bool.and_eq_true_iff.1 hparts
    exact .definition (.header (header m.name)) (imports m.imports) (.sections hdeclarations)
      (footer m.footer)
  | program m =>
    obtain ⟨-, hparts⟩ := Bool.and_eq_true_iff.1 h
    obtain ⟨-, hdeclarations⟩ := Bool.and_eq_true_iff.1 hparts
    rcases m with ⟨isImplementation, name, imported, block, closing, span⟩
    cases isImplementation with
    | false =>
      exact .program (.program (header name)) (imports imported)
        (Block.isBlock_tokens hdeclarations) (footer closing)
    | true =>
      exact .program (.implementation (header name)) (imports imported)
        (Block.isBlock_tokens hdeclarations) (footer closing)

/-! ## What can be spelled -/

/-- If its names can be spelled. -/
theorem Import.spellable_tokens {i : Import} (h : i.isGrammatical = true) :
    Spellable i.tokens := by
  rcases i with ⟨kind, span⟩
  cases kind with
  | qualified modules =>
    rw [tokens, spellable_cons, spellable_append]
    exact ⟨rfl, IdentList.spellable_tokens h, spellable_cons.2 ⟨rfl, spellable_nil⟩⟩
  | unqualified source names =>
    obtain ⟨hsource, hnames⟩ := Bool.and_eq_true_iff.1 h
    rw [tokens, spellable_cons, spellable_append, spellable_cons, spellable_append]
    exact ⟨rfl, Ident.spellable_tokens hsource, rfl, IdentList.spellable_tokens hnames,
      spellable_cons.2 ⟨rfl, spellable_nil⟩⟩

/-- An item is its name, an equals sign, what the name stands for, and a semicolon. -/
theorem Spellable.item {i : Ident} {w : List Token.Kind} (hi : i.isGrammatical = true)
    (hw : Spellable w) :
    Spellable (i.tokens ++ symbol .equal :: (w ++ [symbol .semicolon])) := by
  rw [spellable_append, spellable_cons, spellable_append]
  exact ⟨Ident.spellable_tokens hi, rfl, hw, spellable_cons.2 ⟨rfl, spellable_nil⟩⟩

/-- Sentences one behind the other can be spelled one by one. -/
theorem Spellable.all {α : Type} {l : List α} {f : α → List Token.Kind} {p : α → Bool}
    (hl : l.all p = true) (h : ∀ a, p a = true → Spellable (f a)) :
    Spellable (l.map f).flatten := by
  refine .flatten fun w hw => ?_
  obtain ⟨a, ha, rfl⟩ := List.mem_map.1 hw
  exact h a (List.all_eq_true.1 hl a ha)

theorem ConstItem.spellable_tokens (c : ConstItem) (h : c.isGrammatical = true) :
    Spellable c.tokens := by
  obtain ⟨hname, hvalue⟩ := Bool.and_eq_true_iff.1 h
  exact .item hname (c.value.spellable_tokens hvalue)

theorem TypeItem.spellable_tokens (t : TypeItem) (h : t.isGrammatical = true) :
    Spellable t.tokens := by
  obtain ⟨hname, htype⟩ := Bool.and_eq_true_iff.1 h
  exact .item hname (t.type.spellable_tokens htype)

/-- If its items can be spelled. -/
theorem Declaration.spellable_tokens (d : Declaration) (h : d.isGrammatical = true) :
    Spellable d.tokens := by
  rcases d with ⟨id, kind, span⟩
  cases kind with
  | constants items => exact spellable_cons.2 ⟨rfl, .all h ConstItem.spellable_tokens⟩
  | types items => exact spellable_cons.2 ⟨rfl, .all h TypeItem.spellable_tokens⟩

theorem Block.spellable_tokens {b : Block}
    (h : b.declarations.all Declaration.isGrammatical = true) : Spellable b.tokens := by
  have hbody : Spellable (bodyTokens b.body) := by
    cases b.body with
    | none => exact spellable_nil
    | some begins => exact spellable_cons.2 ⟨rfl, spellable_nil⟩
  exact spellable_append.2 ⟨.all h Declaration.spellable_tokens, hbody⟩

/-- What is written down for a grammatical unit can be spelled. -/
theorem CompilationUnit.spellable_tokens {u : CompilationUnit} (h : u.isGrammatical = true) :
    Spellable u.tokens := by
  have around : ∀ {i : Ident} {first last : Token.Kind}, i.isGrammatical = true →
      first.isWellFormed = true → last.isWellFormed = true →
        Spellable (first :: (i.tokens ++ [last])) := by
    intro i first last hi hfirst hlast
    rw [spellable_cons, spellable_append]
    exact ⟨hfirst, Ident.spellable_tokens hi, spellable_cons.2 ⟨hlast, spellable_nil⟩⟩
  cases u with
  | definition m =>
    obtain ⟨hnames, hparts⟩ := Bool.and_eq_true_iff.1 h
    obtain ⟨hname, hfooter⟩ := Bool.and_eq_true_iff.1 hnames
    obtain ⟨himports, hdeclarations⟩ := Bool.and_eq_true_iff.1 hparts
    show Spellable (_ ++ (_ ++ (_ ++ _)))
    rw [spellable_append, spellable_append, spellable_append]
    exact ⟨spellable_cons.2 ⟨rfl, around hname rfl rfl⟩,
      .all himports fun i => Import.spellable_tokens,
      .all hdeclarations Declaration.spellable_tokens, around hfooter rfl rfl⟩
  | program m =>
    obtain ⟨hnames, hparts⟩ := Bool.and_eq_true_iff.1 h
    obtain ⟨hname, hfooter⟩ := Bool.and_eq_true_iff.1 hnames
    obtain ⟨himports, hdeclarations⟩ := Bool.and_eq_true_iff.1 hparts
    have hheader : Spellable (if m.isImplementation then
        word .IMPLEMENTATION :: m.name.headerTokens else m.name.headerTokens) := by
      split
      · exact spellable_cons.2 ⟨rfl, around hname rfl rfl⟩
      · exact around hname rfl rfl
    show Spellable (_ ++ (_ ++ (_ ++ _)))
    rw [spellable_append, spellable_append, spellable_append]
    exact ⟨hheader, .all himports fun i => Import.spellable_tokens,
      Block.spellable_tokens hdeclarations, around hfooter rfl rfl⟩

end Modula

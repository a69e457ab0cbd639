import Modula.Proofs.Grammar.TypeExpr
/-!
# The grammar of compilation units

      unit     =  "DEFINITION" "MODULE" ident ";" {clause} {section} "END" ident "."
               |  ["IMPLEMENTATION"] "MODULE" ident ";" {clause} {section} ["BEGIN"] "END" ident "."
      clause   =  "IMPORT" ident {"," ident} ";"
               |  "FROM" ident "IMPORT" ident {"," ident} ";"
      section  =  "CONST" {ident "=" expression ";"}
               |  "TYPE" {ident "=" type ";"}
-/

namespace Modula

open Token.Kind (word symbol)

/-- An import. -/
inductive IsImport : Phrase Import
  | qualified {w : List Token.Kind} {modules : IdentList} :
    IsIdentList w modules →
      IsImport (word .IMPORT :: (w ++ [symbol .semicolon])) ⟨.qualified modules, .nowhere⟩
  | unqualified {u v : List Token.Kind} {source : Ident} {names : IdentList} :
    IsIdent u source → IsIdentList v names →
      IsImport (word .FROM :: (u ++ word .IMPORT :: (v ++ [symbol .semicolon])))
        ⟨.unqualified source names, .nowhere⟩

/-- `ident "=" expression ";"` -/
inductive IsConstItem : Phrase ConstItem
  | item {u v : List Token.Kind} {name : Ident} {value : Expr} :
    IsIdent u name → IsExpr v value →
      IsConstItem (u ++ symbol .equal :: (v ++ [symbol .semicolon])) ⟨name, value, .nowhere⟩

/-- `ident "=" type ";"` -/
inductive IsTypeItem : Phrase TypeItem
  | item {u v : List Token.Kind} {name : Ident} {type : TypeExpr} :
    IsIdent u name → IsType v type →
      IsTypeItem (u ++ symbol .equal :: (v ++ [symbol .semicolon])) ⟨name, type, .nowhere⟩

/-- A section of declarations. -/
inductive IsSection : Phrase Declaration
  | constants {w : List Token.Kind} {items : List ConstItem} :
    Repeated IsConstItem w items → IsSection (word .CONST :: w) ⟨0, .constants items, .nowhere⟩
  | types {w : List Token.Kind} {items : List TypeItem} :
    Repeated IsTypeItem w items → IsSection (word .TYPE :: w) ⟨0, .types items, .nowhere⟩

/-- `["BEGIN"]` -/
inductive IsBody : Phrase (Option Span)
  | none : IsBody [] none
  | some : IsBody [word .BEGIN] (some .nowhere)

/-- `{section} ["BEGIN"]` -/
inductive IsBlock : Phrase Block
  | block {u v : List Token.Kind} {declarations : List Declaration} {body : Option Span} :
    Repeated IsSection u declarations → IsBody v body →
      IsBlock (u ++ v) ⟨declarations, body, .nowhere⟩

/-- `"MODULE" ident ";"` -/
inductive IsModuleName : Phrase Ident
  | name {w : List Token.Kind} {i : Ident} :
    IsIdent w i → IsModuleName (word .MODULE :: (w ++ [symbol .semicolon])) i

/-- `"DEFINITION" "MODULE" ident ";"` -/
inductive IsDefinitionHeader : Phrase Ident
  | header {w : List Token.Kind} {i : Ident} :
    IsModuleName w i → IsDefinitionHeader (word .DEFINITION :: w) i

/-- `["IMPLEMENTATION"] "MODULE" ident ";"` -/
inductive IsProgramHeader : Phrase (Bool × Ident)
  | program {w : List Token.Kind} {i : Ident} : IsModuleName w i → IsProgramHeader w (false, i)
  | implementation {w : List Token.Kind} {i : Ident} :
    IsModuleName w i → IsProgramHeader (word .IMPLEMENTATION :: w) (true, i)

/-- `"END" ident "."` -/
inductive IsFooter : Phrase Ident
  | footer {w : List Token.Kind} {i : Ident} :
    IsIdent w i → IsFooter (word .END :: (w ++ [symbol .period])) i

/-- A compilation unit. -/
inductive IsUnit : Phrase CompilationUnit
  | definition {h i d f : List Token.Kind} {name footer : Ident} {imports : List Import}
    {declarations : List Declaration} :
    IsDefinitionHeader h name → Repeated IsImport i imports →
    Repeated IsSection d declarations → IsFooter f footer →
      IsUnit (h ++ (i ++ (d ++ f)))
        (.definition ⟨name, imports, declarations, footer, .nowhere⟩)
  | program {h i b f : List Token.Kind} {isImplementation : Bool} {name footer : Ident}
    {imports : List Import} {block : Block} :
    IsProgramHeader h (isImplementation, name) → Repeated IsImport i imports → IsBlock b block →
    IsFooter f footer →
      IsUnit (h ++ (i ++ (b ++ f)))
        (.program ⟨isImplementation, name, imports, block, footer, .nowhere⟩)

/-! ## First tokens -/

/-- With one of the two words. -/
theorem isImport_begins : Begins (fun k => k = word .IMPORT ∨ k = word .FROM) IsImport := by
  intro w i hw
  cases hw with
  | qualified _ => exact ⟨_, _, rfl, Or.inl rfl⟩
  | unqualified _ _ => exact ⟨_, _, rfl, Or.inr rfl⟩

/-- Declarations of constants begin with a name. -/
theorem isConstItem_begins : Begins (fun k => k.isName = true) IsConstItem := by
  intro w i hw
  cases hw with
  | item hu _ =>
    obtain ⟨k, v, rfl, hk⟩ := isIdent_begins hu
    exact ⟨k, _, List.cons_append, hk⟩

/-- And so do declarations of types. -/
theorem isTypeItem_begins : Begins (fun k => k.isName = true) IsTypeItem := by
  intro w i hw
  cases hw with
  | item hu _ =>
    obtain ⟨k, v, rfl, hk⟩ := isIdent_begins hu
    exact ⟨k, _, List.cons_append, hk⟩

/-- A section begins with its word; variables and procedures are not part of the grammar. -/
theorem isSection_begins : Begins (fun k => k = word .CONST ∨ k = word .TYPE) IsSection := by
  intro w d hw
  cases hw with
  | constants _ => exact ⟨_, _, rfl, Or.inl rfl⟩
  | types _ => exact ⟨_, _, rfl, Or.inr rfl⟩

end Modula
